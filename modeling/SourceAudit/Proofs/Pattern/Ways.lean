/-
# The ways of an expression

`Regex.Way` says how an expression can go over a text and what its groups then hold, in no
order of preference. A plain expression has no back references, conditions or look-arounds,
and repeats single tests only. For these the matcher goes a way (`way_of_run`), and finds
one if there is one (`isSome_run_of_way`), so a search finds a match that no other starts
before (`search?_leftmost`).
-/
import SourceAudit.Proofs.Pattern.Spans

namespace SourceAudit.Pattern

variable {c d : Cursor} {index : Nat}

variable {text : Array Char}

/-- Tests and places, one after the other or by choice, in groups or not, and repeated tests. -/
def Regex.isPlain : Regex → Bool
  | .empty | .char _ | .anchor _ | .rep .greedy _ _ (.char _) => true
  | .seq a b | .alt a b => a.isPlain && b.isPlain
  | .group _ body => body.isPlain
  | _ => false

/-- A way of a plain expression over the text, from a cursor to another. -/
inductive Regex.Way (text : Array Char) : Regex → Cursor → Cursor → Prop
  | empty {c : Cursor} : Way text .empty c c
  | char {t : CharTest} {c : Cursor} : Passes text t c.pos → Way text (.char t) c { c with pos := c.pos + 1 }
  | anchor {a : Anchor} {c : Cursor} : a.holds text c.pos = true → Way text (.anchor a) c c
  | seq {a b : Regex} {c d e : Cursor} : Way text a c d → Way text b d e → Way text (.seq a b) c e
  | left {a b : Regex} {c d : Cursor} : Way text a c d → Way text (.alt a b) c d
  | right {a b : Regex} {c d : Cursor} : Way text b c d → Way text (.alt a b) c d
  | rep {min n : Nat} {max : Option Nat} {t : CharTest} {c : Cursor} : min ≤ n → (∀ m ∈ max, n ≤ m) →
    (∀ i < n, Passes text t (c.pos + i)) → Way text (.rep .greedy min max (.char t)) c { c with pos := c.pos + n }
  | group {index : Nat} {body : Regex} {c d : Cursor} : Way text body c d →
    Way text (.group index body) c { d with groups := (index, c.pos, d.pos) :: d.groups, last := some index }

/-- **The matcher goes a way.** -/
theorem Regex.way_of_run : ∀ {r : Regex}, r.isPlain = true → ∀ {k : Cont} {c e : Cursor},
    r.run text k c = some e → ∃ d, r.Way text c d ∧ k d = some e
  | .empty, _, _, c, _, h => ⟨c, .empty, h⟩
  | .char t, _, k, c, e, h => by
    rw [run] at h
    split at h
    · rename_i x hx
      by_cases ht : t.holds x = true
      · rw [if_pos ht] at h
        exact ⟨_, .char ⟨x, hx, ht⟩, h⟩
      · rw [if_neg ht] at h
        cases h
    · cases h
  | .anchor a, _, k, c, e, h => by
    rw [run] at h
    split at h
    · rename_i ha
      exact ⟨c, .anchor ha, h⟩
    · cases h
  | .seq a b, hplain, k, c, e, h => by
    obtain ⟨ha, hb⟩ := Bool.and_eq_true_iff.mp hplain
    obtain ⟨d, hd, h⟩ := way_of_run ha h
    obtain ⟨x, hx, hk⟩ := way_of_run hb h
    exact ⟨x, .seq hd hx, hk⟩
  | .alt a b, hplain, k, c, e, h => by
    obtain ⟨ha, hb⟩ := Bool.and_eq_true_iff.mp hplain
    rw [run] at h
    split at h
    · rename_i r hr
      obtain ⟨d, hd, hk⟩ := way_of_run ha (hr.trans h)
      exact ⟨d, .left hd, hk⟩
    · obtain ⟨d, hd, hk⟩ := way_of_run hb h
      exact ⟨d, .right hd, hk⟩
  | .rep .greedy min max (.char t), _, k, c, e, h => by
    obtain ⟨len, hall, hmax, -, heq⟩ := repeatChar_spec text max t c
    rw [run, heq] at h
    by_cases hmin : len < min
    · rw [if_pos hmin] at h
      cases h
    · rw [if_neg hmin] at h
      obtain ⟨n, hleast, hn, hk⟩ := tryDown_some h
      exact ⟨_, .rep hleast (fun m hm => Nat.le_trans (by omega) (hmax m hm)) (fun i hi => hall i (by omega)), hk⟩
  | .group index body, hplain, k, c, e, h => by
    obtain ⟨d, hd, hk⟩ := way_of_run (r := body) hplain h
    exact ⟨_, .group hd, hk⟩

theorem isSome_tryDown {k : Cont} {least m : Nat} (hk : (k { c with pos := c.pos + m }).isSome = true) :
    ∀ {n : Nat}, least ≤ m → m ≤ least + n → (tryDown k c least n).isSome = true
  | 0, hleast, hm => by
    rw [tryDown, Nat.le_antisymm hleast hm]
    exact hk
  | n + 1, hleast, hm => by
    rw [tryDown]
    split
    · rfl
    · rename_i hnone
      rcases Nat.eq_or_lt_of_le hm with rfl | hlt
      · rw [← Nat.add_assoc, hnone] at hk
        cases hk
      · exact isSome_tryDown hk hleast (by omega)

/-- **The matcher finds a way if there is one** from whose end it can go on. -/
theorem Regex.isSome_run_of_way {r : Regex} (h : r.Way text c d) {k : Cont}
    (hk : (k d).isSome = true) : (r.run text k c).isSome = true := by
  induction h generalizing k with
  | empty => exact hk
  | char hpasses =>
    obtain ⟨x, hx, ht⟩ := hpasses
    rw [run, hx]
    simpa only [ht, if_true] using hk
  | anchor ha =>
    rw [run, if_pos ha]
    exact hk
  | seq _ _ iha ihb => exact iha (ihb hk)
  | left _ ih =>
    rw [run]
    split
    · rfl
    · rename_i hnone
      exact absurd (ih hk) (by simp [hnone])
  | right _ ih =>
    rw [run]
    split
    · rfl
    · exact ih hk
  | @rep min n max t c hmin hmax hall =>
    obtain ⟨len, -, -, hlongest, heq⟩ := repeatChar_spec text max t c
    have hn := hlongest n hall hmax
    rw [run, heq, if_neg (by omega)]
    exact isSome_tryDown hk hmin (by omega)
  | group _ ih => exact ih hk

/-! ### Groups that are always set -/

/-- All ways of the expression set the group. -/
def Regex.sets (index : Nat) : Regex → Bool
  | .seq a b => a.sets index || b.sets index
  | .group i body => i == index || body.sets index
  | _ => false

theorem Cursor.isSome_span?_cons {i start stop : Nat}
    (h : i = index ∨ (d.span? index).isSome = true) (last : Option Nat) :
    (Cursor.span? { d with groups := (i, start, stop) :: d.groups, last } index).isSome = true := by
  rcases h with rfl | h
  · simp [span?]
  · simp only [span?, Option.isSome_map] at h ⊢
    rw [List.find?_cons]
    split
    · rfl
    · exact h

theorem Regex.Way.isSome_span? {r : Regex} (h : r.Way text c d)
    (hset : r.sets index = true ∨ (c.span? index).isSome = true) : (d.span? index).isSome = true := by
  induction h with
  | empty | char _ | anchor _ | rep _ _ _ => exact hset.resolve_left (by simp [sets])
  | seq _ _ iha ihb =>
    rw [sets, Bool.or_eq_true] at hset
    rcases hset with (ha | hb) | hc
    · exact ihb (Or.inr (iha (Or.inl ha)))
    · exact ihb (Or.inl hb)
    · exact ihb (Or.inr (iha (Or.inr hc)))
  | left _ ih | right _ ih => exact ih (Or.inr (hset.resolve_left (by simp [sets])))
  | group _ ih =>
    rw [sets, Bool.or_eq_true, beq_iff_eq] at hset
    rcases hset with (hi | hbody) | hc
    · exact Cursor.isSome_span?_cons (Or.inl hi) _
    · exact Cursor.isSome_span?_cons (Or.inr (ih (Or.inl hbody))) _
    · exact Cursor.isSome_span?_cons (Or.inr (ih (Or.inr hc))) _

/-! ### Matches -/

variable {p : Pattern} {m : Match}

/-- The pattern matches the text from one place up to another. -/
def Matches (p : Pattern) (text : Array Char) (start stop : Nat) : Prop :=
  ∃ d, p.regex.Way text ⟨start, [], none⟩ d ∧ d.pos = stop

/-- The pattern matches the text from one place up to another, and a group holds a part of it. -/
def MatchesWith (p : Pattern) (text : Array Char) (index : Nat) (part : String) (start stop : Nat) : Prop :=
  ∃ d span, p.regex.Way text ⟨start, [], none⟩ d ∧ d.pos = stop ∧ d.span? index = some span ∧
    part = String.ofList (cut text span.1 span.2)

def Leftmost (p : Pattern) (text : Array Char) (start stop : Nat) : Prop :=
  p.Matches text start stop ∧ ∀ i < start, ∀ j, ¬p.Matches text i j

theorem way_of_matchAt? (hp : p.regex.isPlain = true) {pos : Nat} {moving : Bool}
    (h : p.matchAt? text pos moving = some m) :
    ∃ d, p.regex.Way text ⟨m.start, [], none⟩ d ∧ d.pos = m.stop ∧ d.groups = m.groups := by
  obtain ⟨c, hc, rfl⟩ := Option.map_eq_some_iff.mp h
  obtain ⟨d, hd, hk⟩ := Regex.way_of_run hp hc
  refine ⟨d, hd, ?_⟩
  split at hk
  · cases hk
  · rw [Option.some.inj hk]
    exact ⟨rfl, rfl⟩

/-- A match holds what it is asked for in a group that is always set. -/
theorem matchesWith_of_mem_findAll (hp : p.regex.isPlain = true) (hsets : p.regex.sets index = true)
    (hm : m ∈ p.findAll text) : p.MatchesWith text index ((m.group? text index).getD "") m.start m.stop := by
  obtain ⟨moved, hmatch⟩ := matchAt?_of_mem_findAll hm
  obtain ⟨d, hd, hstop, hgroups⟩ := way_of_matchAt? hp hmatch
  obtain ⟨span, hspan⟩ := Option.isSome_iff_exists.mp (hd.isSome_span? (Or.inl hsets))
  have hsame : m.span? index = some span := by rw [← hspan, Match.span?, ← hgroups, Cursor.span?]
  refine ⟨d, span, hd, hstop, hspan, ?_⟩
  rw [Match.group?, hsame, Option.map_some, Option.getD_some]

/-- **A search finds the leftmost match.** -/
theorem search?_leftmost (hp : p.regex.isPlain = true) (h : p.search? text 0 false = some m) :
    p.Leftmost text m.start m.stop := by
  obtain ⟨-, hlt, moved, hmatch⟩ := searchFrom?_some h
  obtain ⟨d, hd, hstop, -⟩ := way_of_matchAt? hp hmatch
  refine ⟨⟨d, hd, hstop⟩, fun i hi j ⟨c, hc, _⟩ => ?_⟩
  have hnone : p.matchAt? text i (false && i == 0) = none := by
    refine matchAt?_of_searchFrom? (Nat.zero_le i) (Nat.lt_trans hi hlt) fun m' hm => ?_
    rwa [← Option.some.inj (h.symm.trans hm)]
  have hfound := Regex.isSome_run_of_way hc (k := fun c => if false && c.pos == i then none else some c) rfl
  rw [matchAt?, Bool.false_and, Option.map_eq_none_iff] at hnone
  exact absurd hfound (by rw [hnone]; simp)

end SourceAudit.Pattern
