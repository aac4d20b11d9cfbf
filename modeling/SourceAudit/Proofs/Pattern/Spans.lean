/-
# What a match goes over

`Regex.Spans` says from where to where an expression can go in a text. It leaves out
what look-arounds and back references ask for, and the order in which the ways are
tried; a match that the matcher finds is one of the spans (`Regex.run_spans`). A span
goes forward and stays inside the text, so the matches of a pattern lie one after the
other (`findAll_inOrder`), and a sequence with a test for one character goes over that
character (`SpansAll.afterChar?`).

A place at which the pattern matches is the start of one of the matches, or one of them
runs over it (`exists_mem_findAll`). An empty match is followed by a longer one at its
place or by a search from the next place on, which is why the steps can be counted
(`findFrom_complete`).
-/
import Mathlib.Data.List.Pairwise
import Mathlib.Logic.Relation
import Mathlib.Tactic.Common
import SourceAudit.Pattern.Match

namespace SourceAudit.Pattern

variable {x : Char} {size i : Nat} {k : Cont} {c e : Cursor}

variable {text : Array Char}

/-! ### Spans -/

/-- The expression can go over the text from `i` up to `j`, whatever its groups hold and whatever its
look-arounds ask for. -/
def Regex.Spans (text : Array Char) : Regex → Nat → Nat → Prop
  | .empty, i, j => j = i
  | .char t, i, j => j = i + 1 ∧ ∃ c, text[i]? = some c ∧ t.holds c = true
  | .anchor _, i, j => j = i
  | .seq a b, i, j => ∃ k, a.Spans text i k ∧ b.Spans text k j
  | .alt a b, i, j => a.Spans text i j ∨ b.Spans text i j
  | .rep _ _ _ body, i, j => Relation.ReflTransGen (body.Spans text) i j
  | .group _ body, i, j => body.Spans text i j
  | .back _ _, i, j => i ≤ j ∧ (j = i ∨ j ≤ text.size)
  | .ahead _ _, i, j => j = i
  | .behind _ _ _ _, i, j => j = i
  | .cond _ yes no, i, j => yes.Spans text i j ∨ no.Spans text i j
  | .atomic body, i, j => body.Spans text i j

theorem Regex.Spans.bounds : ∀ {r : Regex} {i j : Nat}, r.Spans text i j →
    i ≤ j ∧ (i ≤ text.size → j ≤ text.size)
  | .empty, i, j, h => by
    have h : j = i := h
    omega
  | .char t, i, j, ⟨hj, c, hc, _⟩ => by
    have hi : i < text.size := (Array.getElem?_eq_some_iff.mp hc).1
    omega
  | .anchor _, i, j, h => by
    have h : j = i := h
    omega
  | .seq a b, i, j, ⟨k, ha, hb⟩ => by
    obtain ⟨hik, hk⟩ := bounds ha
    obtain ⟨hkj, hj⟩ := bounds hb
    exact ⟨by omega, fun h => hj (hk h)⟩
  | .alt a b, i, j, h => h.elim bounds bounds
  | .rep _ _ _ body, i, j, h => by
    replace h : Relation.ReflTransGen (body.Spans text) i j := h
    induction h with
    | refl => exact ⟨Nat.le_refl i, id⟩
    | tail _ hlast ih =>
      obtain ⟨hkj, hj⟩ := bounds hlast
      exact ⟨by omega, fun h => hj (ih.2 h)⟩
  | .group _ body, i, j, h => bounds (r := body) h
  | .back _ _, i, j, h => by
    obtain ⟨hij, hj⟩ := h
    omega
  | .ahead _ _, i, j, h => by
    have h : j = i := h
    omega
  | .behind _ _ _ _, i, j, h => by
    have h : j = i := h
    omega
  | .cond _ yes no, i, j, h => h.elim bounds bounds
  | .atomic body, i, j, h => bounds (r := body) h

/-- The expressions that a sequence is made of. -/
def Regex.parts : Regex → List Regex
  | .seq a b => a :: b.parts
  | r => [r]

/-- Expressions that go over the text from `i` up to `j` one after the other. -/
def SpansAll (text : Array Char) : List Regex → Nat → Nat → Prop
  | [], i, j => j = i
  | r :: rs, i, j => ∃ k, r.Spans text i k ∧ SpansAll text rs k j

theorem Regex.Spans.parts : ∀ {r : Regex} {i j : Nat}, r.Spans text i j → SpansAll text r.parts i j
  | .seq _ _, _, _, ⟨k, ha, hb⟩ => ⟨k, ha, parts hb⟩
  | .empty, _, j, h | .char _, _, j, h | .anchor _, _, j, h | .alt _ _, _, j, h | .rep _ _ _ _, _, j, h
  | .group _ _, _, j, h | .back _ _, _, j, h | .ahead _ _, _, j, h | .behind _ _ _ _, _, j, h
  | .cond _ _ _, _, j, h | .atomic _, _, j, h => ⟨j, h, rfl⟩

theorem SpansAll.le : ∀ {rs : List Regex} {i j : Nat}, SpansAll text rs i j → i ≤ j
  | [], _, _, h => Nat.le_of_eq h.symm
  | _ :: _, _, _, ⟨_, hr, hrs⟩ => Nat.le_trans hr.bounds.1 hrs.le

/-- The expression is the test for one character and no other. -/
def Regex.isChar (x : Char) : Regex → Bool
  | .char (.oneOf [code]) => code == x.toNat
  | _ => false

theorem Regex.Spans.isChar {r : Regex} {j : Nat} (h : r.Spans text i j)
    (hx : r.isChar x = true) : j = i + 1 ∧ text[i]? = some x := by
  unfold Regex.isChar at hx
  split at hx
  · rename_i code
    obtain ⟨hj, c, hc, ht⟩ := h
    have hcode : code = x.toNat := by simpa using hx
    have hc' : c.toNat = code := by simpa [CharTest.holds] using ht
    have hcx : c = x := Char.toNat_inj.mp (hc'.trans hcode)
    exact ⟨hj, hcx ▸ hc⟩
  · cases hx

/-- The expression ends in the test for just this character. -/
def Regex.endsIn (x : Char) : Regex → Bool
  | .seq _ b => b.endsIn x
  | r => r.isChar x

theorem Regex.Spans.endsIn : ∀ {r : Regex} {i j : Nat}, r.Spans text i j → r.endsIn x = true →
    ∃ k, i ≤ k ∧ j = k + 1 ∧ text[k]? = some x
  | .seq _ _, _, _, ⟨_, ha, hb⟩, hx => by
    obtain ⟨k, hk, hj⟩ := endsIn hb hx
    exact ⟨k, Nat.le_trans ha.bounds.1 hk, hj⟩
  | .empty, i, _, h, hx | .char _, i, _, h, hx | .anchor _, i, _, h, hx | .alt _ _, i, _, h, hx
  | .rep _ _ _ _, i, _, h, hx | .group _ _, i, _, h, hx | .back _ _, i, _, h, hx | .ahead _ _, i, _, h, hx
  | .behind _ _ _ _, i, _, h, hx | .cond _ _ _, i, _, h, hx | .atomic _, i, _, h, hx =>
    ⟨i, Nat.le_refl i, Regex.Spans.isChar h hx⟩

/-- What follows the first test for just this character. -/
def afterChar? (x : Char) : List Regex → Option (List Regex)
  | [] => none
  | r :: rs => if r.isChar x then some rs else afterChar? x rs

theorem SpansAll.afterChar? {rest : List Regex} : ∀ {rs : List Regex} {i j : Nat},
    SpansAll text rs i j → afterChar? x rs = some rest →
    ∃ p, i ≤ p ∧ text[p]? = some x ∧ SpansAll text rest (p + 1) j
  | r :: rs, i, j, ⟨k, hr, hrs⟩, h => by
    rw [Pattern.afterChar?] at h
    by_cases hx : r.isChar x = true
    · rw [if_pos hx] at h
      obtain ⟨hk, hi⟩ := hr.isChar hx
      rw [hk, Option.some.inj h] at hrs
      exact ⟨i, Nat.le_refl i, hi, hrs⟩
    · rw [if_neg hx] at h
      obtain ⟨p, hp, hpx, hrest⟩ := SpansAll.afterChar? hrs h
      exact ⟨p, Nat.le_trans hr.bounds.1 hp, hpx, hrest⟩

/-! ### The matcher goes over spans -/

/-- A matcher that hands on only places that `R` allows from where it starts. -/
def Follows (R : Nat → Nat → Prop) (f : Cont → Cursor → Option Cursor) : Prop :=
  ∀ k c e, f k c = some e → ∃ d, R c.pos d.pos ∧ k d = some e

def Passes (text : Array Char) (t : CharTest) (i : Nat) : Prop :=
  ∃ c, text[i]? = some c ∧ t.holds c = true

theorem runLength_spec (t : CharTest) : ∀ fuel pos n, ∃ len ≤ fuel, runLength text t fuel pos n = n + len ∧
    (∀ i < len, Passes text t (pos + i)) ∧ (len < fuel → ¬Passes text t (pos + len))
  | 0, pos, n => ⟨0, Nat.le_refl _, rfl, fun i hi => absurd hi (Nat.not_lt_zero i), fun h => absurd h (Nat.lt_irrefl 0)⟩
  | fuel + 1, pos, n => by
    have hstop (hfirst : ¬Passes text t pos) : ∃ len ≤ fuel + 1, n = n + len ∧
        (∀ i < len, Passes text t (pos + i)) ∧ (len < fuel + 1 → ¬Passes text t (pos + len)) :=
      ⟨0, Nat.zero_le _, rfl, fun i hi => absurd hi (Nat.not_lt_zero i), fun _ => hfirst⟩
    rw [runLength]
    split
    · rename_i c hc
      by_cases ht : t.holds c = true
      · obtain ⟨len, hle, hlen, hall, hend⟩ := runLength_spec t fuel (pos + 1) (n + 1)
        have hplace (i : Nat) : pos + (i + 1) = pos + 1 + i := by omega
        refine ⟨len + 1, by omega, by rw [if_pos ht, hlen]; omega, fun i hi => ?_, fun hlt => ?_⟩
        · cases i with
          | zero => exact ⟨c, hc, ht⟩
          | succ i => exact hplace i ▸ hall i (by omega)
        · exact hplace len ▸ hend (by omega)
      · rw [if_neg ht]
        exact hstop fun ⟨d, hd, hholds⟩ => ht (Option.some.inj (hc.symm.trans hd) ▸ hholds)
    · rename_i hnone
      exact hstop fun ⟨d, hd, _⟩ => absurd (hnone.symm.trans hd) (by simp)

theorem tryDown_some {least : Nat} : ∀ {n : Nat}, tryDown k c least n = some e →
    ∃ m, least ≤ m ∧ m ≤ least + n ∧ k { c with pos := c.pos + m } = some e
  | 0, h => ⟨least, Nat.le_refl _, Nat.le_refl _, h⟩
  | n + 1, h => by
    rw [tryDown] at h
    split at h
    · rename_i r hr
      rw [← h]
      exact ⟨least + (n + 1), Nat.le_add_right _ _, Nat.le_refl _, by rw [← Nat.add_assoc]; exact hr⟩
    · obtain ⟨m, hleast, hm, hk⟩ := tryDown_some h
      exact ⟨m, hleast, by omega, hk⟩

theorem tryUp_some : ∀ {fuel n : Nat}, tryUp k c fuel n = some e →
    ∃ m ≤ n + fuel, k { c with pos := c.pos + m } = some e
  | 0, n, h => ⟨n, Nat.le_refl _, h⟩
  | fuel + 1, n, h => by
    rw [tryUp] at h
    split at h
    · rename_i r hr
      rw [← h]
      exact ⟨n, by omega, hr⟩
    · obtain ⟨m, hm, hk⟩ := tryUp_some h
      exact ⟨m, by omega, hk⟩

theorem spans_chars {t : CharTest} {pos : Nat} : ∀ {m : Nat},
    (∀ i < m, Passes text t (pos + i)) →
    Relation.ReflTransGen ((Regex.char t).Spans text) pos (pos + m)
  | 0, _ => .refl
  | m + 1, h => by
    have hfirst := spans_chars fun i (hi : i < m) => h i (by omega)
    obtain ⟨c, hc, ht⟩ := h m (by omega)
    exact .tail hfirst ⟨rfl, c, hc, ht⟩

/-- A repeated test runs over the characters that pass, as many as there are and may be. -/
theorem repeatChar_spec (text : Array Char) (max : Option Nat) (t : CharTest) (c : Cursor) : ∃ len,
    (∀ i < len, Passes text t (c.pos + i)) ∧ (∀ m ∈ max, len ≤ m) ∧
    (∀ n, (∀ i < n, Passes text t (c.pos + i)) → (∀ m ∈ max, n ≤ m) → n ≤ len) ∧
    ∀ greed min k, repeatChar text greed min max t k c =
      if len < min then none
      else
        match greed with
        | .greedy => tryDown k c min (len - min)
        | .lazy => tryUp k c (len - min) min
        | .possessive => k { c with pos := c.pos + len } := by
  obtain ⟨room, hroom, hmax, hsize⟩ : ∃ room, room = max.elim (text.size - c.pos) (Nat.min · (text.size - c.pos)) ∧
      (∀ m ∈ max, room ≤ m) ∧ ∀ n, n ≤ text.size - c.pos → (∀ m ∈ max, n ≤ m) → n ≤ room := by
    refine ⟨_, rfl, ?_⟩
    cases max with
    | none => exact ⟨by simp, fun n hn _ => hn⟩
    | some m =>
      exact ⟨fun m' hm => Option.some.inj hm ▸ Nat.min_le_left _ _, fun n hn hm => Nat.le_min.mpr ⟨hm m rfl, hn⟩⟩
  obtain ⟨len, hle, hlen, hall, hend⟩ := @runLength_spec text t room c.pos 0
  rw [Nat.zero_add] at hlen
  refine ⟨len, hall, fun m hm => Nat.le_trans hle (hmax m hm), fun n hn hm => ?_, fun greed min k => ?_⟩
  · by_contra hlt
    have hlast : c.pos + (n - 1) < text.size := by
      obtain ⟨x, hx, -⟩ := hn (n - 1) (by omega)
      exact (Array.getElem?_eq_some_iff.mp hx).1
    have hroom := hsize n (by omega) hm
    exact hend (by omega) (hn len (by omega))
  · rw [← hlen, hroom]
    cases max <;> cases greed <;> rfl

theorem repeatChar_follows (greed : Greed) (min : Nat) (max : Option Nat) (t : CharTest) :
    Follows (Relation.ReflTransGen ((Regex.char t).Spans text)) (repeatChar text greed min max t) := by
  intro k c e h
  obtain ⟨len, hall, -, -, heq⟩ := repeatChar_spec text max t c
  rw [heq] at h
  have reach : ∀ m ≤ len, Relation.ReflTransGen ((Regex.char t).Spans text) c.pos (c.pos + m) :=
    fun m hm => spans_chars fun i hi => hall i (by omega)
  by_cases hmin : len < min
  · rw [if_pos hmin] at h
    cases h
  rw [if_neg hmin] at h
  cases greed with
  | greedy =>
    obtain ⟨m, -, hm, hk⟩ := tryDown_some h
    exact ⟨_, reach m (by omega), hk⟩
  | «lazy» =>
    obtain ⟨m, hm, hk⟩ := tryUp_some h
    exact ⟨_, reach m (by omega), hk⟩
  | possessive => exact ⟨_, reach len (Nat.le_refl _), h⟩

section

variable {R : Nat → Nat → Prop} {body : Cont → Cursor → Option Cursor} (hbody : Follows R body)
  (min : Nat) (max : Option Nat)

include hbody

theorem round_follows {rest : Cont} (h : body rest c = some e)
    (hrest : ∀ d, rest d = some e → ∃ x, Relation.ReflTransGen R d.pos x.pos ∧ k x = some e) :
    ∃ x, Relation.ReflTransGen R c.pos x.pos ∧ k x = some e := by
  obtain ⟨d, hd, hkd⟩ := hbody _ _ _ h
  obtain ⟨x, hx, hkx⟩ := hrest d hkd
  exact ⟨x, .head hd hx, hkx⟩

theorem repeatGreedy_follows (k : Cont) : ∀ (fuel count : Nat) (last : Option Nat) (c e : Cursor),
    repeatGreedy body min max k fuel count last c = some e →
    ∃ d, Relation.ReflTransGen R c.pos d.pos ∧ k d = some e
  | 0, _, _, _, _, h => absurd h (by simp [repeatGreedy])
  | fuel + 1, count, last, c, e, h => by
    rw [repeatGreedy] at h
    split at h
    · exact round_follows hbody h fun d hd => repeatGreedy_follows k fuel _ _ d e hd
    · split at h
      · split at h
        · rename_i r hr
          rw [h] at hr
          exact round_follows hbody hr fun d hd => repeatGreedy_follows k fuel _ _ d e hd
        · exact ⟨c, .refl, h⟩
      · exact ⟨c, .refl, h⟩

theorem repeatLazy_follows (k : Cont) : ∀ (fuel count : Nat) (last : Option Nat) (c e : Cursor),
    repeatLazy body min max k fuel count last c = some e →
    ∃ d, Relation.ReflTransGen R c.pos d.pos ∧ k d = some e
  | 0, _, _, _, _, h => absurd h (by simp [repeatLazy])
  | fuel + 1, count, last, c, e, h => by
    rw [repeatLazy] at h
    split at h
    · exact round_follows hbody h fun d hd => repeatLazy_follows k fuel _ _ d e hd
    · split at h
      · rename_i r hr
        rw [h] at hr
        exact ⟨c, .refl, hr⟩
      · split at h
        · exact round_follows hbody h fun d hd => repeatLazy_follows k fuel _ _ d e hd
        · cases h

end

theorem repeatPossessive_follows {R : Nat → Nat → Prop} {body : Cursor → Option Cursor}
    (hbody : ∀ c d, body c = some d → R c.pos d.pos) (min : Nat) (max : Option Nat) :
    ∀ (fuel count : Nat) (last : Option Nat) (c e : Cursor),
    repeatPossessive body min max fuel count last c = some e → Relation.ReflTransGen R c.pos e.pos
  | 0, _, _, _, _, h => absurd h (by simp [repeatPossessive])
  | fuel + 1, count, last, c, e, h => by
    rw [repeatPossessive] at h
    split at h
    · obtain ⟨d, hd, he⟩ := Option.bind_eq_some_iff.mp h
      exact .head (hbody c d hd) (repeatPossessive_follows hbody min max fuel _ _ d e he)
    · split at h
      · split at h
        · rename_i d hd
          exact .head (hbody c d hd) (repeatPossessive_follows hbody min max fuel _ _ d e h)
        · rw [Option.some.inj h]
      · rw [Option.some.inj h]

theorem repeats_bound {casing : Casing} : ∀ {n start pos : Nat}, repeats text casing start pos n = true →
    n = 0 ∨ pos + n ≤ text.size
  | 0, _, _, _ => Or.inl rfl
  | n + 1, start, pos, h => by
    rw [repeats] at h
    split at h
    · rename_i c d _ hd
      rw [Bool.and_eq_true] at h
      have hpos : pos < text.size := (Array.getElem?_eq_some_iff.mp hd).1
      rcases repeats_bound h.2 with hn | hn
      · exact Or.inr (by omega)
      · exact Or.inr (by omega)
    · cases h

/-- **A match goes over a span.** Whatever is accepted after an expression is accepted at the end of a
span of it. -/
theorem Regex.run_spans : ∀ r : Regex, Follows (r.Spans text) (r.run text)
  | .empty, k, c, e, h => ⟨c, rfl, h⟩
  | .char t, k, c, e, h => by
    rw [Regex.run] at h
    split at h
    · rename_i ch hch
      by_cases ht : t.holds ch = true
      · rw [if_pos ht] at h
        exact ⟨_, ⟨rfl, ch, hch, ht⟩, h⟩
      · rw [if_neg ht] at h
        cases h
    · cases h
  | .anchor a, k, c, e, h => by
    rw [Regex.run] at h
    split at h
    · exact ⟨c, rfl, h⟩
    · cases h
  | .seq a b, k, c, e, h => by
    obtain ⟨d, had, hd⟩ := run_spans a _ c e h
    obtain ⟨x, hbx, hx⟩ := run_spans b k d e hd
    exact ⟨x, ⟨d.pos, had, hbx⟩, hx⟩
  | .alt a b, k, c, e, h => by
    rw [Regex.run] at h
    split at h
    · rename_i r hr
      rw [h] at hr
      obtain ⟨d, hd, hk⟩ := run_spans a k c e hr
      exact ⟨d, Or.inl hd, hk⟩
    · obtain ⟨d, hd, hk⟩ := run_spans b k c e h
      exact ⟨d, Or.inr hd, hk⟩
  | .rep greed min max body, k, c, e, h => by
    have hbody : Follows (body.Spans text) (body.run text) := run_spans body
    rw [Regex.run.eq_def] at h
    dsimp only at h
    split at h
    · exact repeatChar_follows greed min max _ k c e h
    · split at h
      · exact repeatGreedy_follows hbody min max k _ _ _ c e h
      · exact repeatLazy_follows hbody min max k _ _ _ c e h
      · obtain ⟨d, hd, hk⟩ := Option.bind_eq_some_iff.mp h
        have hround : ∀ c d, body.run text some c = some d → body.Spans text c.pos d.pos := by
          intro c d hcd
          obtain ⟨x, hx, hxd⟩ := hbody _ _ _ hcd
          rwa [Option.some.inj hxd] at hx
        exact ⟨d, repeatPossessive_follows hround min max _ _ _ c d hd, hk⟩
  | .group index body, k, c, e, h => by
    obtain ⟨d, hd, hk⟩ := run_spans body _ c e h
    exact ⟨{ d with groups := (index, c.pos, d.pos) :: d.groups, last := some index }, hd, hk⟩
  | .back casing index, k, c, e, h => by
    rw [Regex.run] at h
    split at h
    · cases h
    · rename_i start stop _
      by_cases hr : repeats text casing start c.pos (stop - start) = true
      · rw [if_pos hr] at h
        refine ⟨_, ⟨Nat.le_add_right _ _, ?_⟩, h⟩
        rcases repeats_bound hr with hn | hn
        · exact Or.inl (by rw [hn]; rfl)
        · exact Or.inr hn
      · rw [if_neg hr] at h
        cases h
  | .ahead negated body, k, c, e, h => by
    rw [Regex.run] at h
    split at h <;> split at h
    · cases h
    · rename_i d _ _
      exact ⟨{ d with pos := c.pos }, rfl, h⟩
    · exact ⟨c, rfl, h⟩
    · cases h
  | .behind negated lo hi body, k, c, e, h => by
    rw [Regex.run] at h
    split at h
    · split at h
      · exact ⟨c, rfl, h⟩
      · cases h
    · split at h <;> split at h
      · cases h
      · rename_i d _ _
        exact ⟨{ d with pos := c.pos }, rfl, h⟩
      · exact ⟨c, rfl, h⟩
      · cases h
  | .cond index yes no, k, c, e, h => by
    rw [Regex.run] at h
    split at h
    · obtain ⟨d, hd, hk⟩ := run_spans yes k c e h
      exact ⟨d, Or.inl hd, hk⟩
    · obtain ⟨d, hd, hk⟩ := run_spans no k c e h
      exact ⟨d, Or.inr hd, hk⟩
  | .atomic body, k, c, e, h => by
    obtain ⟨d, hd, hk⟩ := Option.bind_eq_some_iff.mp h
    obtain ⟨x, hx, hxd⟩ := run_spans body _ _ _ hd
    rw [Option.some.inj hxd] at hx
    exact ⟨d, hx, hk⟩

/-! ### Matches in order -/

variable {p : Pattern}

theorem matchAt?_spans {pos : Nat} {moving : Bool} {m : Match} (h : p.matchAt? text pos moving = some m) :
    m.start = pos ∧ p.regex.Spans text m.start m.stop := by
  obtain ⟨c, hc, rfl⟩ := Option.map_eq_some_iff.mp h
  obtain ⟨d, hd, hk⟩ := Regex.run_spans _ _ _ _ hc
  refine ⟨rfl, ?_⟩
  split at hk
  · cases hk
  · rw [← Option.some.inj hk]
    exact hd

theorem searchFrom?_some : ∀ {fuel pos : Nat} {moving : Bool} {m : Match},
    p.searchFrom? text fuel pos moving = some m →
    pos ≤ m.start ∧ m.start < pos + fuel ∧ ∃ moved, p.matchAt? text m.start moved = some m
  | 0, _, _, _, h => absurd h (by simp [searchFrom?])
  | fuel + 1, pos, moving, m, h => by
    rw [searchFrom?] at h
    split at h
    · rename_i m' hm
      rw [Option.some.inj h] at hm
      have hstart := (matchAt?_spans hm).1
      exact ⟨by omega, by omega, moving, by rwa [hstart]⟩
    · obtain ⟨hle, hlt, hmatch⟩ := searchFrom?_some h
      exact ⟨by omega, by omega, hmatch⟩

/-- A match that is found from a place on starts there or later, and lies inside the text. -/
theorem search?_spans {pos : Nat} {moving : Bool} {m : Match} (h : p.search? text pos moving = some m) :
    pos ≤ m.start ∧ m.start ≤ m.stop ∧ m.stop ≤ text.size ∧ p.regex.Spans text m.start m.stop := by
  obtain ⟨hle, hlt, moved, hmatch⟩ := searchFrom?_some h
  have hspan := (matchAt?_spans hmatch).2
  obtain ⟨hforward, hinside⟩ := hspan.bounds
  exact ⟨hle, hforward, hinside (by omega), hspan⟩

theorem start_lt_stop_of_search? {pos : Nat} {moving : Bool} {m : Match} (hx : p.regex.endsIn x = true)
    (h : p.search? text pos moving = some m) : m.start < m.stop := by
  obtain ⟨k, hk, hstop, -⟩ := (search?_spans h).2.2.2.endsIn hx
  omega

/-- Bounds of stretches that lie one after the other from `pos` on, inside a text of that size. -/
inductive InOrder (size : Nat) : (pos : Nat) → List (Nat × Nat) → Prop
  | nil {pos : Nat} : InOrder size pos []
  | cons {pos start stop : Nat} {rest : List (Nat × Nat)} : pos ≤ start → start ≤ stop → stop ≤ size →
    InOrder size stop rest → InOrder size pos ((start, stop) :: rest)

theorem InOrder.of_cons {pos start stop : Nat} {rest : List (Nat × Nat)}
    (h : InOrder size pos ((start, stop) :: rest)) :
    pos ≤ start ∧ start ≤ stop ∧ stop ≤ size ∧ InOrder size stop rest := by
  cases h with
  | cons hstart hstop hend hrest => exact ⟨hstart, hstop, hend, hrest⟩

theorem InOrder.mono {pos pos' : Nat} {bounds : List (Nat × Nat)} (h : InOrder size pos bounds)
    (hle : pos' ≤ pos) : InOrder size pos' bounds := by
  cases h with
  | nil => exact .nil
  | cons hstart hstop hend hrest => exact .cons (Nat.le_trans hle hstart) hstop hend hrest

def Match.bounds (m : Match) : Nat × Nat := (m.start, m.stop)

theorem findFrom_done : ∀ (fuel pos : Nat) (moving : Bool) (done : List Match),
    p.findFrom text fuel pos moving done = done.reverse ++ p.findFrom text fuel pos moving []
  | 0, _, _, done => by simp [findFrom]
  | fuel + 1, pos, moving, done => by
    rw [findFrom, findFrom]
    split
    · simp
    · rename_i m _
      rw [findFrom_done fuel _ _ (m :: done), findFrom_done fuel _ _ [m]]
      simp

theorem findFrom_spec : ∀ (fuel pos : Nat) (moving : Bool),
    InOrder text.size pos ((p.findFrom text fuel pos moving []).map Match.bounds) ∧
      ∀ m ∈ p.findFrom text fuel pos moving [], ∃ moved, p.matchAt? text m.start moved = some m
  | 0, _, _ => ⟨.nil, fun _ h => nomatch h⟩
  | fuel + 1, pos, moving => by
    rw [findFrom]
    split
    · exact ⟨.nil, fun _ h => nomatch h⟩
    · rename_i m hm
      obtain ⟨hle, hforward, hinside, -⟩ := search?_spans hm
      obtain ⟨horder, hall⟩ := findFrom_spec fuel m.stop (m.start == m.stop)
      rw [findFrom_done, List.reverse_singleton, List.singleton_append, List.map_cons]
      refine ⟨.cons hle hforward hinside horder, fun x hx => ?_⟩
      rcases List.mem_cons.mp hx with rfl | hx
      · exact (searchFrom?_some hm).2.2
      · exact hall x hx

theorem findAll_inOrder (p : Pattern) (text : Array Char) :
    InOrder text.size 0 ((p.findAll text).map Match.bounds) :=
  (findFrom_spec _ _ _).1

theorem matchAt?_of_mem_findAll {m : Match} (h : m ∈ p.findAll text) :
    ∃ moved, p.matchAt? text m.start moved = some m :=
  (findFrom_spec _ _ _).2 m h

theorem findAll_spans {m : Match} (h : m ∈ p.findAll text) : p.regex.Spans text m.start m.stop := by
  obtain ⟨moved, hmatch⟩ := matchAt?_of_mem_findAll h
  exact (matchAt?_spans hmatch).2

/-- A match of a pattern that ends in the test for a character goes over that character at its end. -/
theorem stop_of_mem_findAll {m : Match} (hx : p.regex.endsIn x = true) (h : m ∈ p.findAll text) :
    ∃ k, m.start ≤ k ∧ m.stop = k + 1 ∧ text[k]? = some x :=
  (findAll_spans h).endsIn hx

/-! ### Cutting a text -/

theorem cut_eq (text : Array Char) (a b : Nat) : cut text a b = (text.toList.take b).drop a := by
  rw [cut, Array.toList_extract, List.extract_eq_take_drop, List.drop_take]

theorem cut_self (text : Array Char) (a : Nat) : cut text a a = [] := by
  rw [cut_eq]
  simp

theorem cut_append {a b c : Nat} (hab : a ≤ b) (hbc : b ≤ c) : cut text a b ++ cut text b c = cut text a c := by
  have hb : text.toList.take b = (text.toList.take c).take b := by rw [List.take_take, Nat.min_eq_left hbc]
  rw [cut_eq, cut_eq, cut_eq, hb]
  generalize text.toList.take c = cs
  have hsplit := List.take_append_drop (b - a) (cs.drop a)
  rw [List.drop_drop, ← List.drop_take, Nat.add_sub_cancel' hab] at hsplit
  exact hsplit

theorem cut_cut {a b j : Nat} (h : a + j ≤ b) : cut (cut text a b).toArray i j = cut text (a + i) (a + j) := by
  have htake : (text.toList.take b).take (a + j) = text.toList.take (a + j) := by
    rw [List.take_take, Nat.min_eq_left h]
  rw [cut_eq, cut_eq, cut_eq, ← htake]
  simp only [List.drop_take, List.take_take, List.drop_drop]
  congr 1
  omega

theorem cut_all (text : Array Char) : cut text 0 text.size = text.toList := by
  rw [cut_eq, ← Array.length_toList, List.take_length, List.drop_zero]

theorem cut_one (h : text[i]? = some x) : cut text i (i + 1) = [x] := by
  rw [cut_eq, List.drop_take, Nat.add_sub_cancel_left, List.take_one, List.head?_drop, Array.getElem?_toList, h]
  rfl

/-! ### No match is passed over -/

variable {p : Pattern} {text : Array Char} {pos q : Nat} {moving : Bool} {m : Match}

def Match.Meets (m : Match) (q : Nat) : Prop :=
  m.start = q ∨ m.start < q ∧ q < m.stop

theorem stop_ne_of_moving (h : p.matchAt? text pos true = some m) : m.stop ≠ pos := by
  obtain ⟨c, hc, rfl⟩ := Option.map_eq_some_iff.mp h
  obtain ⟨d, -, hk⟩ := Regex.run_spans _ _ _ _ hc
  dsimp only at hk ⊢
  split at hk
  · cases hk
  · rename_i hmoved
    rw [← Option.some.inj hk]
    simpa using hmoved

/-- A search has tried every place before the match that it finds, or all its places. -/
theorem matchAt?_of_searchFrom? : ∀ {fuel pos : Nat} {moving : Bool}, pos ≤ q → q < pos + fuel →
    (∀ m, p.searchFrom? text fuel pos moving = some m → q < m.start) →
    p.matchAt? text q (moving && q == pos) = none
  | 0, _, _, hle, hlt, _ => absurd hlt (by omega)
  | fuel + 1, pos, moving, hle, hlt, h => by
    rw [searchFrom?] at h
    split at h
    · rename_i m hm
      have hbefore := h m rfl
      exact absurd (matchAt?_spans hm).1 (by omega)
    · rename_i hnone
      rcases Nat.eq_or_lt_of_le hle with rfl | hpos
      · rwa [BEq.rfl, Bool.and_true]
      · have hlater := matchAt?_of_searchFrom? hpos (by omega) h
        rw [Bool.false_and] at hlater
        rwa [beq_false_of_ne (by omega), Bool.and_false]

theorem search?_moves (h : p.search? text pos true = some m) : m.start ≠ pos ∨ m.stop ≠ pos := by
  rw [search?] at h
  cases hfuel : text.size + 1 - pos with
  | zero => rw [hfuel, searchFrom?] at h; exact absurd h (by simp)
  | succ fuel =>
    rw [hfuel, searchFrom?] at h
    split at h
    · rename_i m' hm
      rw [Option.some.inj h] at hm
      exact Or.inr (stop_ne_of_moving hm)
    · exact Or.inl (by have := (searchFrom?_some h).1; omega)

/-- The steps that a search from a place on can take: two for each place, one for an empty match and
one for a longer one. -/
def stepsFrom (size pos : Nat) (moving : Bool) : Nat :=
  2 * (size + 1 - pos) + if moving then 0 else 1

theorem stepsFrom_lt (h : p.search? text pos moving = some m) :
    stepsFrom text.size m.stop (m.start == m.stop) < stepsFrom text.size pos moving := by
  obtain ⟨hstart, hforward, hinside, -⟩ := search?_spans h
  unfold stepsFrom
  by_cases hempty : m.start = m.stop
  · rw [if_pos (beq_iff_eq.mpr hempty)]
    cases moving with
    | false => simp only [Bool.false_eq_true, if_false]; omega
    | true => have := search?_moves h; simp only [if_true]; omega
  · rw [if_neg (by simpa using hempty)]
    split <;> omega

/-- The induction is on the number of matches still allowed, which is never used up. -/
theorem findFrom_complete : ∀ (fuel pos : Nat) (moving : Bool), stepsFrom text.size pos moving ≤ fuel →
    pos ≤ q → q ≤ text.size → (moving = true → q ≠ pos) → (p.matchAt? text q false).isSome = true →
    ∃ m ∈ p.findFrom text fuel pos moving [], m.Meets q
  | 0, pos, moving, hfuel, hle, hsize, _, _ => by
    unfold stepsFrom at hfuel
    omega
  | fuel + 1, pos, moving, hfuel, hle, hsize, hmoving, hmatch => by
    have htried : ¬p.matchAt? text q (moving && q == pos) = none := by
      have hfree : (moving && q == pos) = false := by
        cases moving with
        | false => rfl
        | true => rw [Bool.true_and]; exact beq_false_of_ne (hmoving rfl)
      rw [hfree]
      exact Option.ne_none_iff_isSome.mpr hmatch
    -- a match starts there or before
    obtain ⟨m, hm, hbefore⟩ : ∃ m, p.search? text pos moving = some m ∧ m.start ≤ q := by
      by_contra hnone
      refine htried (@matchAt?_of_searchFrom? p text q (text.size + 1 - pos) pos moving hle (by omega) fun m hm => ?_)
      exact Nat.lt_of_not_le fun h => hnone ⟨m, hm, h⟩
    rw [findFrom, hm]
    dsimp only
    rw [findFrom_done, List.reverse_singleton, List.singleton_append]
    rcases Nat.eq_or_lt_of_le hbefore with hstart | hafter
    · exact ⟨m, List.mem_cons_self, Or.inl hstart⟩
    by_cases hstop : q < m.stop
    · exact ⟨m, List.mem_cons_self, Or.inr ⟨hafter, hstop⟩⟩
    have hfewer := stepsFrom_lt hm
    obtain ⟨m', hm', hmeets⟩ := findFrom_complete fuel m.stop (m.start == m.stop) (by omega) (by omega) hsize
      (fun hempty => by have := beq_iff_eq.mp hempty; omega) hmatch
    exact ⟨m', List.mem_cons_of_mem _ hm', hmeets⟩

/-- **No match is passed over.** Where the pattern matches, one of its matches starts, or one runs over
the place. -/
theorem exists_mem_findAll (hq : q ≤ text.size) (h : (p.matchAt? text q false).isSome = true) :
    ∃ m ∈ p.findAll text, m.Meets q :=
  have hfuel : stepsFrom text.size 0 false ≤ 2 * text.size + 3 := by
    simp only [stepsFrom, Bool.false_eq_true, if_false]
    omega
  findFrom_complete _ 0 false hfuel (Nat.zero_le q) hq (fun h => absurd h Bool.false_ne_true) h

theorem InOrder.bounds {pos : Nat} {bounds : List (Nat × Nat)} (h : InOrder size pos bounds) :
    ∀ b ∈ bounds, pos ≤ b.1 ∧ b.1 ≤ b.2 ∧ b.2 ≤ size := by
  induction h with
  | nil => simp
  | cons hstart hstop hend _ ih =>
    refine List.forall_mem_cons.mpr ⟨⟨hstart, hstop, hend⟩, fun b hb => ?_⟩
    have hb := ih b hb
    omega

theorem InOrder.pairwise {pos : Nat} {bounds : List (Nat × Nat)} (h : InOrder size pos bounds) :
    bounds.Pairwise fun a b => a.2 ≤ b.1 := by
  induction h with
  | nil => exact .nil
  | cons _ _ _ hrest ih => exact List.pairwise_cons.mpr ⟨fun b hb => (hrest.bounds b hb).1, ih⟩

theorem bounds_of_mem_findAll (h : m ∈ p.findAll text) : m.start ≤ m.stop ∧ m.stop ≤ text.size :=
  ((findAll_inOrder p text).bounds m.bounds (List.mem_map_of_mem h)).2

theorem eq_or_apart_of_mem_findAll {m m' : Match} (hm : m ∈ p.findAll text) (hm' : m' ∈ p.findAll text) :
    m = m' ∨ m.stop ≤ m'.start ∨ m'.stop ≤ m.start := by
  have hordered : (p.findAll text).Pairwise fun a b => a.stop ≤ b.start ∨ b.stop ≤ a.start :=
    (List.pairwise_map.mp (findAll_inOrder p text).pairwise).imp Or.inl
  have hsymm : Std.Symm fun a b : Match => a.stop ≤ b.start ∨ b.stop ≤ a.start := ⟨fun _ _ h => h.symm⟩
  by_cases heq : m = m'
  · exact Or.inl heq
  · exact Or.inr (hordered.forall hm hm' heq)

/-- A match that meets a place is the one that runs over it. -/
theorem eq_of_meets {m m' : Match} (hm : m ∈ p.findAll text) (hm' : m' ∈ p.findAll text) (hmeets : m.Meets q)
    (hstart : m'.start < q) (hstop : q < m'.stop) : m = m' := by
  have hbounds := bounds_of_mem_findAll hm
  rcases eq_or_apart_of_mem_findAll hm hm' with heq | hapart
  · exact heq
  · unfold Match.Meets at hmeets
    omega

end SourceAudit.Pattern
