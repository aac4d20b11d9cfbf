/-
# What can be put together from pieces

Some of the pieces of a text are put together in their order and the others are left
out; `selections` are the different texts that arise. The text of all pieces is longer
than any other selection (`length_lt_of_mem_selections`).

A further piece makes new selections. If it is none of the old ones, and there are at
least two old pieces, then some of these are new, apart from the text of all pieces
(`exists_new_selection`). Otherwise every selection could be continued with the piece up
to the whole text, which would make all of them powers of that piece; the shortest old
piece would then be that piece.
-/
import Mathlib.Data.Finset.Card
import Mathlib.Data.Finset.Max
import Mathlib.Data.List.Sublists

namespace SourceAudit.Text

/-- The different texts that arise if some of the pieces are put together in their order. -/
def selections (pieces : List String) : Finset String :=
  (pieces.sublists.map String.join).toFinset.erase ""

variable {ps sub : List String} {s x : String}

theorem mem_selections : x ∈ selections ps ↔ x ≠ "" ∧ ∃ sub, sub.Sublist ps ∧ String.join sub = x := by
  simp [selections, List.mem_sublists]

@[simp] theorem selections_nil : selections [] = ∅ := rfl

theorem card_selections_le (ps : List String) : (selections ps).card ≤ 2 ^ ps.length - 1 := by
  have hempty : "" ∈ (ps.sublists.map String.join).toFinset := by
    simp only [List.mem_toFinset, List.mem_map, List.mem_sublists]
    exact ⟨[], List.nil_sublist ps, rfl⟩
  have hcard := List.toFinset_card_le (ps.sublists.map String.join)
  rw [List.length_map, List.length_sublists] at hcard
  rw [selections, Finset.card_erase_of_mem hempty]
  omega

/-! ### Lengths -/

theorem length_join_perm {qs : List String} (h : ps.Perm qs) : (String.join ps).length = (String.join qs).length := by
  induction h with
  | nil => rfl
  | cons p _ ih => rw [String.join_cons, String.join_cons, String.length_append, String.length_append, ih]
  | swap p q ps =>
    simp only [String.join_cons, String.length_append]
    omega
  | trans _ _ ih₁ ih₂ => exact ih₁.trans ih₂

theorem length_join_le (h : sub.Sublist ps) : (String.join sub).length ≤ (String.join ps).length := by
  induction h with
  | slnil => exact Nat.le_refl _
  | cons p _ ih =>
    rw [String.join_cons, String.length_append]
    omega
  | cons_cons p _ ih =>
    rw [String.join_cons, String.join_cons, String.length_append, String.length_append]
    omega

/-- Where something is left out, at least one piece is missing. -/
theorem exists_left_out (h : sub.Sublist ps) (hne : sub ≠ ps) :
    ∃ p ∈ ps, (String.join sub).length + p.length ≤ (String.join ps).length := by
  induction h with
  | slnil => exact absurd rfl hne
  | @cons sub ps p h _ =>
    refine ⟨p, List.mem_cons_self, ?_⟩
    have hle := length_join_le h
    rw [String.join_cons, String.length_append]
    omega
  | @cons_cons sub ps p _ ih =>
    obtain ⟨q, hq, hle⟩ := ih fun heq => hne (by rw [heq])
    refine ⟨q, List.mem_cons_of_mem p hq, ?_⟩
    rw [String.join_cons, String.join_cons, String.length_append, String.length_append]
    omega

theorem length_pos_of_ne_empty (h : s ≠ "") : 0 < s.length :=
  Nat.pos_of_ne_zero fun h0 => h (String.length_eq_zero_iff.mp h0)

theorem join_ne_empty (h : ∀ p ∈ ps, p ≠ "") (hne : ps ≠ []) : String.join ps ≠ "" := by
  obtain ⟨p, ps, rfl⟩ := List.exists_cons_of_ne_nil hne
  have hp := length_pos_of_ne_empty (h p List.mem_cons_self)
  intro hempty
  have hlength := congrArg String.length hempty
  rw [String.join_cons, String.length_append, String.length_empty] at hlength
  omega

theorem length_lt_of_mem_selections (h : ∀ p ∈ ps, p ≠ "") (hx : x ∈ selections ps) (hne : x ≠ String.join ps) :
    x.length < (String.join ps).length := by
  obtain ⟨-, sub, hsub, rfl⟩ := mem_selections.mp hx
  obtain ⟨p, hp, hle⟩ := exists_left_out hsub fun heq => hne (by rw [heq])
  have := length_pos_of_ne_empty (h p hp)
  omega

/-! ### Members -/

theorem join_mem_selections (h : ∀ p ∈ ps, p ≠ "") (hsub : sub.Sublist ps) (hne : sub ≠ []) :
    String.join sub ∈ selections ps :=
  mem_selections.mpr ⟨join_ne_empty (fun p hp => h p (hsub.subset hp)) hne, sub, hsub, rfl⟩

theorem mem_selections_of_mem (h : ∀ p ∈ ps, p ≠ "") {p : String} (hp : p ∈ ps) : p ∈ selections ps :=
  mem_selections.mpr ⟨h p hp, [p], List.singleton_sublist.mpr hp, by simp [String.join_cons]⟩

theorem mem_selections_concat (hs : s ≠ "") :
    x ∈ selections (ps ++ [s]) ↔ x ∈ selections ps ∨ x = s ∨ ∃ l ∈ selections ps, x = l ++ s := by
  have hjoin (sub : List String) : String.join (sub ++ [s]) = String.join sub ++ s := by
    simp [String.join_cons]
  constructor
  · intro hx
    obtain ⟨hempty, sub, hsub, rfl⟩ := mem_selections.mp hx
    rcases List.mem_append.mp (List.sublists_concat ps s ▸ List.mem_sublists.mpr hsub) with hold | hnew
    · exact Or.inl (mem_selections.mpr ⟨hempty, sub, List.mem_sublists.mp hold, rfl⟩)
    · obtain ⟨front, hfront, rfl⟩ := List.mem_map.mp hnew
      rw [hjoin]
      by_cases hnothing : String.join front = ""
      · exact Or.inr (Or.inl (by rw [hnothing, String.empty_append]))
      · exact Or.inr (Or.inr ⟨_, mem_selections.mpr ⟨hnothing, front, List.mem_sublists.mp hfront, rfl⟩, rfl⟩)
  · rintro (hx | rfl | ⟨l, hl, rfl⟩)
    · obtain ⟨hempty, sub, hsub, rfl⟩ := mem_selections.mp hx
      exact mem_selections.mpr ⟨hempty, sub, hsub.trans (List.sublist_append_left ps [s]), rfl⟩
    · exact mem_selections.mpr ⟨hs, [x], List.sublist_append_right ps [x], by simp [String.join_cons]⟩
    · obtain ⟨hempty, sub, hsub, rfl⟩ := mem_selections.mp hl
      refine mem_selections.mpr ⟨?_, sub ++ [s], hsub.append_right [s], hjoin sub⟩
      intro hnothing
      have hlength := congrArg String.length hnothing
      have hpos := length_pos_of_ne_empty hs
      rw [String.length_append, String.length_empty] at hlength
      omega

/-! ### Continuing selections -/

def power (s : String) (n : Nat) : String :=
  String.join (List.replicate n s)

theorem power_succ (s : String) (n : Nat) : power s (n + 1) = s ++ power s n := by
  rw [power, List.replicate_succ, String.join_cons, power]

theorem power_add (s : String) (m n : Nat) : power s (m + n) = power s m ++ power s n := by
  rw [power, List.replicate_add, String.join_append, power, power]

/-- Every selection but the whole text gives another one if `s` is put behind it. -/
def Continues (s : String) (ps : List String) : Prop :=
  ∀ l ∈ selections ps, l ≠ String.join ps → l ++ s ∈ selections ps

theorem Continues.reaches (hc : Continues s ps) (h : ∀ p ∈ ps, p ≠ "") (hs : s ≠ "") {l : String}
    (hl : l ∈ selections ps) : ∃ n, String.join ps = l ++ power s n := by
  -- the selections grow, and none is longer than the whole text
  induction hn : (String.join ps).length - l.length using Nat.strong_induction_on generalizing l with
  | _ n ih =>
    by_cases hwhole : l = String.join ps
    · exact ⟨0, by rw [hwhole, power, List.replicate_zero]; simp⟩
    · have hlt := length_lt_of_mem_selections h hl hwhole
      have hpos := length_pos_of_ne_empty hs
      have hshorter : (String.join ps).length - (l ++ s).length < n := by
        rw [String.length_append]
        omega
      obtain ⟨k, hk⟩ := ih _ hshorter (hc l hl hwhole) rfl
      exact ⟨k + 1, by rw [hk, power_succ, String.append_assoc]⟩

/-- The whole text of at least two pieces consists of `s` only. -/
theorem Continues.join_eq_power {p q : String} {qs : List String} (hc : Continues s (p :: q :: qs))
    (h : ∀ r ∈ p :: q :: qs, r ≠ "") (hs : s ≠ "") : ∃ n, String.join (p :: q :: qs) = power s n := by
  have hrest : String.join (q :: qs) ∈ selections (p :: q :: qs) :=
    join_mem_selections h (List.sublist_cons_self p _) (List.cons_ne_nil q qs)
  obtain ⟨m, hm⟩ := hc.reaches h hs (mem_selections_of_mem h List.mem_cons_self)
  obtain ⟨n, hn⟩ := hc.reaches h hs hrest
  have hpower : String.join (q :: qs) = power s m := by
    rw [String.join_cons] at hm
    exact (String.append_right_inj p).mp hm
  exact ⟨m + n, by rw [hn, hpower, power_add]⟩

/-- The shortest piece is as long as `s`: without it the whole text lacks exactly `s`. -/
theorem Continues.length_shortest (hc : Continues s ps) (h : ∀ p ∈ ps, p ≠ "") (hs : s ≠ "")
    (htwo : 2 ≤ ps.length) {q : String} (hq : q ∈ ps) (hmin : ∀ p ∈ ps, q.length ≤ p.length) :
    q.length = s.length := by
  have hlength : (String.join (ps.erase q)).length + q.length = (String.join ps).length := by
    rw [length_join_perm (List.perm_cons_erase hq), String.join_cons, String.length_append]
    omega
  have hqpos := length_pos_of_ne_empty (h q hq)
  have hspos := length_pos_of_ne_empty hs
  have hne : ps.erase q ≠ [] := by
    intro hnil
    have := List.length_erase_of_mem hq
    rw [hnil, List.length_nil] at this
    omega
  have hwithout := join_mem_selections h List.erase_sublist hne
  have hnext := hc _ hwithout fun heq => by rw [heq] at hlength; omega
  -- a selection that is longer than the whole text without its shortest piece is the whole text
  have hwhole : String.join (ps.erase q) ++ s = String.join ps := by
    by_contra hproper
    obtain ⟨-, sub, hsub, hjoin⟩ := mem_selections.mp hnext
    obtain ⟨p, hp, hle⟩ := exists_left_out hsub fun heq => hproper (by rw [← hjoin, heq])
    have := hmin p hp
    rw [hjoin, String.length_append] at hle
    omega
  have := congrArg String.length hwhole
  rw [String.length_append] at this
  omega

/-- **Something new arises.** A piece that is no selection of at least two pieces gives a new text
behind one of their selections other than the whole text. -/
theorem exists_new_selection (h : ∀ p ∈ ps, p ≠ "") (hs : s ≠ "") (htwo : 2 ≤ ps.length) (hnew : s ∉ selections ps) :
    ∃ l ∈ selections ps, l ≠ String.join ps ∧ l ++ s ∉ selections ps := by
  by_contra hall
  have hc : Continues s ps := by
    intro l hl hne
    by_contra hlong
    exact hall ⟨l, hl, hne, hlong⟩
  rcases ps with _ | ⟨p, _ | ⟨q, qs⟩⟩
  · cases htwo
  · exact absurd htwo (by simp)
  obtain ⟨r, hr, hmin⟩ := Finset.exists_min_image (p :: q :: qs).toFinset String.length ⟨p, by simp⟩
  rw [List.mem_toFinset] at hr
  have hlength := hc.length_shortest h hs htwo hr fun t ht => hmin t (List.mem_toFinset.mpr ht)
  obtain ⟨m, hm⟩ := hc.join_eq_power h hs
  obtain ⟨n, hn⟩ := hc.reaches h hs (mem_selections_of_mem h hr)
  cases m with
  | zero =>
    rw [power, List.replicate_zero] at hm
    exact join_ne_empty h (List.cons_ne_nil p _) hm
  | succ m =>
    -- the whole text begins with the shortest piece, and with `s`
    rw [power_succ, hn] at hm
    have hlists := congrArg String.toList hm
    rw [String.toList_append, String.toList_append] at hlists
    have hsame : r = s := by
      refine String.toList_inj.mp (List.append_inj_left hlists ?_)
      rwa [String.length_toList, String.length_toList]
    exact hnew (hsame ▸ mem_selections_of_mem h hr)

end SourceAudit.Text
