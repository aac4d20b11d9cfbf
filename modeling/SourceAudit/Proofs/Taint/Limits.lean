/-
# Lists that are cut

Lists of texts are put together by appending what is new (`unite`). A merge does the
same within a limit: it keeps the front of the left list and takes over new items of the
right one until the limit is reached. The length is looked at only after an item has
been taken over, so one new item is taken over also by a list that is full
(`mergeLimited_eq_take`).

So a merge is the union up to the limit and at most one item behind it (`surplus`,
`mergeLimited_eq_append`). Merges are associative up to the limit; the item behind it
depends on the order in which lists are merged.
-/
import Mathlib.Data.List.Induction
import Mathlib.Data.List.Perm.Subperm
import SourceAudit.Taint.Shape
import SourceAudit.Taint.Memory

namespace SourceAudit.Taint

variable {x : String} {a b : List String}

/-! ### Putting lists together -/

theorem unite_nil (a : List String) : unite a [] = a := rfl

theorem unite_cons_of_mem (h : x ∈ a) (b : List String) : unite a (x :: b) = unite a b := by
  simp [unite, h]

theorem unite_cons_of_not_mem (h : x ∉ a) (b : List String) : unite a (x :: b) = unite (a ++ [x]) b := by
  simp [unite, h]

theorem unite_append (a b c : List String) : unite a (b ++ c) = unite (unite a b) c :=
  List.foldl_append

theorem prefix_unite (a b : List String) : a <+: unite a b := by
  induction b generalizing a with
  | nil => exact List.prefix_rfl
  | cons x b ih =>
    by_cases hx : x ∈ a
    · rw [unite_cons_of_mem hx]
      exact ih a
    · rw [unite_cons_of_not_mem hx]
      exact (List.prefix_append a [x]).trans (ih _)

@[simp] theorem mem_unite : x ∈ unite a b ↔ x ∈ a ∨ x ∈ b := by
  induction b generalizing a with
  | nil => simp [unite_nil]
  | cons y b ih =>
    by_cases hy : y ∈ a
    · rw [unite_cons_of_mem hy, ih, List.mem_cons]
      constructor
      · exact Or.imp_right Or.inr
      · rintro (h | rfl | h)
        · exact Or.inl h
        · exact Or.inl hy
        · exact Or.inr h
    · rw [unite_cons_of_not_mem hy, ih, List.mem_append, List.mem_singleton, List.mem_cons, or_assoc]

theorem nodup_unite (h : a.Nodup) (b : List String) : (unite a b).Nodup := by
  induction b generalizing a with
  | nil => exact h
  | cons x b ih =>
    by_cases hx : x ∈ a
    · rw [unite_cons_of_mem hx]
      exact ih h
    · have hnew : (a ++ [x]).Nodup := by
        rw [List.nodup_append]
        refine ⟨h, by simp, fun y hy z hz => ?_⟩
        rw [List.mem_singleton.mp hz]
        exact ne_of_mem_of_not_mem hy hx
      rw [unite_cons_of_not_mem hx]
      exact ih hnew

theorem unite_concat_of_not_mem (h : x ∉ unite a b) : unite a (b ++ [x]) = unite a b ++ [x] := by
  rw [unite_append, unite_cons_of_not_mem h, unite_nil]

theorem length_lt_unite (hx : x ∈ b) (hnew : x ∉ a) : a.length < (unite a b).length := by
  refine Nat.lt_of_le_of_ne (prefix_unite a b).length_le fun heq => hnew ?_
  rw [(prefix_unite a b).eq_of_length heq]
  exact mem_unite.mpr (Or.inr hx)

theorem length_unite_le (a b : List String) : (unite a b).length ≤ a.length + b.length := by
  induction b generalizing a with
  | nil => exact Nat.le_refl _
  | cons x b ih =>
    rw [List.length_cons]
    by_cases hx : x ∈ a
    · rw [unite_cons_of_mem hx]
      have := ih a
      omega
    · rw [unite_cons_of_not_mem hx]
      have := ih (a ++ [x])
      rw [List.length_append, List.length_singleton] at this
      omega

theorem eraseDups_of_nodup (h : a.Nodup) : a.eraseDups = a := by
  induction a with
  | nil => rfl
  | cons x a ih =>
    obtain ⟨hx, ha⟩ := List.nodup_cons.mp h
    have hkept : a.filter (fun y => !y == x) = a :=
      List.filter_eq_self.mpr fun y hy => by simpa using ne_of_mem_of_not_mem hy hx
    rw [List.eraseDups_cons, hkept, ih ha]

theorem unite_eq_eraseDups (h : a.Nodup) (b : List String) : unite a b = (a ++ b).eraseDups := by
  induction b generalizing a with
  | nil => rw [unite_nil, List.append_nil, eraseDups_of_nodup h]
  | cons x b ih =>
    by_cases hx : x ∈ a
    · rw [unite_cons_of_mem hx, ih h, List.eraseDups_append, List.eraseDups_append]
      simp [List.removeAll, hx]
    · have hnew := nodup_unite h [x]
      rw [unite_cons_of_not_mem hx, unite_nil] at hnew
      rw [unite_cons_of_not_mem hx, ih hnew, List.append_assoc, List.singleton_append]

theorem unite_assoc (a b c : List String) : unite a (unite b c) = unite (unite a b) c := by
  induction c generalizing b with
  | nil => rfl
  | cons x c ih =>
    by_cases hx : x ∈ b
    · rw [unite_cons_of_mem hx, ih, unite_cons_of_mem (mem_unite.mpr (Or.inr hx))]
    · rw [unite_cons_of_not_mem hx, ih, unite_append, ← unite_append, List.singleton_append]

/-! ### Up to a limit -/

/-- The items that are new come until the limit is reached, and the first of them in any case. -/
theorem extendTo_eq_take (limit : Int) (done xs : List String) :
    extendTo limit done xs = (unite done xs).take (max limit.toNat (done.length + 1)) := by
  induction xs generalizing done with
  | nil => rw [extendTo, unite_nil, List.take_of_length_le (by omega)]
  | cons x xs ih =>
    unfold extendTo
    by_cases hx : x ∈ done
    · rw [if_pos (List.contains_iff_mem.mpr hx), ih, unite_cons_of_mem hx]
    · rw [if_neg (by simpa using hx), unite_cons_of_not_mem hx]
      by_cases hfull : limit ≤ (done ++ [x]).length
      · have hmax : max limit.toNat (done.length + 1) = (done ++ [x]).length := by
          rw [List.length_append, List.length_singleton] at hfull ⊢
          omega
        rw [if_pos hfull, hmax]
        exact List.prefix_iff_eq_take.mp (prefix_unite _ xs)
      · have hmax : max limit.toNat ((done ++ [x]).length + 1) = max limit.toNat (done.length + 1) := by
          rw [List.length_append, List.length_singleton] at hfull ⊢
          omega
        rw [if_neg hfull, ih, hmax]

section

variable {left right : List String} {limit : Int}

/-- A merge keeps the front of the left list and takes over what is new. -/
theorem mergeLimited_eq_take (hl : 0 ≤ limit) (left right : List String) :
    mergeLimited left right limit =
      (unite (left.take limit.toNat) right).take (max limit.toNat ((left.take limit.toNat).length + 1)) := by
  rw [mergeLimited, extendTo_eq_take, takeTo, if_pos hl]

theorem mergeLimited_of_length_le (h : (unite left right).length ≤ limit) :
    mergeLimited left right limit = unite left right := by
  have hle : left.length ≤ (unite left right).length := (prefix_unite left right).length_le
  have hleft : left.take limit.toNat = left := List.take_of_length_le (by omega)
  rw [mergeLimited_eq_take (by omega), hleft, List.take_of_length_le (by omega)]

theorem mem_mergeLimited_of_length_le (h : (left.length + right.length : Int) ≤ limit) :
    x ∈ mergeLimited left right limit ↔ x ∈ left ∨ x ∈ right := by
  have hunited := length_unite_le left right
  rw [mergeLimited_of_length_le (by omega), mem_unite]

theorem mem_mergeLimited_of_mem_take (hl : 0 ≤ limit) (h : x ∈ left.take limit.toNat) (right : List String) :
    x ∈ mergeLimited left right limit := by
  rw [mergeLimited_eq_take hl]
  refine (List.prefix_take_iff.mpr ⟨prefix_unite _ right, ?_⟩).subset h
  omega

theorem mem_of_mem_mergeLimited (hl : 0 ≤ limit) (h : x ∈ mergeLimited left right limit) :
    x ∈ left ∨ x ∈ right := by
  rw [mergeLimited_eq_take hl] at h
  exact (mem_unite.mp (List.mem_of_mem_take h)).imp_left List.mem_of_mem_take

theorem mergeLimited_ne_nil (hl : 0 < limit) (h : left ≠ [] ∨ right ≠ []) : mergeLimited left right limit ≠ [] := by
  have hlimit : limit.toNat ≠ 0 := by omega
  have hunited : unite (left.take limit.toNat) right ≠ [] := by
    rcases h with hleft | hright
    · obtain ⟨y, ys, rfl⟩ := List.exists_cons_of_ne_nil hleft
      obtain ⟨n, hn⟩ := Nat.exists_eq_succ_of_ne_zero hlimit
      rw [hn, List.take_succ_cons]
      exact List.ne_nil_of_mem (mem_unite.mpr (Or.inl List.mem_cons_self))
    · obtain ⟨y, ys, rfl⟩ := List.exists_cons_of_ne_nil hright
      exact List.ne_nil_of_mem (mem_unite.mpr (Or.inr List.mem_cons_self))
  rw [mergeLimited_eq_take (Int.le_of_lt hl), Ne, List.take_eq_nil_iff, not_or]
  exact ⟨by omega, hunited⟩

theorem nodup_mergeLimited (hl : 0 ≤ limit) (h : left.Nodup) (right : List String) :
    (mergeLimited left right limit).Nodup := by
  rw [mergeLimited_eq_take hl]
  exact (nodup_unite (h.sublist (List.take_sublist _ _)) right).sublist (List.take_sublist _ _)

end

section

variable {limit : Nat}

/-! ### The front of a union -/

theorem take_unite_of_le (h : limit ≤ a.length) (b : List String) : (unite a b).take limit = a.take limit := by
  obtain ⟨c, hc⟩ := prefix_unite a b
  rw [← hc, List.take_append_of_le_length h]

/-- Only the front of the left list counts. -/
theorem take_unite_take_left (limit : Nat) (a b : List String) :
    (unite (a.take limit) b).take limit = (unite a b).take limit := by
  rcases Nat.le_total a.length limit with hle | hle
  · rw [List.take_of_length_le hle]
  · have hlen := List.length_take_of_le hle
    rw [take_unite_of_le (by omega), take_unite_of_le hle, List.take_take, Nat.min_self]

/-- Only the front of the right list counts, if its items are different. -/
theorem take_unite_take_right (h : b.Nodup) (limit : Nat) (a : List String) :
    (unite a (b.take limit)).take limit = (unite a b).take limit := by
  rcases Nat.le_total b.length limit with hle | hle
  · rw [List.take_of_length_le hle]
  · have hsub : b.take limit ⊆ unite a (b.take limit) := fun x hx => mem_unite.mpr (Or.inr hx)
    -- the front alone fills the union up to the limit
    have hlen := ((h.sublist (List.take_sublist limit b)).subperm hsub).length_le
    rw [List.length_take, Nat.min_eq_left hle] at hlen
    conv_rhs => rw [← List.take_append_drop limit b, unite_append, take_unite_of_le hlen]

/-- The first item that is new follows. -/
theorem take_unite_succ (a b : List String) : (unite a b).take (a.length + 1) = a ++ (b.find? (· ∉ a)).toList := by
  induction b with
  | nil => simp [unite_nil, List.take_of_length_le]
  | cons x b ih =>
    by_cases hx : x ∈ a
    · rw [unite_cons_of_mem hx, ih, List.find?_cons_of_neg (by simpa using hx)]
    · have hlen : a.length + 1 = (a ++ [x]).length := by simp
      rw [unite_cons_of_not_mem hx, List.find?_cons_of_pos (by simpa using hx), hlen,
        ← List.prefix_iff_eq_take.mp (prefix_unite (a ++ [x]) b)]
      rfl

/-! ### Beyond the limit -/

/-- What a left list that has reached the limit takes over beyond it. -/
def surplus (limit : Nat) (left right : List String) : Option String :=
  if left.length < limit then none else right.find? (· ∉ left.take limit)

theorem surplus_eq_none_iff : surplus limit a b = none ↔ a.length < limit ∨ b ⊆ a.take limit := by
  unfold surplus
  split
  · simp [*]
  · simp [*, List.subset_def]

theorem mergeLimited_eq_append (limit : Nat) (a b : List String) :
    mergeLimited a b limit = (unite a b).take limit ++ (surplus limit a b).toList := by
  rw [mergeLimited_eq_take (Int.natCast_nonneg limit), Int.toNat_natCast, surplus]
  split
  · rename_i hroom
    rw [List.take_of_length_le (Nat.le_of_lt hroom), Nat.max_eq_left hroom]
    simp
  · rename_i hfull
    have hlen : (a.take limit).length = limit := List.length_take_of_le (Nat.le_of_not_lt hfull)
    rw [Nat.max_eq_right (by omega), take_unite_succ, take_unite_of_le (by omega)]

theorem length_mergeLimited (limit : Nat) (a b : List String) :
    (mergeLimited a b limit).length = min limit (unite a b).length + (surplus limit a b).toList.length := by
  rw [mergeLimited_eq_append, List.length_append, List.length_take]

theorem length_of_surplus {x : String} (h : surplus limit a b = some x) : limit ≤ (unite a b).length := by
  by_contra hlt
  have hlen := (prefix_unite a b).length_le
  rw [surplus, if_pos (by omega)] at h
  cases h

theorem take_mergeLimited (limit : Nat) (a b : List String) :
    (mergeLimited a b limit).take limit = (unite a b).take limit := by
  rw [mergeLimited_eq_append]
  cases hs : surplus limit a b with
  | none => simp [List.take_take]
  | some x =>
    have hlen := List.length_take_of_le (length_of_surplus hs)
    rw [List.take_append_of_le_length (by omega), List.take_take, Nat.min_self]

theorem length_mergeLimited_le_iff : (mergeLimited a b limit).length ≤ limit ↔ surplus limit a b = none := by
  rw [length_mergeLimited]
  cases hs : surplus limit a b with
  | none => exact iff_of_true (Nat.min_le_left _ _) rfl
  | some x => simp [Nat.min_eq_left (length_of_surplus hs)]

theorem take_mergeLimited_assoc (hb : b.Nodup) (limit : Nat) (a c : List String) :
    (mergeLimited (mergeLimited a b limit) c limit).take limit =
      (mergeLimited a (mergeLimited b c limit) limit).take limit := by
  have hbc : (mergeLimited b c limit).Nodup := nodup_mergeLimited (Int.natCast_nonneg limit) hb c
  calc (mergeLimited (mergeLimited a b limit) c limit).take limit
      = (unite ((unite a b).take limit) c).take limit := by
        rw [take_mergeLimited, ← take_unite_take_left, take_mergeLimited]
    _ = (unite (unite a b) c).take limit := take_unite_take_left limit (unite a b) c
    _ = (unite a (unite b c)).take limit := by rw [unite_assoc]
    _ = (unite a ((unite b c).take limit)).take limit := (take_unite_take_right (nodup_unite hb c) limit a).symm
    _ = (mergeLimited a (mergeLimited b c limit) limit).take limit := by
        rw [← take_mergeLimited limit b c, take_unite_take_right hbc, take_mergeLimited]

theorem take_foldl_mergeLimited (limit : Nat) (parts : List (List String)) :
    (parts.foldl (mergeLimited · · limit) []).take limit = (unite [] parts.flatten).take limit := by
  induction parts using List.reverseRecOn with
  | nil => rfl
  | append_singleton parts p ih =>
    rw [List.foldl_concat, take_mergeLimited, ← take_unite_take_left, ih, take_unite_take_left, ← unite_append]
    simp

/-- Of merged lists only the union counts for what a further list adds. -/
theorem surplus_mergeLimited (limit : Nat) (a b c : List String) :
    surplus limit (mergeLimited a b limit) c = surplus limit (unite a b) c := by
  have hlen := congrArg List.length (take_mergeLimited limit a b)
  rw [List.length_take, List.length_take] at hlen
  have hroom : (mergeLimited a b limit).length < limit ↔ (unite a b).length < limit := by omega
  simp only [surplus, hroom, take_mergeLimited]

/-- Merges that are the same up to the limit differ in the item behind it, if at all. -/
theorem mergeLimited_eq_iff {a' b' : List String}
    (h : (mergeLimited a b limit).take limit = (mergeLimited a' b' limit).take limit) :
    mergeLimited a b limit = mergeLimited a' b' limit ↔ surplus limit a b = surplus limit a' b' := by
  rw [take_mergeLimited, take_mergeLimited] at h
  rw [mergeLimited_eq_append, mergeLimited_eq_append limit a', h, List.append_right_inj]
  exact ⟨fun heq => by simpa using congrArg List.head? heq, congrArg Option.toList⟩

/-- A merge is the union up to the limit exactly if the left list has room or nothing in the right list
is new to its front; else one item more stands behind the limit. Merges are associative up to the
limit, and altogether exactly if the item behind it is the same. A fold of merges gives the union of
all lists up to the limit, and at most one item more. -/
theorem mergeLimited_union_iff (limit : Nat) :
    (∀ left right : List String, left.Nodup →
      (mergeLimited left right limit = (left ++ right).eraseDups.take limit ↔
        left.length < limit ∨ right ⊆ left.take limit) ∧
      ((mergeLimited left right limit).length ≤ limit ↔ left.length < limit ∨ right ⊆ left.take limit) ∧
      mergeLimited left right limit =
        (left ++ right).eraseDups.take limit ++ (surplus limit left right).toList) ∧
    (∀ a b c : List String, a.Nodup → b.Nodup →
      (mergeLimited (mergeLimited a b limit) c limit).take limit =
        (mergeLimited a (mergeLimited b c limit) limit).take limit ∧
      (mergeLimited (mergeLimited a b limit) c limit = mergeLimited a (mergeLimited b c limit) limit ↔
        surplus limit (a ++ b).eraseDups c = surplus limit a (mergeLimited b c limit))) ∧
    ∀ parts : List (List String),
      (parts.foldl (mergeLimited · · limit) []).take limit = parts.flatten.eraseDups.take limit ∧
      (parts.foldl (mergeLimited · · limit) []).length ≤ limit + 1 := by
  refine ⟨fun left right hleft => ?_, fun a b c ha hb => ?_, fun parts => ?_⟩
  · rw [← unite_eq_eraseDups hleft, ← surplus_eq_none_iff]
    refine ⟨?_, length_mergeLimited_le_iff, mergeLimited_eq_append limit left right⟩
    rw [mergeLimited_eq_append, List.append_right_eq_self, Option.toList_eq_nil_iff]
  · have hfront := take_mergeLimited_assoc hb limit a c
    rw [← unite_eq_eraseDups ha, ← surplus_mergeLimited]
    exact ⟨hfront, mergeLimited_eq_iff hfront⟩
  · rw [take_foldl_mergeLimited, unite_eq_eraseDups List.nodup_nil, List.nil_append]
    refine ⟨rfl, ?_⟩
    cases parts using List.reverseRecOn with
    | nil => exact Nat.zero_le _
    | append_singleton parts p =>
      rw [List.foldl_concat, length_mergeLimited]
      exact Nat.add_le_add (Nat.min_le_left _ _) Option.length_toList_le

theorem mergeLimited_union_iff_pair :
    mergeLimited ["a", "b"] ["b", "a"] 2 = (["a", "b"] ++ ["b", "a"]).eraseDups.take 2 ∧
    mergeLimited (mergeLimited ["a"] ["a"] 2) ["b", "c"] 2 = mergeLimited ["a"] (mergeLimited ["a"] ["b", "c"] 2) 2 :=
  ⟨((mergeLimited_union_iff 2).1 ["a", "b"] ["b", "a"] (by decide)).1.mpr (Or.inr (by decide)),
    ((mergeLimited_union_iff 2).2.1 ["a"] ["a"] ["b", "c"] (by decide) (by decide)).2.mpr (by decide)⟩

/-- A full list takes over one item more, and which one depends on the order of the merges. -/
theorem full_list_grows :
    mergeLimited ["a"] ["b"] 1 ≠ (["a"] ++ ["b"]).eraseDups.take 1 ∧
    1 < (mergeLimited ["a"] ["b"] 1).length ∧
    mergeLimited (mergeLimited ["a"] ["b"] 1) ["c"] 1 ≠ mergeLimited ["a"] (mergeLimited ["b"] ["c"] 1) 1 := by
  decide

end

end SourceAudit.Taint
