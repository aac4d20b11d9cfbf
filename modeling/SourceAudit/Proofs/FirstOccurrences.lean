/-
# First occurrences

The items of a list before which no item with the same key stands, in their order
(`FirstOccurrences`). `firstOfEach` gives these items, although it compares an item only
with those that it has kept.
-/
import Mathlib.Data.List.Induction
import Mathlib.Data.Nat.Find
import SourceAudit.Taint.Row

namespace SourceAudit

variable {α β κ μ : Type} {key : α → κ} {xs ys : List α} {x : α} {i : Nat}

/-- There is an item at the place, and none with the same key before it. -/
def IsFirst (key : α → κ) (xs : List α) (i : Nat) : Prop :=
  ∃ x, xs[i]? = some x ∧ ∀ j < i, ∀ y, xs[j]? = some y → key y ≠ key x

/-- `ys` are the items of `xs` at the places of first occurrences, in their order. -/
def FirstOccurrences (key : α → κ) (xs ys : List α) : Prop :=
  ∃ places : List Nat, places.Pairwise (· < ·) ∧ (∀ i, i ∈ places ↔ IsFirst key xs i) ∧
    ys.map some = places.map (xs[·]?)

theorem IsFirst.lt (h : IsFirst key xs i) : i < xs.length := by
  obtain ⟨x, hx, -⟩ := h
  exact (List.getElem?_eq_some_iff.mp hx).1

theorem isFirst_concat : IsFirst key (xs ++ [x]) i ↔
    IsFirst key xs i ∨ i = xs.length ∧ ∀ y ∈ xs, key y ≠ key x := by
  rcases Nat.lt_trichotomy i xs.length with hi | rfl | hi
  · have hsame : ∀ j ≤ i, (xs ++ [x])[j]? = xs[j]? := fun j hj => List.getElem?_append_left (by omega)
    have hearlier : IsFirst key (xs ++ [x]) i ↔ IsFirst key xs i := by
      unfold IsFirst
      rw [hsame i (Nat.le_refl i)]
      refine exists_congr fun y => and_congr_right fun _ => forall_congr' fun j => ?_
      exact forall_congr' fun hj => by rw [hsame j (Nat.le_of_lt hj)]
    rw [hearlier, or_iff_left]
    exact fun h => absurd h.1 (Nat.ne_of_lt hi)
  · have hlast : ¬IsFirst key xs xs.length := fun h => Nat.lt_irrefl _ h.lt
    have hall : IsFirst key (xs ++ [x]) xs.length ↔ ∀ y ∈ xs, key y ≠ key x := by
      unfold IsFirst
      simp only [List.getElem?_append_right (Nat.le_refl _), Nat.sub_self, List.getElem?_cons_zero, Option.some.injEq,
        exists_eq_left']
      constructor
      · intro h y hy
        obtain ⟨j, hj, rfl⟩ := List.getElem_of_mem hy
        exact h j hj _ (by rw [List.getElem?_append_left hj, List.getElem?_eq_getElem hj])
      · intro h j hj y hy
        rw [List.getElem?_append_left hj] at hy
        exact h y (List.mem_of_getElem? hy)
    rw [hall, or_iff_right hlast, and_iff_right rfl]
  · constructor
    · intro h
      have hlt := h.lt
      rw [List.length_append, List.length_singleton] at hlt
      omega
    · rintro (h | h)
      · exact absurd h.lt (by omega)
      · omega

namespace FirstOccurrences

theorem nil : FirstOccurrences key [] [] :=
  ⟨[], List.Pairwise.nil, fun i => ⟨fun h => absurd h List.not_mem_nil, fun h => absurd h.lt (Nat.not_lt_zero i)⟩, rfl⟩

theorem map_places {places : List Nat} (h : ∀ i ∈ places, i < xs.length) (x : α) :
    places.map ((xs ++ [x])[·]?) = places.map (xs[·]?) :=
  List.map_congr_left fun i hi => List.getElem?_append_left (h i hi)

theorem concat_new (h : FirstOccurrences key xs ys) (hx : ∀ y ∈ xs, key y ≠ key x) :
    FirstOccurrences key (xs ++ [x]) (ys ++ [x]) := by
  obtain ⟨places, hsorted, hplaces, hitems⟩ := h
  have hlt : ∀ i ∈ places, i < xs.length := fun i hi => ((hplaces i).mp hi).lt
  refine ⟨places ++ [xs.length], ?_, fun i => ?_, ?_⟩
  · rw [List.pairwise_append]
    refine ⟨hsorted, List.pairwise_singleton _ _, fun i hi j hj => ?_⟩
    rw [List.mem_singleton.mp hj]
    exact hlt i hi
  · rw [isFirst_concat, List.mem_append, List.mem_singleton, hplaces, and_iff_left hx]
  · rw [List.map_append, List.map_append, hitems, map_places hlt]
    simp

theorem concat_old (h : FirstOccurrences key xs ys) (hx : ∃ y ∈ xs, key y = key x) :
    FirstOccurrences key (xs ++ [x]) ys := by
  obtain ⟨places, hsorted, hplaces, hitems⟩ := h
  obtain ⟨y, hy, hkey⟩ := hx
  refine ⟨places, hsorted, fun i => ?_, ?_⟩
  · rw [isFirst_concat, hplaces, or_iff_left]
    exact fun h => h.2 y hy hkey
  · rw [hitems, map_places fun i hi => ((hplaces i).mp hi).lt]

/-- Items that are changed without changing which keys are equal have their first occurrences at the
same places. -/
theorem map {key' : β → μ} {g : α → β} (hg : ∀ x y, key' (g x) = key' (g y) ↔ key x = key y)
    (h : FirstOccurrences key xs ys) : FirstOccurrences key' (xs.map g) (ys.map g) := by
  obtain ⟨places, hsorted, hplaces, hitems⟩ := h
  refine ⟨places, hsorted, fun i => (hplaces i).trans ?_, ?_⟩
  · simp [IsFirst, hg]
  · have h := congrArg (List.map (Option.map g)) hitems
    simpa [Function.comp_def] using h

theorem nodup (h : FirstOccurrences key xs ys) : (ys.map key).Nodup := by
  obtain ⟨places, hsorted, hplaces, hitems⟩ := h
  have hkeys : places.Pairwise fun i j => ∀ x, xs[i]? = some x → ∀ y, xs[j]? = some y → key x ≠ key y := by
    refine hsorted.imp_of_mem fun {i j} _ hj hlt x hx y hy => ?_
    obtain ⟨z, hz, hearlier⟩ := (hplaces j).mp hj
    rw [hz] at hy
    exact Option.some.inj hy ▸ hearlier i hlt x hx
  have hpairs : (ys.map some).Pairwise fun a b => ∀ x, a = some x → ∀ y, b = some y → key x ≠ key y := by
    rw [hitems]
    exact List.pairwise_map.mpr hkeys
  exact List.pairwise_map.mpr ((List.pairwise_map.mp hpairs).imp fun h => h _ rfl _ rfl)

theorem subset (h : FirstOccurrences key xs ys) : ys ⊆ xs := by
  obtain ⟨places, -, -, hitems⟩ := h
  intro y hy
  have hmem : some y ∈ ys.map some := List.mem_map_of_mem hy
  rw [hitems] at hmem
  obtain ⟨i, -, hi⟩ := List.mem_map.mp hmem
  exact List.mem_of_getElem? hi

open Classical in
theorem exists_key (h : FirstOccurrences key xs ys) (hx : x ∈ xs) : ∃ y ∈ ys, key y = key x := by
  obtain ⟨places, -, hplaces, hitems⟩ := h
  obtain ⟨i, hi⟩ := List.mem_iff_getElem?.mp hx
  -- the least place of an item with the key
  have hsome : ∃ j y, xs[j]? = some y ∧ key y = key x := ⟨i, x, hi, rfl⟩
  obtain ⟨y, hy, hkey⟩ := Nat.find_spec hsome
  have hfirst : IsFirst key xs (Nat.find hsome) :=
    ⟨y, hy, fun j hj z hz hne => Nat.find_min hsome hj ⟨z, hz, hne.trans hkey⟩⟩
  have hmem : some y ∈ ys.map some := by
    rw [hitems]
    exact List.mem_map.mpr ⟨_, (hplaces _).mpr hfirst, hy⟩
  obtain ⟨z, hz, hzy⟩ := List.mem_map.mp hmem
  exact ⟨y, Option.some.inj hzy ▸ hz, hkey⟩

end FirstOccurrences

/-! ### Keeping the first item of each -/

theorem firstOfEachFrom_append {same : α → α → Bool} (done xs zs : List α) :
    firstOfEachFrom same done (xs ++ zs) = firstOfEachFrom same (firstOfEachFrom same done xs).reverse zs := by
  induction xs generalizing done with
  | nil => simp [firstOfEachFrom]
  | cons x xs ih =>
    rw [List.cons_append, firstOfEachFrom, firstOfEachFrom]
    split
    · exact ih done
    · exact ih (x :: done)

theorem firstOfEach_concat {same : α → α → Bool} (xs : List α) (x : α) :
    firstOfEach same (xs ++ [x]) =
      if (firstOfEach same xs).any (same · x) then firstOfEach same xs else firstOfEach same xs ++ [x] := by
  rw [firstOfEach, firstOfEachFrom_append, firstOfEachFrom, List.any_reverse, ← firstOfEach]
  split
  · simp only [firstOfEachFrom, List.reverse_reverse]
  · simp only [firstOfEachFrom, List.reverse_cons, List.reverse_reverse]

theorem firstOccurrences_firstOfEach {same : α → α → Bool} (hsame : ∀ x y, same x y = true ↔ key x = key y)
    (xs : List α) : FirstOccurrences key xs (firstOfEach same xs) := by
  induction xs using List.reverseRecOn with
  | nil => exact .nil
  | append_singleton xs x ih =>
    rw [firstOfEach_concat]
    split
    · rename_i hkept
      obtain ⟨y, hy, hyx⟩ := List.any_eq_true.mp hkept
      exact ih.concat_old ⟨y, ih.subset hy, (hsame y x).mp hyx⟩
    · rename_i hnone
      refine ih.concat_new fun y hy hyx => hnone ?_
      obtain ⟨z, hz, hzy⟩ := ih.exists_key hy
      exact List.any_eq_true.mpr ⟨z, hz, (hsame z x).mpr (hzy.trans hyx)⟩

end SourceAudit
