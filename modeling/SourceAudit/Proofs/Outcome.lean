/-
# What comes of something that can fail

A fact about the outcome of something that can fail is shown step by step: each
step gives what the next one needs, and a fault gives nothing to be shown.
-/
import Mathlib.Data.List.Forall2
import Mathlib.Tactic.Common
import SourceAudit.Fault

namespace SourceAudit

variable {α β : Type}

def Yields (P : α → Prop) (r : Except Fault α) : Prop :=
  ∀ a, r = .ok a → P a

instance (P : α → Prop) [DecidablePred P] : ∀ r : Except Fault α, Decidable (Yields P r)
  | .ok a => decidable_of_iff (P a) ⟨fun h _ hb => Except.ok.inj hb ▸ h, fun h => h a rfl⟩
  | .error _ => .isTrue fun _ h => absurd h (by simp)

namespace Yields

variable {P : α → Prop} {Q : β → Prop} {r : Except Fault α}

theorem pure {a : α} (h : P a) : Yields P (pure a) := fun _ hb => Except.ok.inj hb ▸ h

theorem any (r : Except Fault α) : Yields (fun _ => True) r := fun _ _ => trivial

theorem self (r : Except Fault α) : Yields (fun a => r = .ok a) r := fun _ h => h

theorem error (e : Fault) : Yields P (.error e) := fun _ h => absurd h (by simp)

theorem bind {f : α → Except Fault β} (hr : Yields P r) (hf : ∀ a, P a → Yields Q (f a)) : Yields Q (r >>= f) := by
  cases r with
  | error e => exact error e
  | ok a => exact hf a (hr a rfl)

theorem map {f : α → β} (h : Yields (fun a => Q (f a)) r) : Yields Q (r.map f) := by
  cases r with
  | error e => exact error e
  | ok a => exact pure (h a rfl)

theorem mapM {f : α → Except Fault β} : ∀ {xs : List α}, (∀ x ∈ xs, Yields Q (f x)) →
    Yields (fun ys => ∀ y ∈ ys, Q y) (xs.mapM f)
  | [], _ => pure (by simp)
  | x :: xs, h => by
    rw [List.forall_mem_cons] at h
    rw [List.mapM_cons]
    refine bind h.1 fun y hy => bind (mapM h.2) fun ys hys => pure ?_
    exact List.forall_mem_cons.mpr ⟨hy, hys⟩

theorem filterAuxM {f : α → Except Fault Bool} : ∀ {xs done : List α}, (∀ x ∈ xs, P x) → (∀ x ∈ done, P x) →
    Yields (fun kept => ∀ x ∈ kept, P x) (xs.filterAuxM f done)
  | [], _, _, hdone => pure hdone
  | x :: xs, done, hxs, hdone => by
    rw [List.forall_mem_cons] at hxs
    rw [List.filterAuxM]
    refine bind (any (f x)) fun b _ => filterAuxM hxs.2 ?_
    cases b with
    | true => exact List.forall_mem_cons.mpr ⟨hxs.1, hdone⟩
    | false => exact hdone

/-- What all elements have in common, those that are kept have. -/
theorem filterM {f : α → Except Fault Bool} {xs : List α} (h : ∀ x ∈ xs, P x) :
    Yields (fun kept => ∀ x ∈ kept, P x) (xs.filterM f) := by
  refine bind (filterAuxM h (by simp)) fun kept hkept => pure ?_
  exact fun x hx => hkept x (List.mem_reverse.mp hx)

end Yields

variable {f : α → Except Fault β}

theorem bind_eq_ok {x : Except Fault α} {b : β} : (x >>= f) = .ok b ↔ ∃ a, x = .ok a ∧ f a = .ok b := by
  cases x <;> simp [bind, Except.bind]

/-- A walk over a list returns if each of its steps does. -/
theorem mapM_eq_ok_iff : ∀ {xs : List α} {ys : List β},
    xs.mapM f = .ok ys ↔ List.Forall₂ (fun x y => f x = .ok y) xs ys
  | [], ys => by
    rw [List.forall₂_nil_left_iff]
    exact ⟨fun h => (Except.ok.inj h).symm, fun h => congrArg Except.ok h.symm⟩
  | x :: xs, ys => by
    rw [List.mapM_cons, bind_eq_ok, List.forall₂_cons_left_iff]
    constructor
    · rintro ⟨y, hy, h⟩
      obtain ⟨zs, hzs, h⟩ := bind_eq_ok.mp h
      exact ⟨y, zs, hy, mapM_eq_ok_iff.mp hzs, (Except.ok.inj h).symm⟩
    · rintro ⟨y, zs, hy, hzs, rfl⟩
      exact ⟨y, hy, bind_eq_ok.mpr ⟨zs, mapM_eq_ok_iff.mpr hzs, rfl⟩⟩

theorem mapM_eq_ok {g : α → β} {xs : List α} (h : ∀ x ∈ xs, f x = .ok (g x)) : xs.mapM f = .ok (xs.map g) := by
  rw [mapM_eq_ok_iff, List.forall₂_map_right_iff, List.forall₂_same]
  exact h

/-- Each item of one of two related lists has a related one in the other. -/
theorem exists_mem_of_forall₂ {R : α → β → Prop} {as : List α} {bs : List β} (h : List.Forall₂ R as bs) {a : α}
    (ha : a ∈ as) : ∃ b ∈ bs, R a b := by
  induction h with
  | nil => cases ha
  | cons hab _ ih =>
    rcases List.mem_cons.mp ha with rfl | ha
    · exact ⟨_, List.mem_cons_self, hab⟩
    · obtain ⟨b, hb, hab⟩ := ih ha
      exact ⟨b, List.mem_cons_of_mem _ hb, hab⟩

/-! ### Evaluation -/

/-- What is computed, if a test says that there is something with a property. -/
theorem exists_ok {P : α → Prop} [DecidablePred P] {r : Except Fault α}
    (h : (orNothing r).any (fun a => decide (P a)) = true) : ∃ a, r = .ok a ∧ P a := by
  cases r with
  | error e => exact absurd h (by simp [orNothing])
  | ok a => exact ⟨a, rfl, by simpa [orNothing] using h⟩

theorem ok_of_orNothing {r : Except Fault α} {a : α} (h : orNothing r = some a) : r = .ok a := by
  cases r with
  | error e => exact absurd h (by simp [orNothing])
  | ok b => exact congrArg Except.ok (Option.some.inj h)

end SourceAudit
