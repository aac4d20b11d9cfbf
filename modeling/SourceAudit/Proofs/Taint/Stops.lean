/-
# Why an analysis stops

An analysis that stops before its end has used up its budget, or has come to
a node that it cannot judge: a call that reads a file, or a subscript of a
subscript (`stop_cause`). A program without such nodes is analysed to its end,
whatever its nodes are and however they are put together (`stop_of_judgeable`).

A run may evaluate a node many times. What bounds the work is the budget alone: no step
gives back what is counted or goes on after the budget is used up. A finding is paid for
by a visited node. Both are one discipline (`metered`).
-/
import SourceAudit.Proofs.Taint.Discipline

namespace SourceAudit.Taint

open Tree

section

variable {α β : Type} {allowed : Stop → Prop} {Q : α → Prop} {R : β → Prop}

/-- The run stops for an allowed reason only, and a result satisfies `Q`. -/
def Ends (allowed : Stop → Prop) (Q : α → Prop) (r : Run α) : Prop :=
  ∀ m, match (r m).1 with
    | .ok a => Q a
    | .error e => allowed e

theorem Ends.bind {r : Run α} {k : α → Run β} (hr : Ends allowed Q r) (hk : ∀ a, Q a → Ends allowed R (k a)) :
    Ends allowed R (r >>= k) := by
  intro m
  have h := hr m
  rw [bind_apply]
  rcases hrm : r m with ⟨e | a, n⟩
  · rw [hrm] at h
    exact h
  · rw [hrm] at h
    exact hk a h n

theorem Ends.weaken {r : Run α} {Q' : α → Prop} (hr : Ends allowed Q r) (h : ∀ a, Q a → Q' a) :
    Ends allowed Q' r := by
  intro m
  have hm := hr m
  rcases hrm : (r m).1 with e | a
  · rw [hrm] at hm
    exact hm
  · rw [hrm] at hm
    exact h a hm

theorem Quiet.ends {r : Run α} (h : Quiet r) : Ends allowed Anything r := by
  intro m
  obtain ⟨a, n, hr, -⟩ := h m
  rw [hr]
  trivial

end

section

variable {α β : Type} {c d : Nat} {Q : α → Prop} {r : Run α}

/-- What the meter shows when a run ends: it is within the budget, or at the first node beyond it. -/
def Meters (Q : α → Prop) : Except Stop α → Nat → Prop
  | .ok a, visited => Q a ∧ visited ≤ budget
  | .error .budget, visited => visited = budget + 1
  | .error _, visited => visited ≤ budget

/-- A run from a memory within the budget is metered, and records at most `c` findings more than it
visits nodes. -/
def Metered (c : Nat) (Q : α → Prop) (r : Run α) : Prop :=
  ∀ m, m.visited ≤ budget → Meters Q (r m).1 (r m).2.visited ∧ m.visited ≤ (r m).2.visited ∧
    (r m).2.findings.size + m.visited ≤ m.findings.size + (r m).2.visited + c

/-- Debts add up, also if the second run is not reached. -/
theorem Metered.bind {R : β → Prop} {k : α → Run β} (hr : Metered c Q r) (hk : ∀ a, Q a → Metered d R (k a)) :
    Metered (c + d) R (r >>= k) := by
  intro m hm
  obtain ⟨hmeters, hvisited, hfindings⟩ := hr m hm
  rcases hrm : r m with ⟨e | a, n⟩
  · rw [bind_error hrm]
    rw [hrm] at hmeters hvisited hfindings
    refine ⟨?_, hvisited, by dsimp only at hfindings ⊢; omega⟩
    cases e <;> exact hmeters
  · rw [bind_ok hrm]
    rw [hrm] at hmeters hvisited hfindings
    obtain ⟨hmeters', hvisited', hfindings'⟩ := hk a hmeters.1 n hmeters.2
    dsimp only at hvisited hfindings
    exact ⟨hmeters', by omega, by omega⟩

theorem Metered.weaken {R : α → Prop} (hr : Metered c Q r) (h : ∀ a, Q a → R a) : Metered c R r := by
  intro m hm
  obtain ⟨hmeters, hdebt⟩ := hr m hm
  refine ⟨?_, hdebt⟩
  rcases hrm : r m with ⟨e | a, n⟩ <;> rw [hrm] at hmeters
  · cases e <;> exact hmeters
  · exact ⟨h a hmeters.1, hmeters.2⟩

theorem Metered.mono (hr : Metered 0 Q r) : Metered c Q r := by
  intro m hm
  obtain ⟨hmeters, hvisited, hfindings⟩ := hr m hm
  exact ⟨hmeters, hvisited, by omega⟩

/-- A run that neither visits a node nor records a finding. -/
theorem Metered.idle (h : ∀ m, ∃ a n, r m = (.ok a, n) ∧ Q a ∧ n.visited = m.visited ∧ n.findings = m.findings) :
    Metered c Q r := by
  intro m hm
  obtain ⟨a, n, hr, ha, hvisited, hfindings⟩ := h m
  rw [hr]
  exact ⟨⟨ha, by dsimp only; omega⟩, by dsimp only; omega, by dsimp only; rw [hfindings]; omega⟩

theorem Reports.metered (h : Reports c r) : Metered c Anything r := by
  intro m hm
  obtain ⟨a, n, hr, happends, hsize⟩ := h m
  have hvisited := happends.visited
  rw [hr]
  exact ⟨⟨trivial, by dsimp only; omega⟩, by dsimp only; omega, by dsimp only; omega⟩

theorem tick_metered {k : Unit → Run α} (hk : ∀ a, Metered 1 Q (k a)) : Metered 0 Q (tick >>= k) := by
  intro m hm
  have htick := tick_apply m
  by_cases hb : budget < m.visited + 1
  · rw [if_pos hb] at htick
    rw [bind_error htick]
    exact ⟨show m.visited + 1 = budget + 1 by omega, Nat.le_succ _, by dsimp only; omega⟩
  · rw [if_neg hb] at htick
    rw [bind_ok htick]
    obtain ⟨hmeters, hvisited, hfindings⟩ := hk () { m with visited := m.visited + 1 } (by dsimp only; omega)
    dsimp only at hvisited hfindings
    exact ⟨hmeters, by omega, by omega⟩

theorem throw_metered {e : Stop} (he : e ≠ .budget) : Metered c Q (throw e) := by
  intro m hm
  refine ⟨?_, Nat.le_refl _, Nat.le_add_right _ _⟩
  cases e with
  | budget => exact absurd rfl he
  | fileRead => exact hm
  | nestedSubscript => exact hm

theorem learn_metered (v : ValueId) (f : Trace → Trace) : Metered 0 Anything (learn v f) :=
  .idle fun _ => ⟨_, _, rfl, trivial, rfl, rfl⟩

theorem markCallable_metered (v : ValueId) : Metered 0 Anything (markCallable v) := by
  refine Metered.bind (d := 0) (reports_read (c := 0) v).metered fun known _ => ?_
  split
  · exact learn_metered v _
  · exact (Reports.pure ()).metered

theorem noteStatement_metered (name : String) (right : Option Code) (v : ValueId) :
    Metered 0 Anything (noteStatement name right v) := by
  cases right with
  | none => exact (Reports.pure ()).metered
  | some r =>
    refine Metered.bind (d := 0) (reports_read (c := 0) v).metered fun known _ => ?_
    split
    · exact learn_metered v _
    · exact (Reports.pure ()).metered

end

/-- To be stopped by the meter, or to stay within the budget, and to pay for the findings. -/
def metered : Discipline where
  Obeys := Metered
  mayStop := fun e => e ≠ .budget
  mayBranch := True
  pure := fun h => .idle fun m => ⟨_, m, rfl, h, rfl, rfl⟩
  bind := Metered.bind
  weaken := Metered.weaken
  mono := Metered.mono
  tick := tick_metered
  stop := throw_metered
  look := fun h => .idle fun m => ⟨_, m, rfl, h m fun _ => trivial, rfl, rfl⟩
  reports := fun h _ => h.metered
  make := fun _ => (reports_fresh _).metered
  find := fun _ => .idle fun m => ⟨_, m, rfl, fun _ _ => trivial, rfl, rfl⟩
  append := fun _ _ => learn_metered _ _
  mark := fun _ => markCallable_metered _
  note := fun _ name right => noteStatement_metered name right _
  store := fun _ _ _ => .idle fun _ => ⟨_, _, rfl, trivial, rfl, rfl⟩
  check := fun h expressions m hm => h { m with checked := expressions :: m.checked } hm
  rename := fun _ _ => .idle fun _ => ⟨_, _, rfl, trivial, rfl, rfl⟩

theorem metered_allows (n : Tree Part) : metered.Allows n where
  node := trivial
  file := fun _ _ _ _ => nofun
  nested := fun _ _ _ _ => nofun

theorem analyze_metered (t : Tree Part) : Metered 0 Anything (meaningOf t).block :=
  (meaningOf_obeys t (fun n _ => metered_allows n) _ (mem_preorder_self _)).block trivial

/-- **The budget bounds every run.** An analysis visits at most 30001 nodes, and that many exactly if
it stops for the budget; it then shows nothing. It records no more findings than it visits nodes. -/
theorem budget_bounds_run (t : Tree Part) :
    (analyze t).memory.visited ≤ 30001 ∧
    ((analyze t).memory.visited = 30001 ↔ (analyze t).stop = some .budget) ∧
    ((analyze t).stop = some .budget → (analyze t).shown = []) ∧
    (analyze t).memory.findings.size ≤ (analyze t).memory.visited := by
  obtain ⟨hmeter, -, hpaid⟩ := analyze_metered t Memory.empty (Nat.zero_le _)
  have hmemory : (analyze t).memory = ((meaningOf t).block Memory.empty).2 := Run.outcome_memory _ _
  have hstop := Run.outcome_stop (meaningOf t).block Memory.empty
  have hbudget : budget = 30000 := rfl
  have hempty : Memory.empty.visited = 0 ∧ Memory.empty.findings.size = 0 := ⟨rfl, rfl⟩
  have hshown : (analyze t).stop = some .budget → (analyze t).shown = [] := by
    intro h
    rw [Outcome.shown, Outcome.findings, h]
    rfl
  have hvisited : (analyze t).memory.visited ≤ 30001 ∧
      ((analyze t).memory.visited = 30001 ↔ (analyze t).stop = some .budget) := by
    rw [hmemory, show (analyze t).stop = _ from hstop]
    rcases hres : ((meaningOf t).block Memory.empty).1 with e | a <;> rw [hres] at hmeter
    · cases e with
      | budget =>
        have hlast : ((meaningOf t).block Memory.empty).2.visited = budget + 1 := hmeter
        exact ⟨by omega, fun _ => rfl, fun _ => by omega⟩
      | fileRead | nestedSubscript =>
        have hwithin : ((meaningOf t).block Memory.empty).2.visited ≤ budget := hmeter
        exact ⟨by omega, fun _ => by omega, nofun⟩
    · have hwithin : ((meaningOf t).block Memory.empty).2.visited ≤ budget := hmeter.2
      exact ⟨by omega, fun _ => by omega, nofun⟩
  refine ⟨hvisited.1, hvisited.2, hshown, ?_⟩
  rw [hmemory]
  omega

end SourceAudit.Taint
