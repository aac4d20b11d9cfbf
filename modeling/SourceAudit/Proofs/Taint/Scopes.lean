/-
# Where expressions count as checked

A run goes into the first block of an `if` with the expressions that the condition
checks. It may end there in any way, and what counts as checked is then what did before.
To leave that as it was is a discipline (`balanced`), so it holds of every act of every
node. Outside of the first block the expressions do not count as checked: wherever they
would, other acts may take the place of those of a node (`fenced`), and nothing changes.
-/
import SourceAudit.Proofs.Taint.Discipline

namespace SourceAudit.Taint

open Tree

variable {α β : Type} {Q : α → Prop}

/-! ### Scopes are left -/

/-- However the run ends, what counts as checked after it is what did before. A result satisfies the
predicate. -/
def Balanced (Q : α → Prop) (r : Run α) : Prop := ∀ s, Holds (·.checked = s) Q r

theorem Balanced.checked {r : Run α} (h : Balanced Q r) (m : Memory) : (r m).2.checked = m.checked :=
  (h m.checked m rfl).1

theorem Quiet.balanced {r : Run α} (h : Quiet r) : Balanced Anything r := by
  rintro _ m rfl
  obtain ⟨a, n, hrun, hadds, -⟩ := h m
  rw [hrun]
  exact ⟨hadds.checked, fun _ _ => trivial⟩

theorem balanced_tick : Balanced Anything tick := by
  rintro _ m rfl
  refine ⟨?_, fun _ _ => trivial⟩
  rw [tick_apply]

theorem Balanced.within {r : Run α} (h : Balanced Q r) (expressions : List String) :
    Balanced Q (within expressions r) := by
  rintro _ m rfl
  obtain ⟨hchecked, hresult⟩ := h (expressions :: m.checked) { m with checked := expressions :: m.checked } rfl
  exact ⟨congrArg (List.drop 1) hchecked, hresult⟩

/-- To leave what counts as checked as it was. -/
def balanced : Discipline where
  Obeys := fun _ => Balanced
  mayBranch := True
  pure := fun h _ => Holds.pure h
  bind := fun hr hk s => (hr s).bind fun a ha => hk a ha s
  weaken := fun h hw s => (h s).weaken hw
  mono := id
  tick := fun h s => (balanced_tick s).bind fun a _ => h a s
  stop := fun _ _ => Holds.throw _
  look := fun h _ => Holds.get fun m _ => h m fun _ => trivial
  reports := fun h _ => h.quiet.balanced
  make := fun _ => (quiet_fresh _).balanced
  find := fun _ _ => Holds.get fun _ _ _ _ => trivial
  append := fun _ name => (quiet_learn _ fun t => .append t [name]).balanced
  mark := fun _ => (quiet_markCallable _).balanced
  note := fun _ name right => (quiet_noteStatement name right _).balanced
  store := fun _ _ _ _ => Holds.modify fun _ h => h
  check := Balanced.within
  rename := fun _ _ _ => Holds.modify fun _ h => h

theorem meaningOf_balanced (t : Tree Part) : ∀ d ∈ (meaningOf t).preorder, ActsObey balanced d :=
  meaningOf_obeys t fun _ _ => { node := trivial }

/-! ### What is outside of the first block -/

/-- The run, unless anything else counts as checked than `scope`. -/
def fence (scope : List (List String)) (instead r : Run α) : Run α := fun m =>
  if m.checked = scope then r m else instead m

/-- A node that is evaluated and processed only where what counts as checked is `scope`. -/
def fenced (scope : List (List String)) (instead : Acts) (c : Code) : Code :=
  .node ⟨c.part, { instead with
    eval := fence scope instead.eval c.eval
    process := fence scope instead.process c.process }⟩ c.children

/-- All branches are fenced but the first block. -/
def fenceOthers (scope : List (List String)) (instead : Acts) : (bodySeen : Bool) → List Code → List Code
  | _, [] => []
  | bodySeen, c :: cs =>
    if c.kind == "compound_statement" && !bodySeen then c :: fenceOthers scope instead true cs
    else fenced scope instead c :: fenceOthers scope instead bodySeen cs

/-- The rule for an `if` whose condition and branches are fenced. -/
def fencedIfRule (scope : List (List String)) (instead : Acts) (here : Code) : Run ValueId := do
  let condition := here.children.find? isCondition
  let known ← conditionTrace (condition.map (fenced scope instead))
  let known ← ifBranches ((condition.map validatedInputs).getD []) false known
    (fenceOthers scope instead false (branches here))
  fresh known

theorem bind_congr {r s : Run α} {k l : α → Run β} {m : Memory} (hrs : s m = r m) (hr : Balanced Q r)
    (hkl : ∀ a n, n.checked = m.checked → l a n = k a n) : (s >>= l) m = (r >>= k) m := by
  have hchecked := hr.checked m
  rw [bind_apply, bind_apply, hrs]
  generalize r m = o at hchecked
  rcases o with ⟨e | a, n⟩
  · rfl
  · exact hkl a n hchecked

theorem ifBranches_fenced {instead : Acts} {xs : List String} {scope : List (List String)} : ∀ {cs : List Code},
    (∀ c ∈ cs, ActsObey balanced c) → ∀ {bodySeen : Bool} {known : Trace} {m : Memory}, m.checked = scope →
      ifBranches xs bodySeen known (fenceOthers scope instead bodySeen cs) m = ifBranches xs bodySeen known cs m
  | [], _, _, _, _, _ => rfl
  | c :: cs, h, bodySeen, known, m, hm => by
    obtain ⟨hc, hcs⟩ := List.forall_mem_cons.mp h
    unfold fenceOthers
    by_cases hfirst : (c.kind == "compound_statement" && !bodySeen) = true
    · rw [if_pos hfirst, ifBranches, ifBranches, if_pos hfirst, if_pos hfirst]
      exact bind_congr rfl (Balanced.within (hc.block trivial) xs) fun _ n hn => ifBranches_fenced hcs (hn.trans hm)
    · have hfenced : ¬((fenced scope instead c).kind == "compound_statement" && !bodySeen) = true := hfirst
      rw [if_neg hfirst, ifBranches, ifBranches, if_neg hfirst, if_neg hfenced]
      exact bind_congr (if_pos hm) (hc.process (Or.inl trivial)) fun v n hn => ifBranches_fenced hcs (hn.trans hm)

theorem ifRule_fenced (instead : Acts) {here : Code} (hb : BelowObey balanced here) (m : Memory) :
    fencedIfRule m.checked instead here m = ifRule here m := by
  have hcondition : conditionTrace ((here.children.find? isCondition).map (fenced m.checked instead)) m =
      conditionTrace (here.children.find? isCondition) m := by
    cases hc : here.children.find? isCondition with
    | none => rfl
    | some c => exact bind_congr (if_pos rfl) (hb.child (List.mem_of_find?_eq_some hc)).eval fun _ _ _ => rfl
  have hbranch : ∀ c ∈ branches here, ActsObey balanced c := fun c hc =>
    hb.child (List.mem_of_mem_eraseP (List.mem_filter.mp hc).1)
  refine bind_congr hcondition (balanced.conditionTrace_obeys hb) fun known n hn => ?_
  exact bind_congr (ifBranches_fenced hbranch hn) (balanced.ifBranches_obeys trivial _ _ _ trivial hbranch) fun _ _ _ => rfl

/-- **Scopes of checked expressions.** However it ends, a node leaves what counts as checked as it was, and
nothing does after an analysis. What the condition of an `if` checks counts as checked in its first block only:
while the condition or another branch is run, just that counts as checked which did before the `if`. Whatever
these would do otherwise, the `if` does the same. -/
theorem checked_scopes (t : Tree Part) (m : Memory) :
    (((meaningOf t).eval m).2.checked = m.checked ∧ ((meaningOf t).process m).2.checked = m.checked ∧
      ((meaningOf t).block m).2.checked = m.checked) ∧
    (analyze t).memory.checked = [] ∧
    ∀ instead : Acts, fencedIfRule m.checked instead (surface t) m = ifRule (surface t) m := by
  have hobey := meaningOf_balanced t _ (mem_preorder_self _)
  have hbelow : BelowObey balanced (surface t) := by
    intro c hc d hd
    obtain ⟨x, -, rfl⟩ := List.mem_map.mp hc
    exact meaningOf_balanced x d hd
  refine ⟨⟨hobey.eval.checked m, (hobey.process (Or.inl trivial)).checked m, (hobey.block trivial).checked m⟩, ?_,
    fun instead => ifRule_fenced instead hbelow m⟩
  rw [analyze, Run.outcome_memory]
  exact (hobey.block trivial).checked Memory.empty

end SourceAudit.Taint
