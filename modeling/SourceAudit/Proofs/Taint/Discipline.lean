/-
# Disciplines of the analysis

A discipline is a way to speak of runs that holds of a run if it holds of its steps
(`Discipline`). It may limit why a run stops and which names it binds, and it follows
values: a value that the run has made itself is its own, and only such values and those
that an assignment hands on are ever marked, noted or bound.

Runs are graded: a run of grade `c` records at most `c` findings that no visit of a node
pays for. A rule is of grade one at most, and the visit of its node pays it. For calls
this rests on the lists of names: no function is both dangerous by its name and a caller
of callbacks, and `unserialize` is neither.

What a discipline must allow is read off the nodes of a program (`Discipline.Allows`).
Then each act of each node obeys (`meaningOf_obeys`).
-/
import SourceAudit.Proofs.Taint.Invariant

namespace SourceAudit.Taint

open Tree

/-! ### What the steps may do -/

theorem loose_of_anything {v : ValueId} (hv : Anything v) : Anything v := hv

/-- What is said of runs, and holds of a run if it holds of its steps. -/
structure Discipline where
  /-- The run obeys and has the grade, and a result satisfies the predicate. -/
  Obeys : {α : Type} → Nat → (α → Prop) → Run α → Prop
  /-- The nodes that are run. -/
  node : Tree Part → Prop := Anything
  /-- What can be known about a value. -/
  good : Trace → Prop := Anything
  vouched : Vouched node good := by exact vouched_all
  /-- The values that a run has made. -/
  own : ValueId → Prop := Anything
  /-- The values that an assignment may mark, note and bind. -/
  loose : ValueId → Prop := Anything
  /-- The values that a name may have. -/
  under : String → ValueId → Prop := fun _ => Anything
  /-- Why a run may stop before the budget is used up. -/
  mayStop : Stop → Prop := Anything
  /-- The names that an assignment may bind. -/
  mayBind : String → Prop := Anything
  /-- A run may process statements, and then any name may be bound to any value. -/
  mayBranch : Prop
  -- putting runs together
  pure : ∀ {α : Type} {c : Nat} {Q : α → Prop} {a : α}, Q a → Obeys c Q (pure a)
  bind : ∀ {α β : Type} {c d : Nat} {Q : α → Prop} {R : β → Prop} {r : Run α} {k : α → Run β},
    Obeys c Q r → (∀ a, Q a → Obeys d R (k a)) → Obeys (c + d) R (r >>= k)
  weaken : ∀ {α : Type} {c : Nat} {Q R : α → Prop} {r : Run α}, Obeys c Q r → (∀ a, Q a → R a) → Obeys c R r
  mono : ∀ {α : Type} {c : Nat} {Q : α → Prop} {r : Run α}, Obeys 0 Q r → Obeys c Q r
  -- the steps of a run; a visit pays for one finding
  tick : ∀ {α : Type} {Q : α → Prop} {k : Unit → Run α}, (∀ a, Obeys 1 Q (k a)) → Obeys 0 Q (tick >>= k)
  stop : ∀ {α : Type} {c : Nat} {Q : α → Prop} {e : Stop}, mayStop e → Obeys c Q (throw e)
  look : ∀ {α : Type} {c : Nat} {Q : α → Prop} {f : Memory → α}, (∀ m, (∀ v, good (m.trace v)) → Q (f m)) →
    Obeys c Q (fun m => (.ok (f m), m))
  reports : ∀ {α : Type} {c : Nat} {r : Run α}, Reports c r →
    (∀ {I : Memory → Prop}, Invariant node good I → Holds I Anything r) → Obeys c Anything r
  make : ∀ {c : Nat} {t : Trace}, good t → Obeys c own (fresh t)
  find : ∀ name, Obeys 0 (fun o => ∀ v ∈ o, under name v) (lookup? name)
  -- what may be done with a value
  loose_of_own : ∀ {v}, own v → loose v := by exact @loose_of_anything
  append : ∀ {v}, own v → ∀ name,
    Obeys 0 Anything (learn v fun t => { t with transforms := t.transforms ++ [name] })
  mark : ∀ {v}, loose v → Obeys 0 Anything (markCallable v)
  note : ∀ {v}, loose v → ∀ name right, Obeys 0 Anything (noteStatement name right v)
  store : ∀ {v}, loose v → ∀ {name}, mayBind name → Obeys 0 Anything (bindName name v)
  check : ∀ {α : Type} {Q : α → Prop} {r : Run α}, Obeys 0 Q r → ∀ expressions, Obeys 0 Q (within expressions r)
  rename : mayBranch → ∀ f : List (String × ValueId) → List (String × ValueId),
    Obeys 0 Anything (modify fun m => { m with names := f m.names })

def copiedAt (n : Tree Part) : List String :=
  if n.kind = "assignment_expression" then ((n.field? "right").map fun r => ownNames r.part).getD [] else []

/-- The discipline allows what a node does. -/
structure Discipline.Allows (D : Discipline) (n : Tree Part) : Prop where
  node : D.node n
  file : n.kind = "function_call_expression" → ∀ f, functionName? (n.field? "function") = some f →
    Text.lower f ∈ fileReaders → D.mayStop .fileRead := by exact fun _ _ _ _ => trivial
  nested : n.kind = "subscript_expression" → ∀ base, subscriptBase? n = some base →
    base.kind = "subscript_expression" → D.mayStop .nestedSubscript := by exact fun _ _ _ _ => trivial
  binds : ∀ name ∈ assignedAt n, D.mayBind name := by exact fun _ _ => trivial
  copies : ∀ name ∈ copiedAt n, ∀ v, D.under name v → D.loose v := by exact fun _ _ _ _ => trivial

/-- All acts of a node obey. The value of a node may be loose, or be found under its name. -/
structure ActsObey (D : Discipline) (c : Code) : Prop where
  eval : D.Obeys 0 (fun v => D.loose v ∨ ∃ name ∈ ownNames c.part, D.under name v) c.eval
  process : D.mayBranch ∨ c.kind = "assignment_expression" → D.Obeys 0 Anything c.process
  block : D.mayBranch → D.Obeys 0 Anything c.block
  upload : D.Obeys 0 (fun o => ∀ v ∈ o, D.own v) c.upload
  risky : D.Obeys 0 Anything c.risky

def BelowObey (D : Discipline) (here : Code) : Prop :=
  ∀ c ∈ here.children, ∀ d ∈ c.preorder, ActsObey D d

variable {D : Discipline} {here : Code}

theorem BelowObey.child (h : BelowObey D here) {c : Code} (hc : c ∈ here.children) : ActsObey D c :=
  h c hc c (mem_preorder_self c)

theorem BelowObey.named (h : BelowObey D here) : ∀ c ∈ here.namedChildren, ActsObey D c :=
  fun _ hc => h.child (List.mem_filter.mp hc).1

theorem BelowObey.argument (h : BelowObey D here) : ∀ x ∈ arguments here, ActsObey D x := by
  intro x hx
  obtain ⟨c, hc, hx⟩ := mem_preorder_of_mem_arguments hx
  exact h c hc x hx

namespace Discipline

variable {α β : Type} {g : Nat} {Q : α → Prop} {R : β → Prop}

/-! ### Steps -/

theorem free {r : Run α} {k : α → Run β} (hr : D.Obeys 0 Q r) (hk : ∀ a, Q a → D.Obeys g R (k a)) :
    D.Obeys g R (r >>= k) := by
  have h := D.bind hr hk
  rwa [Nat.zero_add] at h

theorem paid {r : Run α} {k : α → Run β} (hr : D.Obeys g Q r) (hk : ∀ a, Q a → D.Obeys 0 R (k a)) :
    D.Obeys g R (r >>= k) :=
  D.bind hr hk

theorem any {r : Run α} (h : D.Obeys g Q r) : D.Obeys g Anything r := D.weaken h fun _ _ => trivial

theorem done (a : α) : D.Obeys g Anything (Pure.pure a) := D.pure trivial

theorem ite {p : Prop} [Decidable p] {r s : Run α} (hr : p → D.Obeys g Q r) (hs : ¬p → D.Obeys g Q s) :
    D.Obeys g Q (if p then r else s) := by
  split
  · exact hr ‹_›
  · exact hs ‹_›

theorem of_own {P : ValueId → Prop} {r : Run ValueId} (h : D.Obeys g D.own r) :
    D.Obeys g (fun v => D.loose v ∨ P v) r :=
  D.weaken h fun _ hv => Or.inl (D.loose_of_own hv)

theorem blank : D.Obeys g D.own (fresh {}) := D.make D.vouched.nothing

theorem read (v : ValueId) : D.Obeys g D.good (read v) := D.look fun _ h => h v

theorem traceOf (name : String) : D.Obeys g D.good (traceOf name) := by
  refine D.look fun m h => ?_
  unfold Memory.traceOf
  split
  · exact h _
  · exact D.vouched.nothing

theorem valueOf (name : String) : D.Obeys g (fun v => D.loose v ∨ D.under name v) (valueOf name) := by
  refine D.free (D.find name) fun o ho => ?_
  cases o with
  | some v => exact D.pure (Or.inr (ho v rfl))
  | none => exact D.of_own D.blank

theorem mergeRuns : ∀ {rs : List (Run ValueId)}, (∀ r ∈ rs, D.Obeys 0 Anything r) → ∀ {start}, D.good start →
    D.Obeys g D.good (mergeRuns start rs)
  | [], _, _, hs => D.pure hs
  | r :: _, h, _, hs => D.free (h r List.mem_cons_self) fun v _ => D.free (D.read v) fun _ ht =>
      mergeRuns (fun r' hr' => h r' (List.mem_cons_of_mem _ hr')) (D.vouched.merge hs ht)

theorem mergedValue {rs : List (Run ValueId)} (h : ∀ r ∈ rs, D.Obeys 0 Anything r) :
    D.Obeys g D.own (mergedValue rs) :=
  D.free (D.mergeRuns h D.vouched.nothing) fun _ ht => D.make ht

theorem runAll : ∀ {rs : List (Run Unit)}, (∀ r ∈ rs, D.Obeys 0 Anything r) → D.Obeys g Anything (runAll rs)
  | [], _ => D.done ()
  | r :: _, h => D.free (h r List.mem_cons_self) fun _ _ => runAll fun r' hr' => h r' (List.mem_cons_of_mem _ hr')

theorem anyRun : ∀ {rs : List (Run Bool)}, (∀ r ∈ rs, D.Obeys 0 Anything r) → D.Obeys g Anything (anyRun rs)
  | [], _ => D.done false
  | r :: _, h => D.free (h r List.mem_cons_self) fun _ _ => D.ite (fun _ => D.done true)
      fun _ => anyRun fun r' hr' => h r' (List.mem_cons_of_mem _ hr')

/-! ### Expressions -/

theorem evalAll {cs : List Code} (h : ∀ c ∈ cs, ActsObey D c) : D.Obeys g D.own (evalAll cs) := by
  refine D.mergedValue fun r hr => ?_
  obtain ⟨c, hc, rfl⟩ := List.mem_map.mp hr
  exact D.any (h c hc).eval

theorem evalOption {o : Option Code} (h : ∀ c ∈ o, ActsObey D c) : D.Obeys 0 Anything (evalOption o) := by
  cases o with
  | some c => exact D.any (h c rfl).eval
  | none => exact D.tick fun _ => D.any D.blank

theorem processAll {cs : List Code} (h : ∀ c ∈ cs, ActsObey D c) (hb : D.mayBranch) :
    D.Obeys g D.own (processAll cs) := by
  refine D.mergedValue fun r hr => ?_
  obtain ⟨c, hc, rfl⟩ := List.mem_map.mp hr
  exact (h c hc).process (Or.inl hb)

/-- Only a subscript of a subscript can stop the question whether it is an uploaded file. -/
theorem uploadEntry_obeys {base : Code} (h : ActsObey D base)
    (hs : base.kind = "subscript_expression" → D.mayStop .nestedSubscript) :
    D.Obeys 0 (fun entry => entry = true → ∃ a, D.good a ∧ a.upload = true) (uploadEntry base) := by
  unfold uploadEntry
  refine D.ite (fun hk => D.free h.upload fun o _ => ?_) fun _ => D.ite (fun _ => ?_) fun _ => D.pure (by simp)
  · cases o with
    | none => exact D.stop (hs (eq_of_beq hk))
    | some v => exact D.free (D.read v) fun t ht => D.pure fun hu => ⟨t, ht, hu⟩
  · exact D.free (D.traceOf _) fun t ht => D.pure fun hu => ⟨t, ht, hu⟩

variable (hb : BelowObey D here)

section

variable (hn : D.Allows here.bare)

include hb hn

theorem uploadRule_obeys : D.Obeys 0 (fun o => ∀ v ∈ o, D.own v) (uploadRule here) := by
  have made : ∀ {t}, D.good t → D.Obeys 0 (fun o => ∀ v ∈ o, D.own v) (do return some (← fresh t)) := fun ht =>
    D.free (D.make ht) fun v hv => D.pure fun w hw => Option.some.inj hw ▸ hv
  have none : D.Obeys 0 (fun o => ∀ v ∈ o, D.own v) (Pure.pure none) := D.pure fun _ h => nomatch h
  unfold uploadRule
  refine D.ite (fun _ => none) fun hk => ?_
  have hk : here.bare.kind = "subscript_expression" := by simpa using hk
  cases hs : subscriptBase? here with
  | none => exact none
  | some base =>
    refine D.ite (fun hf => made ?_) fun _ => ?_
    · have he : isSuperglobalEntry here.bare = true := by
        simp only [Bool.and_eq_true, beq_iff_eq] at hf
        rw [isSuperglobalEntry, hasBase_bare, hasBase, hs]
        simp only [Option.any_some, hf]
        decide
      exact D.vouched.entry hn.node hk he (by simp)
    · have hstop : base.kind = "subscript_expression" → D.mayStop .nestedSubscript := fun h =>
        hn.nested hk base.bare (by simp [hs]) (by simpa using h)
      refine D.free (D.uploadEntry_obeys (hb.child (mem_children_of_subscriptBase? hs)) hstop) fun _ he =>
        D.ite (fun ht => made ?_) fun _ => none
      obtain ⟨a, ha, hu⟩ := he ht
      unfold uploadPart
      split
      · exact D.vouched.nothing
      · exact D.vouched.nothing
      · exact D.vouched.nothing
      · exact D.vouched.filePart hn.node hk ha hu (by simp)

omit hb in
theorem variableRule_obeys (hk : here.kind = "variable_name") :
    D.Obeys g (fun v => D.loose v ∨ D.under here.text v) (variableRule here) := by
  unfold variableRule
  refine D.ite (fun hs => D.of_own (D.make ?_)) fun _ => D.valueOf _
  have harray := D.vouched.array hn.node (by simpa using hk) (by simpa using hs)
  simpa using harray

theorem subscriptValue_obeys (hk : here.kind = "subscript_expression") :
    D.Obeys g (fun v => D.loose v ∨ D.under (Text.removeBlanks here.text) v) (subscriptValue here) := by
  have made : ∀ {t}, D.good t → D.Obeys g (fun v => D.loose v ∨ D.under (Text.removeBlanks here.text) v) (fresh t) :=
    fun ht => D.of_own (D.make ht)
  have entry : isSuperglobalEntry here = true → ∀ {t : Trace}, t.sources = [here.text] → D.good t := fun he t ht =>
    D.vouched.entry hn.node (by simpa using hk) (by simpa [isSuperglobalEntry] using he) (by simpa using ht)
  unfold subscriptValue
  have hchecked : D.Obeys 0 Anything (isChecked (Text.removeBlanks here.text)) := D.look fun _ _ => trivial
  refine D.free hchecked fun _ _ => ?_
  refine D.free (D.find _) fun stored hstored => D.ite (fun _ => made D.vouched.nothing) fun _ => ?_
  split
  · -- the value stored under the key
    rename_i v hv
    refine D.pure (Or.inr (hstored v ?_))
    split at hv
    · exact nomatch hv
    · exact hv
  · split
    · exact made (entry (isSuperglobalEntry_of_clientChosen? ‹_›) rfl)
    · exact made D.vouched.nothing
    · refine D.ite (fun hf => ?_) fun _ => D.ite (fun hs => made (entry hs rfl)) fun _ => ?_
      · exact made (entry (isSuperglobalEntry_of_isFilesEntry hf) rfl)
      · exact D.of_own (D.evalAll fun _ hc => hb.child hc)

theorem subscriptRule_obeys (hk : here.kind = "subscript_expression") :
    D.Obeys g (fun v => D.loose v ∨ D.under (Text.removeBlanks here.text) v)
      (subscriptRule here (uploadRule here)) := by
  refine D.free (D.uploadRule_obeys hb hn) fun o ho => ?_
  cases o with
  | some v => exact D.pure (Or.inl (D.loose_of_own (ho v rfl)))
  | none => exact D.subscriptValue_obeys hb hn hk

end

include hb

theorem conditionalRule_obeys : D.Obeys g D.own (conditionalRule here) := by
  unfold conditionalRule
  dsimp only
  split
  · rename_i test second other rest hnamed
    have hother : ActsObey D other := hb.named other (by rw [hnamed]; simp)
    refine D.ite (fun _ => D.free hother.eval fun v _ => D.free (D.read v) fun _ _ => ?_) fun _ => D.evalAll hb.named
    exact D.ite (fun _ => D.evalAll hb.named) fun _ => D.make (D.vouched.plain _ rfl rfl rfl)
  · exact D.evalAll hb.named

theorem castRule_obeys : D.Obeys g D.own (castRule here) := by
  unfold castRule
  exact D.ite (fun _ => D.blank) fun _ => D.evalAll fun c hc => hb.named c (List.mem_filter.mp hc).1

theorem riskyParts_obeys : D.Obeys 0 Anything (riskyParts here) := by
  refine D.anyRun fun r hr => ?_
  obtain ⟨c, hc, rfl⟩ := List.mem_map.mp hr
  exact (hb.named c hc).risky

theorem stringRule_obeys : D.Obeys g D.own (stringRule here) := by
  unfold stringRule
  refine D.free (D.mergeRuns (fun r hr => ?_) (D.vouched.plain _ rfl rfl rfl)) fun known hg => D.ite (fun _ => ?_)
    fun _ => D.make hg
  · obtain ⟨c, hc, rfl⟩ := List.mem_map.mp hr
    exact D.any (hb.named c hc).eval
  · have hnote : D.Obeys 0 Anything (riskNote here) := D.free (D.riskyParts_obeys hb) fun _ _ => D.done _
    exact D.free hnote fun _ _ => D.make (D.vouched.alter hg rfl rfl (Or.inl rfl))

theorem binaryRule_obeys : D.Obeys g D.own (binaryRule here) := by
  have operand : ∀ i, D.Obeys 0 Anything (Taint.evalOption here.namedChildren[i]?) := fun i =>
    D.evalOption fun c hc => hb.named c (List.mem_of_getElem? hc)
  unfold binaryRule
  exact D.free (operand 0) fun left _ => D.free (operand 1) fun right _ => D.free (D.read left) fun _ hl =>
    D.free (D.read right) fun _ hr => D.make (D.vouched.alter (D.vouched.merge hl hr) rfl rfl (Or.inl rfl))

theorem riskyRule_obeys {eval : Run ValueId} (he : D.Obeys 0 Anything eval) :
    D.Obeys 0 Anything (riskyRule here eval) := by
  have access : D.Obeys 0 Anything (riskyAccess here eval) := by
    refine D.free he fun v _ => D.free (D.read v) fun _ _ => D.ite (fun _ => D.done true) fun _ => ?_
    cases hbase : here.namedChildren.head? with
    | none => exact D.done true
    | some base => exact (hb.named base (List.mem_of_head? hbase)).risky
  unfold riskyRule
  split
  · exact D.ite (fun _ => D.done true) fun _ => D.free (D.traceOf _) fun t _ => D.done t.tainted
  · exact access
  · exact access
  · exact D.riskyParts_obeys hb

/-! ### Calls -/

section

variable (hn : D.Allows here.bare)

include hn

omit hb in
theorem checkQuery_obeys (hk : Rule.query.reportedAt here.kind = true) (name : String) (v : ValueId) :
    D.Obeys 1 Anything (checkQuery here name v) :=
  D.reports (reports_checkQuery here name v) fun K => K.checkQuery_holds hn.node hk name v

omit hb hn in
theorem passedValue_obeys {v : ValueId} (hv : D.own v) (name : String) : D.Obeys g D.own (passedValue here name v) := by
  unfold passedValue
  refine D.ite (fun _ => D.blank) fun _ => D.ite (fun _ => ?_) fun _ => D.ite (fun _ => ?_) fun _ => D.pure hv
  · exact D.free (D.read v) fun _ ht => D.make (D.vouched.alter ht rfl rfl (Or.inr rfl))
  · exact D.free (D.append hv name) fun _ _ => D.pure hv

omit hb in
theorem methodValue_obeys (hk : here.kind = "member_call_expression") {v : ValueId} (hv : D.own v) :
    D.Obeys 1 D.own (methodValue here v) := by
  unfold methodValue
  split
  · exact D.pure hv
  · rename_i name hname
    refine D.ite (fun _ => D.pure hv) fun _ => D.ite (fun hr => D.make ?_) fun _ => D.ite (fun _ => D.make ?_) fun _ =>
      D.ite (fun _ => ?_) fun _ => D.pure hv
    · have hi : isInputCall here = true := by simp [isInputCall, hk, hname, hr]
      exact D.vouched.inputCall hn.node hi rfl (Or.inl rfl)
    · exact D.vouched.plain _ rfl rfl rfl
    · exact D.paid (D.checkQuery_obeys hn (by rw [hk]; rfl) _ v) fun _ _ => D.blank

theorem methodCallRule_obeys (hk : here.kind = "member_call_expression") : D.Obeys 1 D.own (methodCallRule here) :=
  D.free (D.evalAll hb.argument) fun _ hv => D.methodValue_obeys hn hk hv

variable (hk : here.kind = "function_call_expression")

include hk

theorem callbackRule_obeys (name : String) : D.Obeys 1 Anything (callbackRule here name) := by
  unfold callbackRule
  split
  · exact D.done ()
  · rename_i first others hargs
    have hall : ∀ x ∈ first :: others, ActsObey D x := fun x hx => hb.argument x (by rw [hargs]; exact hx)
    refine D.free (hall first List.mem_cons_self).eval fun v _ => ?_
    refine D.free (D.mergeRuns (fun r hr => ?_) D.vouched.nothing) fun rest hrest => ?_
    · obtain ⟨x, hx, rfl⟩ := List.mem_map.mp hr
      exact D.any (hall x (List.mem_cons_of_mem _ hx)).eval
    · exact D.free (D.read v) fun callee hc => D.reports (reports_checkCallback here name _ callee rest)
        fun K => K.checkCallback_holds hn.node D.vouched hk name _ hc hrest

theorem moveRule_obeys : D.Obeys 1 Anything (moveRule here) := by
  unfold moveRule
  split
  · rename_i destination _ hargs
    have hd : ActsObey D destination := hb.argument _ (by rw [hargs]; simp)
    exact D.free hd.eval fun v _ => D.reports (reports_checkUploadDestination here v)
      fun K => K.checkUploadDestination_holds hn.node hk v
  · exact D.done ()

omit hb in
theorem checkNamedSink_obeys {name : String} {v : ValueId}
    (h : Reports g (checkNamedSink here name v)) : D.Obeys g Anything (checkNamedSink here name v) :=
  D.reports h fun K => K.checkNamedSink_holds hn.node hk name v

/-- The checks of a call report once: no caller of callbacks is dangerous by its own name. -/
theorem checkCall_obeys (name : String) (v : ValueId) : D.Obeys 1 Anything (checkCall here name v) := by
  by_cases hc : callbackSinks.contains name = true
  · have hmem : name ∈ callbackSinks := by simpa using hc
    have hdangerous : name ∉ dangerousNames := (by decide : ∀ n ∈ callbackSinks, n ∉ dangerousNames) name hmem
    have hinclude : name ∉ includeSinks := (by decide : ∀ n ∈ callbackSinks, n ∉ includeSinks) name hmem
    have hharmless := reports_checkNamedSink_of_harmless here name v hdangerous hinclude
    refine D.free (D.checkNamedSink_obeys hn hk hharmless) fun _ _ => ?_
    exact D.ite (fun _ => D.callbackRule_obeys hb hn hk name) fun _ => D.done ()
  · refine D.paid (D.checkNamedSink_obeys hn hk (reports_checkNamedSink here name v)) fun _ _ => ?_
    rw [if_neg hc]
    exact D.done ()

section

variable {v : ValueId} (hv : D.own v)

include hv

omit hb in
theorem callResult_obeys {f : String} (hf : functionName? (here.field? "function") = some f) :
    D.Obeys (if Text.lower f = "unserialize" then 1 else 0) D.own (callResult here (Text.lower f) v) := by
  unfold callResult
  refine D.ite (fun hc => D.make ?_) fun _ => D.ite (fun _ => D.blank) fun _ => D.ite (fun hu => ?_)
    fun _ => D.passedValue_obeys hv _
  · have hi : isInputCall here = true := by simp [isInputCall, hk, hf, hc]
    exact D.vouched.inputCall hn.node hi rfl (Or.inl rfl)
  · rw [if_pos (eq_of_beq hu)]
    refine D.paid (D.reports (reports_checkUnserialize here v) fun K => ?_) fun _ _ => D.passedValue_obeys hv _
    exact K.checkUnserialize_holds hn.node hk v

theorem namedCallRule_obeys {f : String} (hf : functionName? (here.field? "function") = some f) :
    D.Obeys 1 D.own (namedCallRule here (Text.lower f) v) := by
  unfold namedCallRule
  refine D.ite (fun hbody => D.make ?_) fun _ => D.ite (fun _ => ?_) fun _ => D.ite (fun hfile => ?_) fun _ =>
    D.ite (fun _ => ?_) fun _ => ?_
  · have hi : isInputCall here = true := by simp [isInputCall, hk, hf, hbody]
    exact D.vouched.inputCall hn.node hi rfl (Or.inr rfl)
  · exact D.paid (D.moveRule_obeys hb hn hk) fun _ _ => D.blank
  · exact D.stop (hn.file (by simpa using hk) f (by simpa using hf) (List.contains_iff_mem.mp hfile))
  · exact D.paid (D.checkQuery_obeys hn (by rw [hk]; rfl) _ v) fun _ _ => D.blank
  · have hresult := D.callResult_obeys hn hk hv hf
    by_cases hu : Text.lower f = "unserialize"
    · -- nothing but the last check reports here
      rw [if_pos hu] at hresult
      have hnamed : Reports 0 (checkNamedSink here (Text.lower f) v) :=
        reports_checkNamedSink_of_harmless here _ v (by rw [hu]; decide) (by rw [hu]; decide)
      have hnot : ¬callbackSinks.contains (Text.lower f) = true := by rw [hu]; decide
      have hchecks : D.Obeys 0 Anything (checkCall here (Text.lower f) v) := by
        refine D.free (D.checkNamedSink_obeys hn hk hnamed) fun _ _ => ?_
        rw [if_neg hnot]
        exact D.done ()
      exact D.free hchecks fun _ _ => hresult
    · rw [if_neg hu] at hresult
      exact D.paid (D.checkCall_obeys hb hn hk _ v) fun _ _ => hresult

theorem calledValue_obeys : D.Obeys 1 D.own (calledValue here v) := by
  unfold calledValue
  split
  · rename_i f hf
    exact D.ite (fun _ => D.namedCallRule_obeys hb hn hk hv hf) fun _ => D.pure hv
  · split
    · rename_i name _
      refine D.free (D.traceOf name) fun callee hc => ?_
      have hreports : Reports 1 (do checkDynamicCall here name callee (← Taint.read v) v) :=
        (reports_read v).bind fun args => reports_checkDynamicCall here name v callee args
      have hcheck := D.reports hreports fun K => K.checkDynamicCall_holds hn.node D.vouched hk name hc v
      have h := D.paid hcheck fun _ _ => D.blank
      rwa [bind_assoc] at h
    · exact D.pure hv

end

theorem callRule_obeys : D.Obeys 1 D.own (callRule here) :=
  D.free (D.evalAll hb.argument) fun _ hv => D.calledValue_obeys hb hn hk hv

end

/-! ### Assignments -/

omit hb in
theorem storeVariable_obeys {left right : Option Code} (hl : ∀ name, variableName? left = some name → D.mayBind name)
    {v : ValueId} (hv : D.loose v) : D.Obeys 0 Anything (storeVariable left right v) := by
  unfold storeVariable
  split
  · rename_i name hname
    refine D.ite (fun _ => ?_) fun _ => D.done ()
    exact D.free (D.mark hv) fun _ _ => D.free (D.store hv (hl name hname)) fun _ _ => D.note hv name right
  · exact D.done ()

omit hb in
theorem storeEntry_obeys (hn : D.Allows here.bare) (hk : here.kind = "assignment_expression") {left : Option Code}
    (hl : ∀ key, accessKey? left = some key → D.mayBind key) {v : ValueId} (hv : D.loose v) :
    D.Obeys 1 Anything (storeEntry here left v) := by
  unfold storeEntry
  split
  · rename_i key hkey
    refine D.ite (fun _ => ?_) fun _ => D.done ()
    exact D.paid (D.reports (reports_checkSessionWrite here v key) fun K => K.checkSessionWrite_holds hn.node hk key v)
      fun _ _ => D.store hv (hl key hkey)
  · exact D.done ()

omit hb in
/-- An assignment runs its right side only; the value that it stores is loose. -/
theorem assignmentRule_obeys (hr : ∀ r ∈ here.field? "right", ActsObey D r) (hn : D.Allows here.bare)
    (hk : here.kind = "assignment_expression") : D.Obeys 1 D.loose (assignmentRule here) := by
  have hassigned : assignedAt here.bare =
      (variableName? (here.field? "left")).toList ++ (accessKey? (here.field? "left")).toList := by
    rw [assignedAt, if_pos (by simpa using hk), field?_bare, variableName?_bare, accessKey?_bare]
  have hvariable : ∀ name, variableName? (here.field? "left") = some name → D.mayBind name := fun name h =>
    hn.binds name (by rw [hassigned, h]; simp)
  have hentry : ∀ key, accessKey? (here.field? "left") = some key → D.mayBind key := fun key h =>
    hn.binds key (by rw [hassigned, h]; simp)
  have hvalue : D.Obeys 0 D.loose (assignedValue (here.field? "right")) := by
    cases hright : here.field? "right" with
    | none => exact D.weaken D.blank fun _ => D.loose_of_own
    | some r =>
      -- a value that is not loose yet is that of a name, which the assignment hands on
      refine D.weaken (hr r hright).eval fun v hv => hv.elim id fun ⟨name, hname, hunder⟩ => ?_
      refine hn.copies name ?_ v hunder
      rw [copiedAt, if_pos (by simpa using hk), field?_bare, hright]
      simpa using hname
  refine D.free hvalue fun v hv => D.free (D.storeVariable_obeys hvariable hv) fun _ _ => ?_
  exact D.paid (D.storeEntry_obeys hn hk hentry hv) fun _ _ => D.pure hv

/-! ### Statements -/

theorem conditionTrace_obeys : D.Obeys 0 D.good (conditionTrace (here.children.find? isCondition)) := by
  cases hc : here.children.find? isCondition with
  | none => exact D.pure D.vouched.nothing
  | some c => exact D.free (hb.child (List.mem_of_find?_eq_some hc)).eval fun v _ => D.read v

section

variable (hm : D.mayBranch)

include hm

omit hb in
theorem ifBranches_obeys (checked : List String) : ∀ (cs : List Code) (bodySeen : Bool) {known : Trace},
    D.good known → (∀ c ∈ cs, ActsObey D c) → D.Obeys 0 D.good (ifBranches checked bodySeen known cs)
  | [], _, _, hk, _ => D.pure hk
  | c :: cs, bodySeen, known, hk, h => by
    have hcs : ∀ c ∈ cs, ActsObey D c := fun c' hc' => h c' (List.mem_cons_of_mem _ hc')
    have hc := h c List.mem_cons_self
    unfold ifBranches
    refine D.ite (fun _ => ?_) fun _ => ?_
    · exact D.free (D.check (hc.block hm) checked) fun _ _ => ifBranches_obeys checked cs true hk hcs
    · exact D.free (hc.process (Or.inl hm)) fun v _ => D.free (D.read v) fun _ ht =>
        ifBranches_obeys checked cs _ (D.vouched.merge hk ht) hcs

theorem ifRule_obeys : D.Obeys 0 Anything (ifRule here) :=
  D.free (D.conditionTrace_obeys hb) fun _ hk =>
    D.free (D.ifBranches_obeys hm _ _ _ hk fun _ hc => hb.child (mem_children_of_mem_branches hc))
      fun _ hk => D.any (D.make hk)

omit hb in
theorem switchCases_obeys (base : List (String × ValueId)) : ∀ (cs : List Code) {known : Trace}
    {joined : List (String × Trace)}, D.good known → (∀ p ∈ joined, D.good p.2) → (∀ c ∈ cs, ActsObey D c) →
    D.Obeys 0 (fun r => D.good r.1 ∧ ∀ p ∈ r.2, D.good p.2) (switchCases base known joined cs)
  | [], _, _, hk, hj, _ => D.pure ⟨hk, hj⟩
  | c :: cs, known, joined, hk, hj, h => by
    unfold switchCases
    refine D.free (D.rename hm fun _ => base) fun _ _ => ?_
    refine D.free ((h c List.mem_cons_self).process (Or.inl hm)) fun v _ => D.free (D.read v) fun t ht => ?_
    have hjoin : D.Obeys 0 (fun m => ∀ p ∈ joinNames m joined, D.good p.2) (get : Run Memory) :=
      D.look fun _ hgood => D.vouched.joinNames hgood hj
    exact D.free hjoin fun m hj' => switchCases_obeys base cs (D.vouched.merge hk ht) hj'
      fun c' hc' => h c' (List.mem_cons_of_mem _ hc')

omit hb in
theorem switchParts_obeys (base : List (String × ValueId)) : ∀ (cs : List Code) {known : Trace}
    {joined : List (String × Trace)}, D.good known → (∀ p ∈ joined, D.good p.2) →
    (∀ c ∈ cs, ∀ d ∈ c.preorder, ActsObey D d) →
    D.Obeys 0 (fun r => D.good r.1 ∧ ∀ p ∈ r.2, D.good p.2) (switchParts base known joined cs)
  | [], _, _, hk, hj, _ => D.pure ⟨hk, hj⟩
  | c :: cs, known, joined, hk, hj, h => by
    have hcs : ∀ c ∈ cs, ∀ d ∈ c.preorder, ActsObey D d := fun c' hc' => h c' (List.mem_cons_of_mem _ hc')
    have hc := h c List.mem_cons_self
    unfold switchParts
    refine D.ite (fun _ => ?_) fun _ => ?_
    · refine D.free (D.switchCases_obeys hm base _ hk hj fun d hd => ?_) fun r hr => ?_
      · exact hc d (mem_preorder_of_mem_children (List.mem_filter.mp hd).1)
      · exact switchParts_obeys base cs hr.1 hr.2 hcs
    · exact D.free ((hc c (mem_preorder_self c)).process (Or.inl hm)) fun v _ => D.free (D.read v) fun _ ht =>
        switchParts_obeys base cs (D.vouched.merge hk ht) hj hcs

omit hb in
theorem bindJoined_obeys : ∀ joined : List (String × Trace), (∀ p ∈ joined, D.good p.2) →
    D.Obeys 0 Anything (bindJoined joined)
  | [], _ => D.done ()
  | (name, t) :: rest, h => by
    unfold bindJoined
    exact D.free (D.traceOf name) fun _ ht => D.free (D.make (D.vouched.merge ht (h _ List.mem_cons_self))) fun v _ =>
      D.free (D.rename hm (setName name v)) fun _ _ => bindJoined_obeys rest fun p hp => h p (List.mem_cons_of_mem _ hp)

omit hb in
theorem leaveSwitch_obeys (base : List (String × ValueId)) {known : Trace} {joined : List (String × Trace)}
    (hk : D.good known) (hj : ∀ p ∈ joined, D.good p.2) : D.Obeys 0 Anything (leaveSwitch base known joined) :=
  D.free (D.rename hm fun _ => base) fun _ _ => D.free (D.bindJoined_obeys hm joined hj) fun _ _ => D.any (D.make hk)

theorem switchBody_obeys {known : Trace} (hk : D.good known) (base : List (String × ValueId)) :
    D.Obeys 0 Anything (switchBody here known base) := by
  have hparts := D.switchParts_obeys hm base (branches here) (D.vouched.merge D.vouched.nothing hk)
    (fun p hp => absurd hp List.not_mem_nil) fun c hc => hb c (mem_children_of_mem_branches hc)
  exact D.free hparts fun r hr => D.leaveSwitch_obeys hm base hr.1 hr.2

theorem switchRule_obeys : D.Obeys 0 Anything (switchRule here) := by
  have hget : D.Obeys 0 Anything (get : Run Memory) := D.look fun _ _ => trivial
  exact D.free (D.conditionTrace_obeys hb) fun known hk => D.free hget fun m _ => D.switchBody_obeys hb hm hk m.names

theorem blockRule_obeys : D.Obeys 0 Anything (blockRule here) := by
  refine D.tick fun _ => D.runAll fun r hr => ?_
  obtain ⟨c, hc, rfl⟩ := List.mem_map.mp hr
  exact D.free ((hb.child (List.mem_filter.mp hc).1).process (Or.inl hm)) fun _ _ => D.done ()

end

variable (hn : D.Allows here.bare)

include hn

theorem outputRule_obeys (hk : Rule.output.reportedAt here.kind = true) (name : String) :
    D.Obeys 1 Anything (outputRule here name) := by
  refine D.free (D.evalAll hb.named) fun v _ => D.paid (D.reports (reports_checkOutput here name v) fun K => ?_)
    fun _ _ => D.done v
  exact K.checkOutput_holds hn.node hk name v

theorem includeRule_obeys (hk : includeKinds.contains here.kind = true) : D.Obeys 1 Anything (includeRule here) := by
  refine D.free (D.evalOption fun c hc => hb.named c (List.mem_of_head? hc)) fun v _ =>
    D.paid (D.reports (reports_checkInclude here v) fun K => K.checkInclude_holds hn.node ?_ v) fun _ _ => D.done v
  rw [Rule.reportedAt, hk, Bool.true_or]

omit hb in
theorem processRule_obeys_of_assignment (hr : ∀ r ∈ here.field? "right", ActsObey D r)
    (hk : here.kind = "assignment_expression") : D.Obeys 0 D.loose (processRule here) := by
  refine D.tick fun _ => ?_
  unfold statementRule
  rw [hk]
  exact D.assignmentRule_obeys hr hn hk

/-- A statement owes one finding at most, before its own visit is counted. -/
theorem statementRule_obeys (hm : D.mayBranch) : D.Obeys 1 Anything (statementRule here) := by
  have hcase : D.Obeys 1 Anything (caseRule here) :=
    D.any (D.processAll (fun c hc => hb.named c (List.mem_filter.mp hc).1) hm)
  unfold statementRule
  split
  · exact D.any (D.processAll (fun _ hc => hb.child hc) hm)
  · exact D.any (D.assignmentRule_obeys (fun r hr => hb.child (List.mem_of_find?_eq_some hr)) hn ‹_›)
  · exact D.mono (D.ifRule_obeys hb hm)
  · exact D.mono (D.switchRule_obeys hb hm)
  · exact hcase
  · exact hcase
  · exact D.any (D.callRule_obeys hb hn ‹_›)
  · exact D.any (D.methodCallRule_obeys hb hn ‹_›)
  · rename_i hk
    exact D.outputRule_obeys hb hn (by rw [hk]; rfl) _
  · rename_i hk
    exact D.outputRule_obeys hb hn (by rw [hk]; rfl) _
  · exact D.ite (fun hk => D.includeRule_obeys hb hn hk) fun _ => D.any (D.processAll hb.named hm)

theorem processRule_obeys (h : D.mayBranch ∨ here.kind = "assignment_expression") :
    D.Obeys 0 Anything (processRule here) := by
  rcases h with hm | hk
  · exact D.tick fun _ => D.statementRule_obeys hb hn hm
  · exact D.any (D.processRule_obeys_of_assignment hn (fun r hr => hb.child (List.mem_of_find?_eq_some hr)) hk)

theorem expressionRule_obeys :
    D.Obeys 1 (fun v => D.loose v ∨ ∃ name ∈ ownNames here.part, D.under name v)
      (expressionRule here (uploadRule here)) := by
  unfold expressionRule
  split
  · rename_i hk
    refine D.weaken (D.variableRule_obeys hn hk) fun v hv => hv.imp_right fun hv => ⟨here.text, ?_, hv⟩
    rw [ownNames, if_pos (show here.part.kind = _ from hk)]
    exact List.mem_cons_self
  · rename_i hk
    refine D.weaken (D.subscriptRule_obeys hb hn hk) fun v hv => hv.imp_right fun hv => ⟨_, ?_, hv⟩
    have hk : here.part.kind = "subscript_expression" := hk
    rw [ownNames, if_neg (by rw [hk]; decide), if_pos hk]
    exact List.mem_cons_self
  · refine D.mono (D.weaken (D.processRule_obeys_of_assignment hn (fun r hr => ?_) ‹_›) fun _ => Or.inl)
    exact hb.child (List.mem_of_find?_eq_some hr)
  · exact D.of_own (D.conditionalRule_obeys hb)
  · exact D.of_own (D.castRule_obeys hb)
  · exact D.of_own (D.callRule_obeys hb hn ‹_›)
  · exact D.of_own (D.methodCallRule_obeys hb hn ‹_›)
  · exact D.of_own (D.binaryRule_obeys hb)
  · exact D.ite (fun _ => D.of_own (D.stringRule_obeys hb)) fun _ => D.of_own (D.evalAll hb.named)

end Discipline

/-! ### Programs -/

/-- Every act of every node of a program obeys a discipline that allows what the nodes do. -/
theorem meaningOf_obeys (t : Tree Part) (hn : ∀ n ∈ t.preorder, D.Allows n) :
    ∀ d ∈ (meaningOf t).preorder, ActsObey D d := by
  refine meaningOf_ind (fun n hallows hbelow => ?_) t hn
  have hallows : D.Allows (surface n).bare := by
    rw [bare_surface]
    exact hallows
  have heval : D.Obeys 0 _ (evalRule (surface n) (uploadRule (surface n))) :=
    D.tick fun _ => D.expressionRule_obeys hbelow hallows
  refine ⟨?_, ?_, ?_, ?_, ?_⟩
  · rw [eval_meaningOf, part_meaningOf]
    exact heval
  · rw [process_meaningOf, kind_meaningOf]
    exact fun h => D.processRule_obeys hbelow hallows h
  · rw [block_meaningOf]
    exact fun h => D.blockRule_obeys hbelow h
  · rw [upload_meaningOf]
    exact D.uploadRule_obeys hbelow hallows
  · rw [risky_meaningOf]
    exact D.riskyRule_obeys hbelow (D.any heval)

/-! ### Invariants -/

variable {node : Tree Part → Prop} {Good : Trace → Prop} {I : Memory → Prop}

/-- To keep an invariant. -/
def Invariant.discipline (V : Vouched node Good) (K : Invariant node Good I) : Discipline where
  Obeys := fun _ => Holds I
  node := node
  good := Good
  vouched := V
  mayBranch := True
  pure := Holds.pure
  bind := Holds.bind
  weaken := Holds.weaken
  mono := id
  tick := fun h => K.tick_holds.bind fun a _ => h a
  stop := fun _ => Holds.throw _
  look := fun h => Holds.get fun m hm => h m (K.good hm)
  reports := fun _ h => h K
  make := K.fresh_holds
  find := fun _ => Holds.get fun _ _ _ _ => trivial
  append := fun _ name => K.learn_holds _ fun t => .append t [name]
  mark := fun _ => K.markCallable_holds _
  note := fun _ name right => K.noteStatement_holds name right _
  store := fun _ _ _ => K.bindName_holds _ _
  check := fun h expressions => K.within_holds expressions h
  rename := fun _ _ => Holds.modify fun _ hm => K.rename _ hm

theorem Invariant.allows (V : Vouched node Good) (K : Invariant node Good I) {n : Tree Part} (hn : node n) :
    (K.discipline V).Allows n where
  node := hn

/-- All acts of a node keep `I`. -/
structure ActsKeep (I : Memory → Prop) (c : Code) : Prop where
  eval : Holds I Anything c.eval
  process : Holds I Anything c.process
  block : Holds I Anything c.block
  upload : Holds I Anything c.upload
  risky : Holds I Anything c.risky

/-- Every act of every node of a program keeps the invariant. -/
theorem meaningOf_keeps (V : Vouched node Good) (K : Invariant node Good I) (t : Tree Part)
    (hn : ∀ n ∈ t.preorder, node n) : ∀ d ∈ (meaningOf t).preorder, ActsKeep I d := by
  intro d hd
  have hobeys : ActsObey (K.discipline V) d := meaningOf_obeys t (fun n hmem => K.allows V (hn n hmem)) d hd
  exact ⟨Holds.any hobeys.eval, hobeys.process (Or.inl trivial), hobeys.block trivial, Holds.any hobeys.upload,
    hobeys.risky⟩

/-- An invariant that the empty memory satisfies holds after every analysis, complete or stopped. -/
theorem analyze_keeps (V : Vouched node Good) (K : Invariant node Good I) (h0 : I Memory.empty)
    (t : Tree Part) (hn : ∀ n ∈ t.preorder, node n) : I (analyze t).memory := by
  have hmemory := ((meaningOf_keeps V K t hn _ (mem_preorder_self _)).block Memory.empty h0).1
  unfold analyze Run.outcome
  split
  · rename_i hr
    rw [hr] at hmemory
    exact hmemory
  · rename_i hr
    rw [hr] at hmemory
    exact hmemory

end SourceAudit.Taint
