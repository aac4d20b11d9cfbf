/-
# Invariants of the analysis

An invariant is checked once for each step that a run can make (`Invariant`). A step
that makes a value may use what the analysis can make at all: nothing known, what a node
of the program brings in, and what is merged or altered from traces that are there
(`Vouched`). A step that records a finding does so at a node of a kind where the rule
applies, and either the rule needs no request or the value comes from one
(`Finding.Founded`).
-/
import SourceAudit.Proofs.Syntax.Bare
import SourceAudit.Proofs.Taint.Run

namespace SourceAudit.Taint

open Tree

/-! ### What the steps may do -/

/-- The rules that are reported on a suspicion alone. -/
def Rule.isHunch : Rule → Bool
  | .commandSuspicious | .pregReplaceSuspicious | .dynamicBackdoor | .callbackSuspicious
  | .bufferCallback => true
  | _ => false

/-- The kinds of nodes at which a rule is reported. -/
def Rule.reportedAt : Rule → String → Bool
  | .sessionWrite, kind => kind == "assignment_expression"
  | .output, kind => kind == "echo_statement" || kind == "print_intrinsic"
  | .fileInclude, kind => includeKinds.contains kind || kind == "function_call_expression"
  | .query, kind => kind == "function_call_expression" || kind == "member_call_expression"
  | _, kind => kind == "function_call_expression"

/-- A finding that stands at a node of the program, for a reason that the memory knows. -/
structure Finding.Founded (node : Tree Part → Prop) (m : Memory) (f : Finding) : Prop where
  place : ∃ n, node n ∧ f.line = n.line ∧ f.excerpt = n.text ∧ f.rule.reportedAt n.kind = true
  reason : f.rule.isHunch = true ∨ (m.trace f.value).tainted = true

/-- A call that brings in the request: a cookie, the body, or a method of a request. -/
def isInputCall {α : Type} [HasPart α] (n : Tree α) : Bool :=
  n.kind == "function_call_expression" &&
      (functionName? (n.field? "function")).any (fun f =>
        Text.lower f == "cookie" && (arguments n).length == 1 ||
          Text.lower f == "file_get_contents" && readsBody (arguments n)) ||
    n.kind == "member_call_expression" && (methodName? n).any (readsRequest n)

theorem isInputCall_bare {α : Type} [HasPart α] (n : Tree α) : isInputCall n.bare = isInputCall n := by
  have hr : readsRequest n.bare = readsRequest n := funext fun method => readsRequest_bare n method
  unfold isInputCall
  rw [kind_bare, field?_bare, functionName?_bare, arguments_bare, List.length_map, readsBody_bare,
    methodName?_bare, hr]

/-- The traces that satisfy `Good` are all that the nodes of a program can make. -/
structure Vouched (node : Tree Part → Prop) (Good : Trace → Prop) : Prop where
  plain : ∀ t : Trace, t.tainted = false → t.upload = false → t.sources = [] → Good t
  merge : ∀ {a b : Trace}, Good a → Good b → Good (a.merge b)
  alter : ∀ {a b : Trace}, Good a → b.tainted = a.tainted → b.sources = a.sources →
    b.upload = a.upload ∨ b.upload = false → Good b
  array : ∀ {n : Tree Part}, node n → n.kind = "variable_name" →
    superglobals.contains n.text = true → Good { tainted := true, sources := [n.text] }
  entry : ∀ {n : Tree Part} {t : Trace}, node n → n.kind = "subscript_expression" →
    isSuperglobalEntry n = true → t.sources = [n.text] → Good t
  filePart : ∀ {n : Tree Part} {a t : Trace}, node n → n.kind = "subscript_expression" →
    Good a → a.upload = true → t.sources = [n.text] → Good t
  call : ∀ {n : Tree Part} {t : Trace}, node n → isInputCall n = true → t.upload = false →
    t.sources = [n.text] ∨ t.sources = ["php://input"] → Good t

theorem vouched_anything {node : Tree Part → Prop} : Vouched node (fun _ => True) where
  plain := fun _ _ _ _ => trivial
  merge := fun _ _ => trivial
  alter := fun _ _ _ _ => trivial
  array := fun _ _ _ => trivial
  entry := fun _ _ _ _ => trivial
  filePart := fun _ _ _ _ _ => trivial
  call := fun _ _ _ _ => trivial

theorem vouched_all : Vouched Anything Anything := vouched_anything

/-- Each step that a run can make keeps `I`, and `I` allows the traces that satisfy `Good` only. -/
structure Invariant (node : Tree Part → Prop) (Good : Trace → Prop) (I : Memory → Prop) : Prop where
  good : ∀ {m : Memory}, I m → ∀ v, Good (m.trace v)
  count : ∀ {m : Memory}, I m → I { m with visited := m.visited + 1 }
  make : ∀ {m : Memory} {t : Trace}, I m → Good t → I { m with store := m.store.push t }
  extend : ∀ {m : Memory} {f : Trace → Trace} (v : ValueId), I m → (∀ t : Trace, t.Extends (f t)) →
    I { m with store := m.store.modify v f }
  rename : ∀ {m : Memory} (ns : List (String × ValueId)), I m → I { m with names := ns }
  find : ∀ {m : Memory} {f : Finding}, I m → f.Founded node m →
    I { m with findings := m.findings.push f }
  check : ∀ {m : Memory} (cs : List (List String)), I m → I { m with checked := cs }

variable {node : Tree Part → Prop} {Good : Trace → Prop} {I : Memory → Prop}

theorem Vouched.nothing (V : Vouched node Good) : Good {} := V.plain {} rfl rfl rfl

/-- A node that brings in the request makes a trace that is vouched for. -/
theorem Vouched.inputCall (V : Vouched node Good) {here : Code} (hn : node here.bare) (hi : isInputCall here = true)
    {t : Trace} (hu : t.upload = false) (hs : t.sources = [here.text] ∨ t.sources = ["php://input"]) : Good t := by
  refine V.call hn ?_ hu (by simpa using hs)
  rw [isInputCall_bare]
  exact hi

theorem Vouched.joinNames (V : Vouched node Good) {m : Memory} (hm : ∀ v, Good (m.trace v))
    {joined : List (String × Trace)} (hj : ∀ p ∈ joined, Good p.2) : ∀ p ∈ joinNames m joined, Good p.2 := by
  unfold Taint.joinNames
  generalize m.names = ns
  induction ns generalizing joined with
  | nil => exact hj
  | cons n ns ih =>
    rw [List.foldl_cons]
    refine ih fun p hp => ?_
    unfold joinName at hp
    split at hp
    · obtain ⟨q, hq, rfl⟩ := List.mem_map.mp hp
      split
      · exact V.merge (hj q hq) (hm _)
      · exact hj q hq
    · rcases List.mem_append.mp hp with hp | hp
      · exact hj p hp
      · obtain rfl : p = _ := List.mem_singleton.mp hp
        exact V.merge V.nothing (hm _)

namespace Invariant

variable (K : Invariant node Good I)

include K

theorem tick_holds : Holds I Anything tick := by
  intro m hm
  rw [tick_apply]
  exact ⟨K.count hm, fun _ _ => trivial⟩

theorem fresh_holds {t : Trace} (h : Good t) : Holds I Anything (fresh t) :=
  fun _ hm => ⟨K.make hm h, fun _ _ => trivial⟩

theorem read_holds (v : ValueId) : Holds I Good (read v) := Holds.get fun _ hm => K.good hm v

theorem learn_holds (v : ValueId) {f : Trace → Trace} (hf : ∀ t : Trace, t.Extends (f t)) :
    Holds I Anything (learn v f) :=
  fun _ hm => ⟨K.extend v hm hf, fun _ _ => trivial⟩

theorem bindName_holds (name : String) (v : ValueId) : Holds I Anything (bindName name v) :=
  fun _ hm => ⟨K.rename _ hm, fun _ _ => trivial⟩

theorem within_holds {α : Type} {Q : α → Prop} {r : Run α} (expressions : List String) (h : Holds I Q r) :
    Holds I Q (within expressions r) := by
  intro m hm
  rw [within_apply]
  obtain ⟨h1, h2⟩ := h _ (K.check (expressions :: m.checked) hm)
  exact ⟨K.check _ h1, h2⟩

/-- A finding at a node about a value, for a reason. -/
theorem report_holds {here : Code} (hn : node here.bare) {rule : Rule} (hk : rule.reportedAt here.kind = true)
    {m : Memory} (hm : I m) {v : ValueId} (h : rule.isHunch = true ∨ (m.trace v).tainted = true)
    (description : String) :
    I (report here rule description v m).2 ∧
      ∀ a, (report here rule description v m).1 = .ok a → Anything a := by
  refine ⟨K.find hm ⟨⟨here.bare, hn, ?_, ?_, ?_⟩, h⟩, fun _ _ => trivial⟩
  · exact (line_bare here).symm
  · exact (text_bare here).symm
  · rw [kind_bare]; exact hk

theorem markCallable_holds (v : ValueId) : Holds I Anything (markCallable v) :=
  (K.read_holds v).bind fun _ _ => Holds.ite (fun _ => K.learn_holds v .mark) fun _ => Holds.pure trivial

theorem noteStatement_holds (name : String) (right : Option Code) (v : ValueId) :
    Holds I Anything (noteStatement name right v) := by
  unfold noteStatement
  split
  · exact Holds.pure trivial
  · rename_i r
    refine (K.read_holds v).bind fun _ _ => Holds.ite (fun _ => ?_) fun _ => Holds.pure trivial
    exact K.learn_holds v fun t => (Trace.Extends.note t name).trans (.note _ r.text)

end Invariant

/-! ### The checks -/

namespace Invariant

variable (K : Invariant node Good I) {here : Code} (hn : node here.bare)

include K hn

theorem checkNamedSink_holds (hk : here.kind = "function_call_expression") (name : String) (v : ValueId) :
    Holds I Anything (checkNamedSink here name v) := by
  intro m hm
  unfold checkNamedSink
  rw [read_bind]
  split_ifs with h1 h2 h3 h4 h5 h6
  · exact K.report_holds hn (by rw [hk]; rfl) hm (Or.inr (Bool.and_eq_true _ _ ▸ h1).2) _
  · exact K.report_holds hn (by rw [hk]; rfl) hm (Or.inr (Bool.and_eq_true _ _ ▸ h2).2) _
  · exact K.report_holds hn (by rw [hk]; rfl) hm (Or.inl rfl) _
  · exact K.report_holds hn (by rw [hk]; rfl) hm (Or.inr (Bool.and_eq_true _ _ ▸ h4).2) _
  · exact K.report_holds hn (by rw [hk]; rfl) hm (Or.inr (Bool.and_eq_true _ _ ▸ h5).2) _
  · exact K.report_holds hn (by rw [hk]; rfl) hm (Or.inl rfl) _
  · exact Holds.pure trivial m hm

theorem checkQuery_holds (hk : Rule.query.reportedAt here.kind = true) (name : String) (v : ValueId) :
    Holds I Anything (checkQuery here name v) := by
  intro m hm
  unfold checkQuery
  rw [read_bind]
  split_ifs with h1 h2
  · exact Holds.pure trivial m hm
  · exact K.report_holds hn hk hm (Or.inr (by simp_all)) _
  · exact K.report_holds hn hk hm (Or.inr (by simp_all)) _

theorem checkSessionWrite_holds (hk : here.kind = "assignment_expression") (key : String) (v : ValueId) :
    Holds I Anything (checkSessionWrite here key v) := by
  intro m hm
  unfold checkSessionWrite
  rw [read_bind]
  split_ifs with h1
  · exact K.report_holds hn (by rw [hk]; rfl) hm (Or.inr (Bool.and_eq_true _ _ ▸ h1).2) _
  · exact Holds.pure trivial m hm

theorem checkOutput_holds (hk : Rule.output.reportedAt here.kind = true) (name : String) (v : ValueId) :
    Holds I Anything (checkOutput here name v) := by
  intro m hm
  unfold checkOutput
  rw [read_bind]
  split_ifs with h1
  · exact K.report_holds hn hk hm (Or.inr (Bool.and_eq_true _ _ ▸ h1).1) _
  · exact Holds.pure trivial m hm

theorem checkInclude_holds (hk : Rule.fileInclude.reportedAt here.kind = true) (v : ValueId) :
    Holds I Anything (checkInclude here v) := by
  intro m hm
  unfold checkInclude
  rw [read_bind]
  split_ifs with h1
  · exact K.report_holds hn hk hm (Or.inr h1) _
  · exact Holds.pure trivial m hm

theorem checkUploadDestination_holds (hk : here.kind = "function_call_expression") (v : ValueId) :
    Holds I Anything (checkUploadDestination here v) := by
  intro m hm
  unfold checkUploadDestination
  rw [read_bind]
  split_ifs with h1
  · exact K.report_holds hn (by rw [hk]; rfl) hm (Or.inr h1) _
  · exact Holds.pure trivial m hm

theorem checkUnserialize_holds (hk : here.kind = "function_call_expression") (v : ValueId) :
    Holds I Anything (checkUnserialize here v) := by
  intro m hm
  unfold checkUnserialize
  rw [read_bind]
  split_ifs with h1
  · exact K.report_holds hn (by rw [hk]; rfl) hm (Or.inr h1) _
  · exact Holds.pure trivial m hm

theorem freshReport_holds {t : Trace} (ht : Good t) {rule : Rule} (hk : rule.reportedAt here.kind = true)
    (h : rule.isHunch = true ∨ t.tainted = true) (description : String) :
    Holds I Anything (do
      let both ← fresh t
      report here rule description both) := by
  intro m hm
  rw [bind_ok (fresh_apply t m)]
  refine K.report_holds hn hk (K.make hm ht) (h.imp_right fun h => ?_) description
  rw [trace_push_size]
  exact h

/-- The call of a function that a variable names. What is known about the value of the arguments is read
in the memory in which it is used. -/
theorem checkDynamicCall_holds (V : Vouched node Good) (hk : here.kind = "function_call_expression")
    (name : String) {callee : Trace} (hc : Good callee) (v : ValueId) :
    Holds I Anything (do checkDynamicCall here name callee (← read v) v) := by
  intro m hm
  rw [read_bind]
  have hg : Good (callee.merge (m.trace v)) := V.merge hc (K.good hm v)
  unfold checkDynamicCall
  by_cases h1 : callee.tainted = true
  · rw [if_pos h1]
    exact K.freshReport_holds hn hg (by rw [hk]; rfl) (Or.inr (by simp [Trace.merge, h1])) _ m hm
  · rw [if_neg h1]
    split_ifs with h2 h3 h4
    · exact K.freshReport_holds hn hg (by rw [hk]; rfl) (Or.inl rfl) _ m hm
    · exact K.freshReport_holds hn hg (by rw [hk]; rfl) (Or.inl rfl) _ m hm
    · exact K.report_holds hn (by rw [hk]; rfl) hm (Or.inr h4) _
    · exact Holds.pure trivial m hm

theorem checkCallback_holds (V : Vouched node Good) (hk : here.kind = "function_call_expression")
    (name : String) (callback : Option String) {callee rest : Trace} (hc : Good callee) (hr : Good rest) :
    Holds I Anything (checkCallback here name callback callee rest) := by
  have hg : Good (callee.merge rest) := V.merge hc hr
  unfold checkCallback
  refine Holds.ite (fun h1 => ?_) fun _ => Holds.ite (fun _ => ?_) fun _ => Holds.ite (fun h3 => ?_) fun _ =>
    Holds.ite (fun _ => ?_) fun _ => Holds.pure trivial
  · exact K.freshReport_holds hn hg (by rw [hk]; rfl) (Or.inr (by simp [Trace.merge, h1])) _
  · exact K.freshReport_holds hn hg (by rw [hk]; rfl) (Or.inl rfl) _
  · have ht : rest.tainted = true := (Bool.and_eq_true _ _ ▸ h3).2
    exact K.freshReport_holds hn hg (by rw [hk]; rfl) (Or.inr (by simp [Trace.merge, ht])) _
  · exact K.freshReport_holds hn hg (by rw [hk]; rfl) (Or.inl rfl) _

end Invariant

/-! ### Parts of a node -/

theorem mem_children_of_subscriptBase? {here base : Code} (h : subscriptBase? here = some base) :
    base ∈ here.children :=
  List.mem_of_find?_eq_some h

theorem mem_children_of_mem_branches {here c : Code} (h : c ∈ branches here) : c ∈ here.children :=
  List.mem_of_mem_eraseP (List.mem_filter.mp h).1

theorem hasBase_mono {α : Type} [HasPart α] {t : Tree α} {p q : String → Bool}
    (h : ∀ s, p s = true → q s = true) (ht : hasBase t p = true) : hasBase t q = true := by
  unfold hasBase at ht ⊢
  cases hb : subscriptBase? t with
  | none => rw [hb] at ht; simp at ht
  | some b =>
    rw [hb] at ht
    simp only [Option.any_some, Bool.and_eq_true] at ht ⊢
    exact ⟨ht.1, h _ ht.2⟩

theorem isSuperglobalEntry_of_clientChosen? {here : Code} {b : Bool} (h : clientChosen? here = some b) :
    isSuperglobalEntry here = true := by
  unfold clientChosen? at h
  split at h
  · refine hasBase_mono (fun s hs => ?_) ‹_›
    rw [eq_of_beq hs]
    decide
  · simp at h

theorem isSuperglobalEntry_of_isFilesEntry {here : Code} (h : isFilesEntry here = true) :
    isSuperglobalEntry here = true := by
  unfold isFilesEntry at h
  refine hasBase_mono (fun s hs => ?_) (Bool.and_eq_true _ _ ▸ h).1
  rw [eq_of_beq hs]
  decide

end SourceAudit.Taint
