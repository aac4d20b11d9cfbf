/-
# Parts that hide others

What is known about a merged value does not say of which part it holds.

A value that is sent to a database is reported if it comes from a request and is not
strongly escaped, where a weak escaper outweighs a strong one (`reported_iff`). So a part
that is reported on its own is hidden by a part that is strongly escaped, unless it is
weakly escaped itself. The lists hold `maxItems` items after a merge; what is cut off
does not count.

A value that is written into the response is reported if it comes from a request and is
no part of an uploaded file (`announced_iff`). So an operand that is reported on its own
is hidden by every operand that belongs to an upload, also by one that does not come from
a request.
-/
import SourceAudit.Proofs.Syntax.Bare
import SourceAudit.Proofs.Taint.Limits
import SourceAudit.Proofs.Taint.Run

namespace SourceAudit.Taint

open Tree

variable {α : Type} [HasPart α] {call : Tree α} {name : String} {s t : Trace} {xs : List String}

theorem stronglyEscaped_eq_true_iff :
    stronglyEscaped xs = true ↔ (∃ x ∈ xs, x ∈ strongEscapers) ∧ "addslashes" ∉ xs := by
  simp [stronglyEscaped]

theorem stronglyEscaped_eq_false_iff :
    stronglyEscaped xs = false ↔ (∀ x ∈ xs, x ∉ strongEscapers) ∨ "addslashes" ∈ xs := by
  rw [← Bool.not_eq_true, stronglyEscaped_eq_true_iff, not_and_or, not_not]
  simp only [not_exists, not_and]

/-! ### What is reported -/

/-- The check of the call records a finding about a value of which this is known, and does nothing
else. -/
def Reported (call : Tree α) (name : String) (s : Trace) : Prop :=
  ∀ (m : Memory) (v : ValueId), m.trace v = s →
    ∃ f : Finding, f.rule = .query ∧ f.value = v ∧
      checkQuery call name v m = (.ok (), { m with findings := m.findings.push f })

/-- A value is passed over, or a finding about it is recorded. -/
theorem checkQuery_apply (call : Tree α) (name : String) (v : ValueId) (m : Memory) :
    ∃ f : Finding, f.rule = .query ∧ f.value = v ∧ checkQuery call name v m = (.ok (),
      if isParameterized (arguments call) || !(m.trace v).tainted || stronglyEscaped (m.trace v).transforms then m
      else { m with findings := m.findings.push f }) := by
  unfold checkQuery
  rw [read_bind]
  split
  · exact ⟨⟨.query, 0, "", "", v⟩, rfl, rfl, rfl⟩
  · exact ⟨_, rfl, rfl, record_apply _ m⟩

theorem reported_iff : Reported call name s ↔
    isParameterized (arguments call) = false ∧ s.tainted = true ∧ stronglyEscaped s.transforms = false := by
  constructor
  · intro h
    by_contra hpass
    have hif : (isParameterized (arguments call) || !s.tainted || stronglyEscaped s.transforms) = true := by
      simp only [Bool.or_eq_true, Bool.not_eq_true']
      grind
    -- a memory with such a value, where the check leaves the findings as they are
    let m : Memory := { Memory.empty with store := #[s] }
    obtain ⟨f, -, -, hf⟩ := h m 0 rfl
    obtain ⟨g, -, -, hg⟩ := checkQuery_apply call name 0 m
    rw [show m.trace 0 = s from rfl, if_pos hif, hf] at hg
    have hfindings := congrArg (fun p => p.2.findings.size) hg
    simp at hfindings
  · rintro ⟨hparameterized, htainted, hescaped⟩ m v rfl
    obtain ⟨f, hrule, hvalue, hf⟩ := checkQuery_apply call name v m
    rw [hparameterized, htainted, hescaped] at hf
    exact ⟨f, hrule, hvalue, hf⟩

/-! ### Values made of two -/

theorem reported_merge (h : Reported call name s) (t : Trace) :
    (Reported call name (s.merge t) ↔ stronglyEscaped (s.merge t).transforms = false) ∧
      (Reported call name (t.merge s) ↔ stronglyEscaped (t.merge s).transforms = false) := by
  obtain ⟨hparameterized, htainted, -⟩ := reported_iff.mp h
  simp [reported_iff, hparameterized, Trace.merge, htainted]

/-- If both lists fit, a merged value is strongly escaped if one of its parts went through a strong
escaper and none of them through a weak one. -/
theorem stronglyEscaped_merge (hfit : (s.transforms.length + t.transforms.length : Int) ≤ maxItems) :
    stronglyEscaped (s.merge t).transforms = false ↔
      (∀ x ∈ s.transforms, x ∉ strongEscapers) ∧ (∀ x ∈ t.transforms, x ∉ strongEscapers) ∨
        "addslashes" ∈ s.transforms ∨ "addslashes" ∈ t.transforms := by
  rw [stronglyEscaped_eq_false_iff, Trace.merge]
  simp only [mem_mergeLimited_of_length_le hfit]
  grind

/-- **An escaped part hides an unescaped one.** A value that is reported stays reported after a merge
with another one that is not strongly escaped, or if it is itself weakly escaped, and is not reported
otherwise. If the lists are too long, what is left of them after the cut decides. -/
theorem reported_merge_iff (h : Reported call name s) (t : Trace) :
    (Reported call name (s.merge t) ↔ stronglyEscaped (s.merge t).transforms = false) ∧
    (Reported call name (t.merge s) ↔ stronglyEscaped (t.merge s).transforms = false) ∧
    ((∀ x ∈ s.transforms ++ t.transforms, x ∉ strongEscapers) →
      Reported call name (s.merge t) ∧ Reported call name (t.merge s)) ∧
    ("addslashes" ∈ s.transforms.take maxItems.toNat → Reported call name (s.merge t)) ∧
    ("addslashes" ∈ t.transforms.take maxItems.toNat → Reported call name (t.merge s)) ∧
    ((s.transforms.length + t.transforms.length : Int) ≤ maxItems →
      (Reported call name (s.merge t) ↔ stronglyEscaped t.transforms = false ∨ "addslashes" ∈ s.transforms) ∧
      (Reported call name (t.merge s) ↔ stronglyEscaped t.transforms = false ∨ "addslashes" ∈ s.transforms)) := by
  obtain ⟨hst, hts⟩ := reported_merge h t
  obtain ⟨-, -, hescaped⟩ := reported_iff.mp h
  rw [stronglyEscaped_eq_false_iff] at hescaped
  have hlimit : 0 ≤ maxItems := by decide
  refine ⟨hst, hts, fun hnone => ?_, fun hweak => ?_, fun hweak => ?_, fun hfit => ?_⟩
  · rw [hst, hts, stronglyEscaped_eq_false_iff, stronglyEscaped_eq_false_iff]
    refine ⟨Or.inl fun x hx => hnone x ?_, Or.inl fun x hx => hnone x ?_⟩
    · exact List.mem_append.mpr (mem_of_mem_mergeLimited hlimit hx)
    · exact List.mem_append.mpr (mem_of_mem_mergeLimited hlimit hx).symm
  · rw [hst, stronglyEscaped_eq_false_iff]
    exact Or.inr (mem_mergeLimited_of_mem_take hlimit hweak _)
  · rw [hts, stronglyEscaped_eq_false_iff]
    exact Or.inr (mem_mergeLimited_of_mem_take hlimit hweak _)
  · rw [hst, hts, stronglyEscaped_merge hfit, stronglyEscaped_merge (by omega), stronglyEscaped_eq_false_iff]
    grind

/-! ### Small queries -/

/-- A call of a function with one argument. -/
def calling (function : String) (argument : Tree Part) : Tree Part :=
  .plain "function_call_expression" "" [
    .filling "function" "name" function [],
    .filling "arguments" "arguments" "" [.plain "argument" "" [argument]]]

/-- A part that is weakly escaped is not hidden by one that is strongly escaped. -/
theorem weak_part_reported :
    let s : Trace := { tainted := true, sources := ["$_GET['k']"], transforms := ["addslashes"] }
    let t : Trace := { tainted := true, transforms := ["mysql_real_escape_string"] }
    Reported (calling "mysql_query" (requestEntry "k")) "mysql_query" s ∧
      Reported (calling "mysql_query" (requestEntry "k")) "mysql_query" (s.merge t) ∧
      Reported (calling "mysql_query" (requestEntry "k")) "mysql_query" (t.merge s) := by
  intro s t
  have h : Reported (calling "mysql_query" (requestEntry "k")) "mysql_query" s := reported_iff.mpr (by decide)
  obtain ⟨hst, hts⟩ := (reported_merge_iff h t).2.2.2.2.2 (by decide)
  exact ⟨h, hst.mpr (Or.inr (by decide)), hts.mpr (Or.inr (by decide))⟩

/-- `mysql_query($_GET['k'] . mysql_real_escape_string($_GET['k']))` is not reported, though
`mysql_query($_GET['k'])` is. -/
theorem escaped_hides_unescaped :
    let s : Trace := { tainted := true, sources := ["$_GET['k']"] }
    let t : Trace := { tainted := true, sources := ["$_GET['k']"], transforms := ["mysql_real_escape_string"] }
    let escaped := calling "mysql_real_escape_string" (requestEntry "k")
    let both := Tree.plain "binary_expression" "" [requestEntry "k", escaped]
    Reported (calling "mysql_query" both) "mysql_query" s ∧
      ¬Reported (calling "mysql_query" both) "mysql_query" (s.merge t) ∧
      ¬Reported (calling "mysql_query" both) "mysql_query" (t.merge s) ∧
      ((meaningOf (calling "mysql_query" (requestEntry "k"))).eval Memory.empty).2.findings.size = 1 ∧
      ((meaningOf (calling "mysql_query" both)).eval Memory.empty).2.findings.size = 0 := by
  simp only [reported_iff]
  decide +kernel

/-! ### What is written beside an uploaded file -/

/-! ### What is reported -/

section

variable {α : Type} [HasPart α] {here : Tree α} {name : String} {s : Trace}

/-- The check of the statement records a finding about a value of which this is known, and does nothing
else. -/
def Announced (here : Tree α) (name : String) (s : Trace) : Prop :=
  ∀ (m : Memory) (v : ValueId), m.trace v = s →
    ∃ f : Finding, f.rule = .output ∧ f.line = here.line ∧ f.excerpt = here.text ∧ f.value = v ∧
      checkOutput here name v m = (.ok (), { m with findings := m.findings.push f })

/-- A value is passed over, or a finding about it is recorded. -/
theorem checkOutput_apply (here : Tree α) (name : String) (v : ValueId) (m : Memory) :
    ∃ f : Finding, f.rule = .output ∧ f.line = here.line ∧ f.excerpt = here.text ∧ f.value = v ∧
      checkOutput here name v m = (.ok (),
        if (m.trace v).tainted && !(m.trace v).upload then { m with findings := m.findings.push f } else m) := by
  unfold checkOutput
  rw [read_bind]
  split
  · exact ⟨_, rfl, rfl, rfl, rfl, record_apply _ m⟩
  · exact ⟨⟨.output, here.line, "", here.text, v⟩, rfl, rfl, rfl, rfl, rfl⟩

theorem announced_iff : Announced here name s ↔ s.tainted = true ∧ s.upload = false := by
  constructor
  · intro h
    -- a memory with such a value, in which the finding shows
    let m : Memory := { Memory.empty with store := #[s] }
    obtain ⟨f, -, -, -, -, hf⟩ := h m 0 rfl
    obtain ⟨g, -, -, -, -, hg⟩ := checkOutput_apply here name 0 m
    rw [hf, show m.trace 0 = s from rfl] at hg
    by_contra hpass
    have hif : ¬(s.tainted && !s.upload) = true := by simpa using hpass
    rw [if_neg hif] at hg
    have hfindings := congrArg (fun p => p.2.findings.size) hg
    simp at hfindings
  · rintro ⟨htainted, hupload⟩ m v rfl
    obtain ⟨f, hrule, hline, htext, hvalue, hf⟩ := checkOutput_apply here name v m
    rw [htainted, hupload] at hf
    exact ⟨f, hrule, hline, htext, hvalue, hf⟩

variable {there : Tree α} {t : Trace}

/-- What is merged into a value hides it if it belongs to an upload, and only then. -/
theorem announced_merge_left (h : Announced here name s) : Announced there name (s.merge t) ↔ t.upload = false := by
  obtain ⟨htainted, hupload⟩ := announced_iff.mp h
  simp [announced_iff, Trace.merge, htainted, hupload]

theorem announced_merge_right (h : Announced here name s) : Announced there name (t.merge s) ↔ t.upload = false := by
  obtain ⟨htainted, hupload⟩ := announced_iff.mp h
  simp [announced_iff, Trace.merge, htainted, hupload]

end

/-! ### Statements and their operands -/

variable {here longer x : Code} {m m' n : Memory} {s : Trace} {v : ValueId}

/-- The word for a statement that writes its operands into the response. -/
def writtenAs? (kind : String) : Option String :=
  if kind = "echo_statement" then some "echo" else if kind = "print_intrinsic" then some "print" else none

theorem statementRule_of_writtenAs? {name : String} (h : writtenAs? here.kind = some name) :
    statementRule here = outputRule here name := by
  unfold writtenAs? at h
  unfold statementRule
  split_ifs at h with hecho hprint
  · rw [hecho, ← Option.some.inj h]
    rfl
  · rw [hprint, ← Option.some.inj h]
    rfl

/-- The operands of a statement, evaluated one after the other and merged. -/
def operandTrace (here : Code) : Run Trace := mergeRuns {} (here.namedChildren.map (·.eval))

/-- The statement, run from `m`, records that it writes its operands; `m'` is the memory after them. -/
def Records (here : Code) (m m' : Memory) : Prop :=
  ∃ f : Finding, f.rule = .output ∧ f.line = here.line ∧ f.excerpt = here.text ∧
    (statementRule here m).2.findings = m'.findings.push f

theorem outputRule_apply (name : String) (hs : operandTrace here m = (.ok s, m')) :
    ∃ f : Finding, f.rule = .output ∧ f.line = here.line ∧ f.excerpt = here.text ∧
      (outputRule here name m).2.findings =
        if s.tainted && !s.upload then m'.findings.push f else m'.findings := by
  have hvalue : evalAll here.namedChildren m = (.ok m'.store.size, { m' with store := m'.store.push s }) :=
    (bind_ok hs).trans (fresh_apply s m')
  obtain ⟨f, hrule, hline, htext, -, hf⟩ :=
    checkOutput_apply here name m'.store.size { m' with store := m'.store.push s }
  rw [trace_push_size] at hf
  refine ⟨f, hrule, hline, htext, ?_⟩
  rw [outputRule, bind_ok hvalue, bind_ok hf]
  split
  · rfl
  · rfl

/-- A statement records what it writes if the check of the merged value does. -/
theorem records_iff {name : String} (hk : writtenAs? here.kind = some name) (hs : operandTrace here m = (.ok s, m')) :
    Records here m m' ↔ Announced here name s := by
  obtain ⟨f, hrule, hline, htext, hf⟩ := outputRule_apply name hs
  rw [announced_iff, Records, statementRule_of_writtenAs? hk, hf]
  by_cases hif : (s.tainted && !s.upload) = true
  · rw [if_pos hif]
    have hflags : s.tainted = true ∧ s.upload = false := by simpa using hif
    exact iff_of_true ⟨f, hrule, hline, htext, rfl⟩ hflags
  · rw [if_neg hif]
    refine iff_of_false ?_ (by simpa using hif)
    rintro ⟨g, -, -, -, hg⟩
    have hsize := congrArg Array.size hg
    simp at hsize

theorem operandTrace_append (hmore : longer.namedChildren = here.namedChildren ++ [x])
    (hs : operandTrace here m = (.ok s, m')) (hx : x.eval m' = (.ok v, n)) :
    operandTrace longer m = (.ok (s.merge (n.trace v)), n) := by
  rw [operandTrace, hmore, List.map_append, mergeRuns_append]
  exact (bind_ok hs).trans (bind_ok hx)

/-- **Only uploads hide what is written.** A value that is reported stays reported after a merge with
another one, on either side, if and only if the other one is no part of an uploaded file; and so for
one more operand of a statement. -/
theorem announced_merge_iff {name : String} (h : Announced here name s) (t : Trace) :
    (Announced here name (s.merge t) ↔ t.upload = false) ∧ (Announced here name (t.merge s) ↔ t.upload = false) ∧
    ∀ (longer x : Code) (m m' n : Memory) (v : ValueId), longer.part = here.part →
      longer.namedChildren = here.namedChildren ++ [x] → writtenAs? here.kind = some name →
      operandTrace here m = (.ok s, m') → x.eval m' = (.ok v, n) →
        Records here m m' ∧ (Records longer m n ↔ (n.trace v).upload = false) := by
  refine ⟨announced_merge_left h, announced_merge_right h, ?_⟩
  intro longer x m m' n v hpart hmore hk hs hx
  have hklonger : writtenAs? longer.kind = some name := by rw [kind, hpart]; exact hk
  have hlonger : Records longer m n ↔ Announced longer name (s.merge (n.trace v)) :=
    records_iff hklonger (operandTrace_append hmore hs hx)
  exact ⟨(records_iff hk hs).mpr h, hlonger.trans (announced_merge_left h)⟩

/-- `echo operands;` -/
def echoOf (operands : List (Tree Part)) : Tree Part := plain "echo_statement" "" operands

/-- `echo $_GET['a'], $_GET['b'];` is recorded, as `echo $_GET['a'];` is. -/
theorem announced_merge_iff_twoEntries :
    ∃ m' n, Records (surface (echoOf [requestEntry "a"])) Memory.empty m' ∧
      Records (surface (echoOf [requestEntry "a", requestEntry "b"])) Memory.empty n := by
  have hs := apply_of_toOption (r := operandTrace (surface (echoOf [requestEntry "a"]))) (m := Memory.empty)
    (a := { tainted := true, sources := ["$_GET['a']"] }) (by decide +kernel)
  have hx := apply_of_toOption (r := (meaningOf (requestEntry "b")).eval)
    (m := (operandTrace (surface (echoOf [requestEntry "a"])) Memory.empty).2) (a := 1) (by decide +kernel)
  have hmore : (surface (echoOf [requestEntry "a", requestEntry "b"])).namedChildren =
      (surface (echoOf [requestEntry "a"])).namedChildren ++ [meaningOf (requestEntry "b")] := by
    rw [namedChildren_surface, namedChildren_surface]
    rfl
  have hshown : Announced (surface (echoOf [requestEntry "a"])) "echo"
      { tainted := true, sources := ["$_GET['a']"] } := announced_iff.mpr ⟨rfl, rfl⟩
  obtain ⟨-, -, hstatement⟩ := announced_merge_iff hshown { tainted := true, sources := ["$_GET['b']"] }
  obtain ⟨hshort, hlong⟩ := hstatement (surface (echoOf [requestEntry "a", requestEntry "b"])) _ _ _ _ _
    rfl hmore rfl hs hx
  exact ⟨_, _, hshort, hlong.mpr (by decide +kernel)⟩

/-- `$_FILES['f']` -/
def uploadedFile : Tree Part :=
  plain "subscript_expression" "$_FILES['f']" [
    plain "variable_name" "$_FILES" [], plain "string" "'f'" [plain "string_content" "f" []]]

/-- `echo $_GET['a'];` is recorded, and `echo $_GET['a'], $_FILES['f'];` is not. -/
theorem upload_hides_request :
    let s : Trace := { tainted := true, sources := ["$_GET['a']"] }
    let t : Trace := { upload := true, sources := ["$_FILES['f']"] }
    let alone := meaningOf (echoOf [requestEntry "a"])
    let beside := meaningOf (echoOf [requestEntry "a", uploadedFile])
    Announced alone "echo" s ∧ ¬Announced alone "echo" (s.merge t) ∧ ¬Announced alone "echo" (t.merge s) ∧
      (alone.process Memory.empty).2.findings.map (·.rule) = #[.output] ∧
      (beside.process Memory.empty).2.findings.map (·.rule) = #[] := by
  intro s t alone beside
  have hs : Announced alone "echo" s := announced_iff.mpr ⟨rfl, rfl⟩
  refine ⟨hs, ?_, ?_, by decide +kernel, by decide +kernel⟩
  · rw [announced_merge_left hs]
    decide
  · rw [announced_merge_right hs]
    decide

end SourceAudit.Taint
