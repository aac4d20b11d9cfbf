/-
# Where findings stand, and which includes are reported

A finding has the line and the text of a node of the program, and the rule says of which
kind the node is (`placeKinds`). A node may be reported more than once; of the rows that
say the same the first one is shown. The place of a finding is settled when it is
recorded, so it is an invariant in the sense of `Invariant`.

A node that includes a file is reported where it is processed as a statement: then the
value of its path is checked. Where it is evaluated for its value, nothing is checked.
What a visit records is found at the end (`reaches_or_same`). For the other direction
the program is watched for the visits that report an include at some place. The watched
analysis never records such a finding, and if no visit stops it, it is the analysis
itself.
-/
import SourceAudit.Proofs.FirstOccurrences
import SourceAudit.Proofs.Taint.Visits

namespace SourceAudit.Taint

open Tree

/-! ### Places -/

/-- The finding stands at a node of the program where its rule applies. -/
def Finding.Placed (t : Tree Part) (f : Finding) : Prop :=
  ∃ n ∈ t.preorder, f.line = n.line ∧ f.excerpt = n.text ∧ f.rule.reportedAt n.kind = true

theorem placed_invariant (t : Tree Part) :
    Invariant (· ∈ t.preorder) Anything fun m => ∀ f ∈ m.findings, f.Placed t where
  good := fun _ _ => trivial
  count := fun hm => hm
  make := fun hm _ => hm
  extend := fun _ hm _ => hm
  rename := fun _ hm => hm
  find := fun hm hf g hg => by
    rcases Array.mem_push.mp hg with hg | rfl
    · exact hm g hg
    · exact hf.place
  check := fun _ hm => hm

theorem placed_of_mem {t : Tree Part} {f : Finding} (h : f ∈ (analyze t).memory.findings) : f.Placed t :=
  analyze_keeps vouched_anything (placed_invariant t) (fun f hf => by simp [Memory.empty] at hf) t
    (fun _ hn => hn) f h

/-- The kinds of nodes at which results with a rule identifier stand. -/
def placeKinds (id : String) : List String :=
  if id = "PHP_SESSION_TAINT_WRITE" then ["assignment_expression"]
  else if id = "PHP_OUTPUT_TAINT" then ["echo_statement", "print_intrinsic"]
  else if id = "PHP_FILE_INCLUDE_TAINT" then "function_call_expression" :: includeKinds
  else if id = "PHP_SQL_INJECTION_TAINT" then ["function_call_expression", "member_call_expression"]
  else ["function_call_expression"]

theorem mem_placeKinds {rule : Rule} {kind : String} (h : rule.reportedAt kind = true) : kind ∈ placeKinds rule.id := by
  cases rule <;> simp_all [Rule.reportedAt, Rule.id, placeKinds, or_comm]

theorem id_ne_fileRead (rule : Rule) : rule.id ≠ "PHP_FILE_READ_TAINT" := by
  cases rule <;> decide

/-! ### Rows -/

def Outcome.rows (o : Outcome) (file : String) : List Value :=
  o.shown.map (·.toRow file)

/-- The rows of all findings that were recorded, in the order in which they were recorded. -/
def Outcome.recordedRows (o : Outcome) (file : String) : List Value :=
  o.memory.findings.toList.map fun f => (o.memory.shown f).toRow file

def rowKey (row : Value) : Value × Value × Value :=
  (row.field "rule_id", row.field "line", row.field "match")

theorem rowKey_toRow (s : Shown) (file : String) :
    rowKey (s.toRow file) = (.str s.rule.id, .int s.line, .str s.excerpt) := rfl

theorem sameFinding_iff (f g : Finding) :
    sameFinding f g = true ↔ (f.rule.id, f.line, f.excerpt) = (g.rule.id, g.line, g.excerpt) := by
  simp [sameFinding, and_assoc]

/-- After a complete analysis the rows are the first occurrences among those that were recorded. -/
theorem rows_firstOccurrences {o : Outcome} (h : o.stop = none) (file : String) :
    FirstOccurrences rowKey (o.recordedRows file) (o.rows file) := by
  have hfindings : o.findings = firstOfEach sameFinding o.memory.findings.toList := by rw [Outcome.findings, h]
  rw [Outcome.rows, Outcome.shown, hfindings, List.map_map, Outcome.recordedRows]
  refine (firstOccurrences_firstOfEach sameFinding_iff _).map fun f g => ?_
  simp [rowKey_toRow, Memory.shown, Int.natCast_inj]

/-- **Findings stand at nodes, and none is lost.** Each row has the line and the text of a node of a
kind that belongs to its rule; the rows are pairwise different, and are the first occurrences among
all rows that were recorded. -/
theorem rows_placed (t : Tree Part) (file : String) (h : (analyze t).stop = none) :
    (∀ row ∈ (analyze t).rows file, row.field "file" = .str file ∧
      ∃ n ∈ t.preorder, row.field "match" = .str n.text ∧ row.field "line" = .int (n.part.row + 1) ∧
        ∃ id, row.field "rule_id" = .str id ∧ n.kind ∈ placeKinds id ∧ id ≠ "PHP_FILE_READ_TAINT") ∧
    (((analyze t).rows file).map rowKey).Nodup ∧
    FirstOccurrences rowKey ((analyze t).recordedRows file) ((analyze t).rows file) := by
  have hfirst := rows_firstOccurrences h file
  refine ⟨fun row hrow => ?_, hfirst.nodup, hfirst⟩
  obtain ⟨f, hf, rfl⟩ := List.mem_map.mp (hfirst.subset hrow)
  obtain ⟨n, hn, hline, htext, hkind⟩ := placed_of_mem (Array.mem_toList_iff.mp hf)
  refine ⟨rfl, n, hn, ?_, ?_, f.rule.id, rfl, mem_placeKinds hkind, id_ne_fileRead f.rule⟩
  · show Value.str f.excerpt = _
    rw [htext]
  · show Value.int f.line = _
    rw [hline]
    rfl

/-- `array_map($f, eval($_GET['a']));`, where the arguments are evaluated as such and once more for the
callback. -/
def twiceEvaluated : Tree Part :=
  .plain "program" "" [
    .plain "expression_statement" "" [
      .plain "function_call_expression" "" [
        .filling "function" "name" "array_map" [],
        .filling "arguments" "arguments" "" [
          .plain "argument" "$f" [.plain "variable_name" "$f" []],
          .plain "argument" "eval($_GET['a'])" [
            .plain "function_call_expression" "eval($_GET['a'])" [
              .filling "function" "name" "eval" [],
              .filling "arguments" "arguments" "" [.plain "argument" "" [requestEntry "a"]]]]]]]]

theorem rows_placed_twiceEvaluated :
    (analyze twiceEvaluated).memory.findings.size = 2 ∧ ((analyze twiceEvaluated).rows "a.php").length = 1 ∧
    FirstOccurrences rowKey ((analyze twiceEvaluated).recordedRows "a.php") ((analyze twiceEvaluated).rows "a.php") ∧
    ∀ row ∈ (analyze twiceEvaluated).rows "a.php", row.field "file" = .str "a.php" :=
  have h := rows_placed twiceEvaluated "a.php" (by decide +kernel)
  ⟨by decide +kernel, by decide +kernel, h.2.2, fun row hrow => (h.1 row hrow).1⟩

/-! ### Visits of includes -/

/-- The path of an include, evaluated as on a visit with the acts that `g` gives to nodes. -/
def pathRun (g : Tree Part → Code) (n : Tree Part) : Run ValueId := do
  tick
  evalOption (n.namedChildren.head?.map g)

/-- The path of the visited include comes from a request. -/
def Visit.pathTainted (v : Visit) : Bool :=
  match pathRun meaningOf v.node v.memory with
  | (.ok x, m) => (m.trace x).tainted
  | (.error _, _) => false

/-- The visits, in some manner, of an include at some place whose path comes from a request. -/
def taintedInclude (manner : Manner) (line : Nat) (text : String) (v : Visit) : Bool :=
  v.manner = manner && includeKinds.contains v.node.kind && v.node.line == line && v.node.text == text && v.pathTainted

def IncludedAt (line : Nat) (text : String) (f : Finding) : Prop :=
  f.rule = .fileInclude ∧ f.line = line ∧ f.excerpt = text

theorem taintedInclude_eq_true {manner : Manner} {line : Nat} {text : String} {v : Visit} :
    taintedInclude manner line text v = true ↔ v.manner = manner ∧ includeKinds.contains v.node.kind = true ∧
      v.node.line = line ∧ v.node.text = text ∧ v.pathTainted = true := by
  simp [taintedInclude, and_assoc]

section

variable {here : Code}

theorem statementRule_of_include (hk : includeKinds.contains here.kind = true) : statementRule here = includeRule here := by
  unfold statementRule
  split
  any_goals
    rename_i hother
    rw [hother] at hk
    exact absurd hk (by decide)
  rw [if_pos hk]

theorem expressionRule_of_include (hk : includeKinds.contains here.kind = true) (upload : Run (Option ValueId)) :
    expressionRule here upload = evalAll here.namedChildren := by
  unfold expressionRule
  split
  any_goals
    rename_i hother
    rw [hother] at hk
    exact absurd hk (by decide)
  have hstring : isString here = false := by
    simp only [includeKinds, List.contains_cons, List.contains_nil, Bool.or_false, Bool.or_eq_true, beq_iff_eq] at hk
    rw [isString]
    rcases hk with hk | hk | hk | hk <;> rw [hk] <;> decide
  rw [hstring, if_neg Bool.false_ne_true]

theorem processRule_of_include (hk : includeKinds.contains here.kind = true) {g : Tree Part → Code} {n : Tree Part}
    (hn : here.namedChildren = n.namedChildren.map g) :
    processRule here = do
      let x ← pathRun g n
      checkInclude here x
      return x := by
  rw [processRule, statementRule_of_include hk, includeRule, hn, List.head?_map, pathRun, bind_assoc]

variable {m : Memory} {x : ValueId}

theorem checkInclude_of_tainted (here : Code) (h : (m.trace x).tainted = true) :
    ∃ f, IncludedAt here.line here.text f ∧ checkInclude here x m = (.ok (), { m with findings := m.findings.push f }) := by
  unfold checkInclude
  rw [read_bind, if_pos h]
  exact ⟨_, ⟨rfl, rfl, rfl⟩, record_apply _ m⟩

theorem checkInclude_of_untainted (here : Code) (h : (m.trace x).tainted = false) : checkInclude here x m = (.ok (), m) := by
  unfold checkInclude
  rw [read_bind, if_neg (by simp [h])]
  rfl

end

theorem Visit.pathTainted_eq_true {v : Visit} (h : v.pathTainted = true) :
    ∃ x m, pathRun meaningOf v.node v.memory = (.ok x, m) ∧ (m.trace x).tainted = true := by
  unfold Visit.pathTainted at h
  split at h
  · rename_i x m hpath
    exact ⟨x, m, hpath, h⟩
  · cases h

/-- A visit that processes an include whose path comes from a request records it. -/
theorem has_of_taintedInclude {line : Nat} {text : String} {v : Visit}
    (h : taintedInclude .statement line text v = true) {a : ValueId} {m' : Memory} (hv : v.run = (.ok a, m')) :
    m'.Has (IncludedAt line text) := by
  obtain ⟨hmanner, hk, rfl, rfl, htainted⟩ := taintedInclude_eq_true.mp h
  obtain ⟨x, m, hpath, hx⟩ := Visit.pathTainted_eq_true htainted
  obtain ⟨f, hf, hcheck⟩ := checkInclude_of_tainted (surface v.node) hx
  have hrun : v.run = (.ok x, { m with findings := m.findings.push f }) := by
    calc v.run = processRule (surface v.node) v.memory := by
          rw [Visit.run, hmanner, ← process_meaningOf]
      _ = (do
            let x ← pathRun meaningOf v.node
            checkInclude (surface v.node) x
            return x) v.memory := by
          rw [processRule_of_include hk (namedChildren_surface v.node)]
      _ = (do checkInclude (surface v.node) x; return x) m := bind_ok hpath
      _ = (.ok x, { m with findings := m.findings.push f }) := bind_ok hcheck
  obtain ⟨-, rfl⟩ := Prod.mk.inj (hrun.symm.trans hv)
  exact ⟨f, Array.mem_push_self, hf⟩

/-! ### Watching for includes -/

abbrev reporting (line : Nat) (text : String) : Visit → Bool := taintedInclude .statement line text

abbrev Memory.Spares (line : Nat) (text : String) (m : Memory) : Prop := ¬m.Has (IncludedAt line text)

theorem stopAt_holds {I : Memory → Prop} {w : Visit → Bool} {manner : Manner} {n : Tree Part} {r : Run ValueId}
    (h : Holds I Anything r) : Holds I Anything (stopAt w manner n r) := by
  intro m hm
  unfold stopAt
  split
  · exact ⟨hm, fun _ _ => trivial⟩
  · exact h m hm

section

variable {line : Nat} {text : String} {n : Tree Part}

/-- An include at the place can be recorded only at a node at the place. -/
theorem spares_invariant :
    Invariant (fun n => ¬(n.line = line ∧ n.text = text ∧ Rule.fileInclude.reportedAt n.kind = true)) Anything
      (Memory.Spares line text) where
  good := fun _ _ => trivial
  count := fun hm => hm
  make := fun hm _ => hm
  extend := fun _ hm _ => hm
  rename := fun _ hm => hm
  find := fun hm hf hhas => by
    obtain ⟨g, hg, hrule, hline, htext⟩ := hhas
    rcases Array.mem_push.mp hg with hg | rfl
    · exact hm ⟨g, hg, hrule, hline, htext⟩
    · obtain ⟨n, hn, hnline, hntext, hkind⟩ := hf.place
      rw [hrule] at hkind
      exact hn ⟨hnline.symm.trans hline, hntext.symm.trans htext, hkind⟩
  check := fun _ hm => hm

def sparing (line : Nat) (text : String) : Discipline := (@spares_invariant line text).discipline vouched_anything

/-- Where no visit is stopped, the path of an include has the value that it has without being watched. -/
theorem pathRun_of_watched {m m' : Memory} {x : ValueId} (h : pathRun (watched (reporting line text)) n m = (.ok x, m')) :
    pathRun meaningOf n m = (.ok x, m') := by
  have L := watching_lockstep (IncludedAt line text)
  have hfirst : Option.Rel (Paired (watching (IncludedAt line text))) (n.namedChildren.head?.map meaningOf)
      (n.namedChildren.head?.map (watched (reporting line text))) := by
    cases n.namedChildren.head? with
    | none => exact .none
    | some c => exact .some (paired_watched (fun v hv _ _ => has_of_taintedInclude hv) c)
  have hkeep : Holds (watching (IncludedAt line text)).Over Anything (evalOption (n.namedChildren.head?.map meaningOf)) :=
    L.over.evalOption fun c hc => by
      obtain ⟨d, -, rfl⟩ := Option.map_eq_some_iff.mp hc
      exact meaningOf_obeys d (fun n _ => L.over_allows n) _ (mem_preorder_self _)
  have hsim : (watching (IncludedAt line text)).Sim m (fun _ => Eq) (pathRun meaningOf n)
      (pathRun (watched (reporting line text)) n) :=
    L.tick_bind hkeep fun _ _ => L.evalOption_paired hfirst fun _ _ => (suited_watching _).suited
  rcases hsim.watched fun _ _ _ h => h with hsame | ⟨hstopped, -⟩
  · exact hsame.symm.trans h
  · rw [h] at hstopped
    cases hstopped

variable (hb : BelowObey (sparing line text) (face (reporting line text) n))

include hb

theorem pathRun_spares : Holds (Memory.Spares line text) Anything (pathRun (watched (reporting line text)) n) := by
  have hbelow := hb.named
  rw [namedChildren_face] at hbelow
  refine (sparing line text).tick fun _ => (sparing line text).mono ((sparing line text).evalOption fun c hc => hbelow c ?_)
  rw [← List.head?_map] at hc
  exact List.mem_of_head? hc

/-- A watched include at the place records nothing: where it would, it is stopped. -/
theorem process_include_spares (hk : includeKinds.contains n.kind = true) (hline : n.line = line) (htext : n.text = text) :
    Holds (Memory.Spares line text) Anything (watched (reporting line text) n).process := by
  intro m hm
  have hkept := (pathRun_spares hb m hm).1
  rw [process_watched, stopAt]
  split
  · exact ⟨hm, fun _ _ => trivial⟩
  · rename_i hpass
    rw [processRule_of_include hk (namedChildren_face _ n)]
    rcases hx : pathRun (watched (reporting line text)) n m with ⟨e | x, m'⟩
    · rw [hx] at hkept
      rw [bind_error hx]
      exact ⟨hkept, fun _ _ => trivial⟩
    · rw [hx] at hkept
      have htainted : (⟨.statement, n, m⟩ : Visit).pathTainted = (m'.trace x).tainted := by
        rw [Visit.pathTainted, pathRun_of_watched hx]
      have huntainted : (m'.trace x).tainted = false := by
        rw [← htainted]
        by_contra hpath
        exact hpass (taintedInclude_eq_true.mpr ⟨rfl, hk, hline, htext, by simpa using hpath⟩)
      rw [bind_ok hx, bind_ok (checkInclude_of_untainted _ huntainted)]
      exact ⟨hkept, fun _ _ => trivial⟩

theorem actsObey_of_rules (hprocess : Holds (Memory.Spares line text) Anything (watched (reporting line text) n).process)
    (hupload : Holds (Memory.Spares line text) Anything (uploadRule (face (reporting line text) n)))
    (hvalue : Holds (Memory.Spares line text) Anything
      (evalRule (face (reporting line text) n) (uploadRule (face (reporting line text) n)))) :
    ActsObey (sparing line text) (watched (reporting line text) n) := by
  have heval : Holds (Memory.Spares line text) Anything (watched (reporting line text) n).eval := by
    rw [eval_watched]
    exact stopAt_holds (Holds.ite (fun _ => spares_invariant.tick_holds.bind fun _ _ => hprocess) fun _ => hvalue)
  refine ⟨Holds.weaken heval fun _ _ => Or.inl trivial, fun _ => hprocess, fun _ => ?_, ?_, ?_⟩
  · rw [block_watched]
    exact (sparing line text).blockRule_obeys hb trivial
  · rw [upload_watched]
    exact Holds.weaken hupload fun _ _ _ _ => trivial
  · rw [risky_watched]
    exact (sparing line text).riskyRule_obeys hb heval

/-- A watched node spares the place, unless it is a call at the place. -/
theorem actsObey_sparing (hcall : n.kind = "function_call_expression" → ¬(n.line = line ∧ n.text = text)) :
    ActsObey (sparing line text) (watched (reporting line text) n) := by
  by_cases hplace : n.line = line ∧ n.text = text ∧ Rule.fileInclude.reportedAt n.kind = true
  · obtain ⟨hline, htext, hkind⟩ := hplace
    have hk : includeKinds.contains n.kind = true := by
      rcases (Bool.or_eq_true _ _).mp hkind with hk | hk
      · exact hk
      · exact absurd ⟨hline, htext⟩ (hcall (eq_of_beq hk))
    have hne : n.kind ≠ "subscript_expression" := by
      intro hsubscript
      rw [hsubscript] at hk
      exact absurd hk (by decide)
    apply actsObey_of_rules hb (process_include_spares hb hk hline htext)
    · rw [uploadRule, kind_face, if_pos (by simpa using hne)]
      exact Holds.pure trivial
    · rw [evalRule, expressionRule_of_include hk]
      exact (sparing line text).tick fun _ => (sparing line text).any ((sparing line text).evalAll hb.named)
  · rw [← bare_face (reporting line text) n] at hplace
    have hallows : (sparing line text).Allows (face (reporting line text) n).bare :=
      spares_invariant.allows vouched_anything hplace
    apply actsObey_of_rules hb
    · rw [process_watched]
      exact stopAt_holds ((sparing line text).processRule_obeys hb hallows (Or.inl trivial))
    · exact (sparing line text).any ((sparing line text).uploadRule_obeys hb hallows)
    · exact (sparing line text).tick fun _ => (sparing line text).any ((sparing line text).expressionRule_obeys hb hallows)

end

theorem watched_spares {line : Nat} {text : String} (t : Tree Part)
    (hcall : ∀ n ∈ t.preorder, n.kind = "function_call_expression" → ¬(n.line = line ∧ n.text = text)) :
    ∀ d ∈ t.preorder, ActsObey (sparing line text) (watched (reporting line text) d) := by
  induction t using ind with
  | h part cs ih =>
    have hcs : ∀ c ∈ cs, ∀ d ∈ c.preorder, ActsObey (sparing line text) (watched (reporting line text) d) :=
      fun c hc => ih c hc fun n hn => hcall n (mem_preorder_node.mpr (Or.inr ⟨c, hc, hn⟩))
    have hb : BelowObey (sparing line text) (face (reporting line text) (node part cs)) := by
      intro x hx y hy
      obtain ⟨c, hc, rfl⟩ := List.mem_map.mp hx
      rw [preorder_watched] at hy
      obtain ⟨d, hd, rfl⟩ := List.mem_map.mp hy
      exact hcs c hc d hd
    intro d hd
    rcases mem_preorder_node.mp hd with rfl | ⟨c, hc, hd⟩
    · exact actsObey_sparing hb (hcall _ hd)
    · exact hcs c hc d hd

/-! ### The rows of includes -/

theorem rule_of_id {rule : Rule} (h : rule.id = "PHP_FILE_INCLUDE_TAINT") : rule = .fileInclude := by
  cases rule <;> first | rfl | exact absurd h (by decide)

def includeKey (line : Nat) (text : String) : Value × Value × Value :=
  (.str "PHP_FILE_INCLUDE_TAINT", .int line, .str text)

/-- After a complete analysis there is a row about an include at a place if one was recorded there. -/
theorem includeKey_mem_rows {o : Outcome} (h : o.stop = none) (file : String) (line : Nat) (text : String) :
    includeKey line text ∈ (o.rows file).map rowKey ↔ o.memory.Has (IncludedAt line text) := by
  have hfirst := rows_firstOccurrences h file
  constructor
  · intro hmem
    obtain ⟨row, hrow, hkey⟩ := List.mem_map.mp hmem
    obtain ⟨f, hf, rfl⟩ := List.mem_map.mp (hfirst.subset hrow)
    simp only [rowKey_toRow, includeKey, Memory.shown, Prod.mk.injEq, Value.str.injEq, Value.int.injEq,
      Int.natCast_inj] at hkey
    exact ⟨f, Array.mem_toList_iff.mp hf, rule_of_id hkey.1, hkey.2⟩
  · rintro ⟨f, hf, hrule, rfl, rfl⟩
    have hrecorded : (o.memory.shown f).toRow file ∈ o.recordedRows file :=
      List.mem_map_of_mem (Array.mem_toList_iff.mpr hf)
    obtain ⟨row, hrow, hkey⟩ := hfirst.exists_key hrecorded
    refine List.mem_map.mpr ⟨row, hrow, hkey.trans ?_⟩
    rw [rowKey_toRow, includeKey, Memory.shown, hrule]
    rfl

/-- **An include is reported where it is processed.** A complete analysis has a row about an include
at a place if it comes to process one there whose path comes from a request; and, if no call stands at
the place, only then. -/
theorem include_reported_iff (t : Tree Part) (file : String) (line : Nat) (text : String)
    (h : (analyze t).stop = none) :
    (Reaches t (taintedInclude .statement line text) →
      includeKey line text ∈ ((analyze t).rows file).map rowKey) ∧
    ((∀ n ∈ t.preorder, n.kind = "function_call_expression" → ¬(n.line = line ∧ n.text = text)) →
      includeKey line text ∈ ((analyze t).rows file).map rowKey →
        Reaches t (taintedInclude .statement line text)) := by
  rw [includeKey_mem_rows h]
  rcases reaches_or_same (fun v hv _ _ => has_of_taintedInclude hv) h with ⟨hreaches, hhas⟩ | ⟨hnot, hsame⟩
  · exact ⟨fun _ => hhas, fun _ _ => hreaches⟩
  · refine ⟨fun hreaches => absurd hreaches hnot, fun hcall hhas => absurd hhas ?_⟩
    have hempty : Memory.empty.Spares line text := fun ⟨_, hf, _⟩ => Array.not_mem_empty _ hf
    have hspares := (watched_spares t hcall t (mem_preorder_self t)).block trivial Memory.empty hempty
    rw [analyze, Run.outcome_memory, ← hsame]
    exact hspares.1

/-- `include $_GET['f']` -/
def requestInclude : Tree Part := .filling "right" "include_expression" "include $_GET['f']" [requestEntry "f"]

/-- `include $_GET['f'];` -/
def includeStatement : Tree Part := .plain "program" "" [.plain "expression_statement" "" [requestInclude]]

/-- The statement is reported, since the analysis comes to process it. -/
theorem include_reported_iff_statement :
    Reaches includeStatement (taintedInclude .statement 1 "include $_GET['f']") ∧
      includeKey 1 "include $_GET['f']" ∈ ((analyze includeStatement).rows "a.php").map rowKey := by
  have hreaches : Reaches includeStatement (taintedInclude .statement 1 "include $_GET['f']") := by
    unfold Reaches
    decide +kernel
  exact ⟨hreaches, (include_reported_iff includeStatement "a.php" 1 _ (by decide +kernel)).1 hreaches⟩

/-- `$x = include $_GET['f'];` -/
def assignedInclude : Tree Part :=
  .plain "program" "" [
    .plain "expression_statement" "" [
      .plain "assignment_expression" "" [.filling "left" "variable_name" "$x" [], requestInclude]]]

/-- An include that is assigned is evaluated, its path comes from a request, and nothing is reported. -/
theorem assigned_include_unreported :
    (analyze assignedInclude).stop = none ∧
      Reaches assignedInclude (taintedInclude .value 1 "include $_GET['f']") ∧
      (analyze assignedInclude).rows "a.php" = [] := by
  unfold Reaches
  decide +kernel

end SourceAudit.Taint
