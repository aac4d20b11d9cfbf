/-
# The taint analysis of a program

A program is analysed by running its tree as a block from an empty memory.
The findings are then shown with what is known at the end about the value of
each, the first of those with the same rule, line and excerpt. A program that
exceeds the budget has no findings. A finding leaves the analysis as a row: a document
with the rule, the place and what is known about the value.
-/
import SourceAudit.Taint.Meaning

namespace SourceAudit

/-- The items of a list that are not the same as an earlier one; `done` are those kept so far,
backwards. -/
def firstOfEachFrom {α : Type} (same : α → α → Bool) (done : List α) : List α → List α
  | [] => done.reverse
  | x :: xs =>
    if done.any (same · x) then firstOfEachFrom same done xs
    else firstOfEachFrom same (x :: done) xs

def firstOfEach {α : Type} (same : α → α → Bool) (xs : List α) : List α :=
  firstOfEachFrom same [] xs

namespace Taint

/-- A finding as it is shown: with what is known about its value. -/
structure Shown where
  rule : Rule
  line : Nat
  description : String
  excerpt : String
  sources : List String
  transforms : List String
deriving DecidableEq, Repr, Inhabited

def Memory.shown (m : Memory) (f : Finding) : Shown :=
  let known := m.trace f.value
  ⟨f.rule, f.line, f.description, f.excerpt, known.sources, known.transforms⟩

/-- Two findings say the same: their rule identifiers, lines and excerpts agree. -/
def sameFinding (f g : Finding) : Bool :=
  f.rule.id == g.rule.id && f.line == g.line && f.excerpt == g.excerpt

structure Outcome where
  stop : Option Stop
  memory : Memory

/-- The recorded findings that count: the first of each that say the same after a complete analysis,
none beyond the budget, and all of them after any other stop. -/
def Outcome.findings (o : Outcome) : List Finding :=
  match o.stop with
  | none => firstOfEach sameFinding o.memory.findings.toList
  | some .budget => []
  | some _ => o.memory.findings.toList

def Outcome.shown (o : Outcome) : List Shown :=
  o.findings.map o.memory.shown

def Run.outcome {α : Type} (r : Run α) (m : Memory) : Outcome :=
  match r m with
  | (.ok _, m) => ⟨none, m⟩
  | (.error e, m) => ⟨some e, m⟩

def analyze (t : Tree Part) : Outcome :=
  Run.outcome (meaningOf t).block Memory.empty

/-- Runs an act on some nodes in order, each from the memory that the one before left. -/
def runEach {β : Type} (act : Code → Run β) : Memory → List Code → List (Except Stop β × Memory)
  | _, [] => []
  | m, c :: cs =>
    let (r, m') := act c m
    (r, m') :: runEach act m' cs

/-- The node is the name under which an uploaded file is stored. -/
def isStoredName (here : Code) : Run Bool := do
  if here.kind != "subscript_expression" || subscriptKey? here != some "tmp_name" then return false
  match subscriptBase? here with
  | none => return false
  | some base =>
    if Text.contains base.text "$_FILES" then return true
    else if base.kind == "variable_name" then return (← traceOf base.text).upload
    else
      let v ← base.eval
      return (← read v).upload

def Memory.ofNames (known : List (String × Trace)) (checked : List (List String)) : Memory :=
  let indexed := known.zipIdx
  { Memory.empty with
    store := (known.map (·.2)).toArray
    names := indexed.map fun p => (p.1.1, p.2)
    checked }

end Taint

end SourceAudit

namespace SourceAudit.Taint

/-! ### Rows -/

def Shown.toRow (file : String) (s : Shown) : Value :=
  .object [("type", .str "TaintAnalysis"), ("rule_id", .str s.rule.id), ("rule_name", .str s.rule.title),
    ("severity", .str s.rule.severity), ("file", .str file), ("line", .int s.line),
    ("description", .str s.description), ("match", .str s.excerpt),
    ("details", .object [("sources", .ofStrings s.sources), ("transforms", .ofStrings s.transforms)])]

def Trace.toValue (t : Trace) : Value :=
  .object [("tainted", .bool t.tainted), ("suspicious", .bool t.callable), ("sql", .bool t.statement),
    ("upload", .bool t.upload), ("sources", .ofStrings t.sources),
    ("transforms", .ofStrings t.transforms), ("literals", .ofStrings t.literals)]

/-- Reads a trace from a document; what is missing is not so. -/
def Trace.ofValue (v : Value) : Trace :=
  let flag (name : String) : Bool := (v.field name).truthy
  let texts (name : String) : List String := (v.field name).items.filterMap Value.string?
  { tainted := flag "tainted", callable := flag "suspicious", statement := flag "sql"
    upload := flag "upload", sources := texts "sources", transforms := texts "transforms"
    literals := texts "literals" }

def keyNames : List String :=
  ["rule_id", "line", "match"]

def sameRow (a b : Value) : Bool :=
  keyNames.all fun n => (a.field n).same (b.field n)

def firstRows (rows : List Value) : Except Fault (List Value) :=
  if rows.any fun r => !r.isObject then .error .noSuchPart
  else if rows.any fun r => keyNames.any fun n => !(r.field n).isKey then .error .wrongKind
  else .ok (firstOfEach sameRow rows)

end SourceAudit.Taint
