/-
# What a node means to the analysis

Each node of a syntax tree is given its acts: how it is evaluated as an
expression, how it is processed as a statement or a block, whether it is an
uploaded file, and whether it puts a risky value into a text. The acts of a
node are made of the acts of the nodes below it, so the analysis is a
decoration of the tree, and no rule calls itself.
-/
import SourceAudit.Codec.Base64
import SourceAudit.Codec.Escapes
import SourceAudit.Taint.Sink

namespace SourceAudit.Taint

def isBase64Char (c : Char) : Bool :=
  (Base64.value? c).isSome || c == '='

def base64Text? (cs : List Char) : Option String :=
  (Base64.decode? (Base64.padded cs)).map Utf8.decodeValid

/-- The texts that a Base64 text may stand for: as it is and, if that differs, cleaned. -/
def base64Texts (s : String) : List String :=
  let cs := s.toList
  let clean := cs.filter isBase64Char
  let candidates := if clean == cs then [cs] else [cs, clean]
  candidates.filterMap base64Text?

/-- The texts that a decoding function may give for a text. Those that are not read here give
none. -/
def decodings (decoder s : String) : List String :=
  if decoder == "base64_decode" then base64Texts s
  else if decoder == "str_rot13" then [Codec.rotate s]
  else if decoder == "urldecode" || decoder == "rawurldecode" then [Codec.percentDecode s]
  else if decoder == "hex2bin" then ((Codec.hexDecode? s.toList).map Utf8.decodeValid).toList
  else []

/-- The texts that a decoding function may give for a literal argument; empty ones do not count. -/
def decodedLiterals {α : Type} [HasPart α] (decoder : String) (t : Tree α) : List String :=
  match literal? t with
  | none => []
  | some s => if s == "" then [] else (decodings decoder s).filter (· != "")

/-! ### Acts -/

structure Acts where
  /-- The value of the node as an expression. -/
  eval : Run ValueId
  /-- The value of the node as a statement. -/
  process : Run ValueId
  /-- The statements of the node one after the other. -/
  block : Run Unit
  /-- The value of the node if it is part of an uploaded file. -/
  upload : Run (Option ValueId)
  risky : Run Bool
deriving Inhabited

structure Meaning where
  part : Part
  acts : Acts
deriving Inhabited

instance : HasPart Meaning := ⟨Meaning.part⟩

end SourceAudit.Taint

namespace SourceAudit.Tree

open Taint (Meaning Run ValueId)

def eval (c : Tree Meaning) : Run ValueId := c.label.acts.eval

def process (c : Tree Meaning) : Run ValueId := c.label.acts.process

def block (c : Tree Meaning) : Run Unit := c.label.acts.block

def upload (c : Tree Meaning) : Run (Option ValueId) := c.label.acts.upload

def risky (c : Tree Meaning) : Run Bool := c.label.acts.risky

end SourceAudit.Tree

namespace SourceAudit.Taint

abbrev Code := Tree Meaning

/-- The value of an expression that may be missing: then nothing is known about it. -/
def evalOption : Option Code → Run ValueId
  | some c => c.eval
  | none => do
    tick
    fresh {}

def evalAll (cs : List Code) : Run ValueId :=
  mergedValue (cs.map (·.eval))

def processAll (cs : List Code) : Run ValueId :=
  mergedValue (cs.map (·.process))

def runAll : List (Run Unit) → Run Unit
  | [] => pure ()
  | r :: rs => do
    r
    runAll rs

def isFiller (c : Code) : Bool :=
  c.kind == "php_tag" || c.kind == ";" || c.kind == ","

def blockRule (here : Code) : Run Unit := do
  tick
  runAll ((here.children.filter (!isFiller ·)).map fun c => do let _ ← c.process)

/-- What is known about part `key` of an uploaded file: the request chooses all of it but the stored
name, the size and the error code. -/
def uploadPart (here : Code) : Trace :=
  match subscriptKey? here with
  | some "tmp_name" | some "size" | some "error" => {}
  | _ => { tainted := true, upload := true, sources := [here.text] }

/-- Whether what is subscripted is an uploaded file. -/
def uploadEntry (base : Code) : Run Bool := do
  if base.kind == "subscript_expression" then
    match ← base.upload with
    | none => throw .nestedSubscript
    | some v => return (← read v).upload
  else if base.kind == "variable_name" then return (← traceOf base.text).upload
  else return false

/-- A subscript that leads to an uploaded file, or to a part of one. -/
def uploadRule (here : Code) : Run (Option ValueId) := do
  if here.kind != "subscript_expression" then return none
  match subscriptBase? here with
  | none => return none
  | some base =>
    if base.kind == "variable_name" && base.text == "$_FILES" then
      return some (← fresh { upload := true, sources := [here.text] })
    else do
      let entry ← uploadEntry base
      if entry then return some (← fresh (uploadPart here)) else return none

def variableRule (here : Code) : Run ValueId :=
  if superglobals.contains here.text then fresh { tainted := true, sources := [here.text] }
  else valueOf here.text

/-- The value of a subscript that is no uploaded file: nothing known if a condition has checked it,
the value stored under it, or an entry of a request array. -/
def subscriptValue (here : Code) : Run ValueId := do
  let key := Text.removeBlanks here.text
  let checked ← isChecked key
  let stored ← lookup? key
  if key != "" && checked then fresh {}
  else
    match if key == "" then none else stored with
    | some v => return v
    | none =>
      match clientChosen? here with
      | some true => fresh { tainted := true, sources := [here.text] }
      | some false => fresh {}
      | none =>
        if isFilesEntry here then
          fresh { tainted := true, upload := true, sources := [here.text] }
        else if isSuperglobalEntry here then
          fresh { tainted := true, sources := [here.text] }
        else evalAll here.children

def subscriptRule (here : Code) (upload : Run (Option ValueId)) : Run ValueId := do
  match ← upload with
  | some v => return v
  | none => subscriptValue here

/-- A choice between two values. If a validator decides and the value in its absence is not tainted,
the result is as good as checked. -/
def conditionalRule (here : Code) : Run ValueId := do
  let named := here.namedChildren
  match named with
  | test :: _ :: other :: _ =>
    if isValidatorCall test then
      let v ← other.eval
      if (← read v).tainted then evalAll named
      else fresh { transforms := [Text.lower ((methodName? test).getD "validator")] }
    else evalAll named
  | _ => evalAll named

/-- The value of a cast: nothing is known about a number or truth value. -/
def castRule (here : Code) : Run ValueId :=
  let target := ((here.childOfKind? "cast_type").map fun c => Text.lower c.text).getD ""
  if scalarCasts.contains target then fresh {}
  else evalAll (here.namedChildren.filter (·.kind != "cast_type"))

/-- One of the runs says yes; the runs after it are not done. -/
def anyRun : List (Run Bool) → Run Bool
  | [] => pure false
  | r :: rs => do
    if ← r then return true else anyRun rs

def riskyParts (here : Code) : Run Bool :=
  anyRun (here.namedChildren.map (·.risky))

def riskNote (here : Code) : Run (List String) := do
  let risky ← riskyParts here
  return if risky then ["dynamic-sql-template"] else []

/-- The value of a string with the values put into it. A string that reads like a database statement
is marked as one. -/
def stringRule (here : Code) : Run ValueId := do
  let content := stringContent here
  let known ← mergeRuns { literals := if content == "" then [] else [content] }
    (here.namedChildren.map (·.eval))
  if looksLikeStatement here.text then
    let added ← riskNote here
    fresh { known with statement := true, transforms := known.transforms ++ added }
  else fresh known

/-- The value of an expression with two operands, as if they were texts put one after the other. -/
def binaryRule (here : Code) : Run ValueId := do
  let named := here.namedChildren
  let left ← evalOption named[0]?
  let right ← evalOption named[1]?
  fresh ((← read left).concat (← read right))

/-- The value of what a decoding function is given, with the texts that come out. -/
def decodedTrace (name : String) (args : List Code) (known : Trace) : Trace :=
  let decoded := args.flatMap (decodedLiterals name)
  let dangerous := decoded.filter fun s => dangerousNames.contains (Text.lower s)
  { tainted := known.tainted
    callable := !decoded.isEmpty || known.callable
    sources := known.sources
    transforms := known.transforms ++ name :: (decoded.take 3).map (s!"{name}->" ++ ·) ++
      dangerous.map ("dangerous:" ++ ·)
    literals := known.literals ++ decoded }

/-- The callback of a function that calls another, and its other arguments. -/
def callbackRule (here : Code) (name : String) : Run Unit := do
  match arguments here with
  | [] => return ()
  | first :: others =>
    let callback := match literal? first with
      | some "" | none => variableName? (some first)
      | some s => some s
    let v ← first.eval
    let rest ← mergeRuns {} (others.map (·.eval))
    checkCallback here name callback (← read v) rest

def moveRule (here : Code) : Run Unit := do
  match arguments here with
  | _ :: destination :: _ =>
    let v ← destination.eval
    checkUploadDestination here v
  | _ => return ()

def checkCall (here : Code) (name : String) (v : ValueId) : Run Unit := do
  checkNamedSink here name v
  if callbackSinks.contains name then callbackRule here name

/-- The result of a function that neither makes nor clears a value. -/
def passedValue (here : Code) (name : String) (v : ValueId) : Run ValueId := do
  if digests.contains name then fresh {}
  else if decoders.contains name then do
    let known ← read v
    fresh (decodedTrace name (arguments here) known)
  else if escapers.contains name then do
    learn v fun t => { t with transforms := t.transforms ++ [name] }
    return v
  else return v

/-- The result of a function that is called by its name with a value, after the checks. -/
def callResult (here : Code) (name : String) (v : ValueId) : Run ValueId :=
  if name == "cookie" && (arguments here).length == 1 then
    fresh { tainted := true, sources := [here.text], transforms := ["cookie"] }
  else if sanitizers.contains name then fresh {}
  else if name == "unserialize" then do
    checkUnserialize here v
    passedValue here name v
  else passedValue here name v

/-- A call of a function by its name in lower case; `v` is the value of all arguments. -/
def namedCallRule (here : Code) (name : String) (v : ValueId) : Run ValueId := do
  if name == "file_get_contents" && readsBody (arguments here) then
    fresh { tainted := true, sources := ["php://input"], transforms := [here.text] }
  else if name == "move_uploaded_file" then do
    moveRule here
    fresh {}
  else if fileReaders.contains name then throw .fileRead
  else if queryFunctions.contains name then do
    checkQuery here name v
    fresh {}
  else do
    checkCall here name v
    callResult here name v

/-- A call of a function, by name or by the name that a variable holds; `v` is the value of all
arguments. -/
def calledValue (here : Code) (v : ValueId) : Run ValueId := do
  match functionName? (here.field? "function") with
  | some name =>
    if name != "" then namedCallRule here (Text.lower name) v else return v
  | none =>
    match variableName? (here.field? "function") with
    | some name =>
      checkDynamicCall here name (← traceOf name) (← read v) v
      fresh {}
    | none => return v

def callRule (here : Code) : Run ValueId := do
  let v ← evalAll (arguments here)
  calledValue here v

/-- A call of a method: it may read the request, check its arguments or send a statement; `v` is the
value of all arguments. -/
def methodValue (here : Code) (v : ValueId) : Run ValueId := do
  match methodName? here with
  | none => return v
  | some name =>
    if name == "" then return v
    else if readsRequest here name then
      fresh { tainted := true, sources := [here.text], transforms := [s!"request->{name}"] }
    else if validatorMethods.contains (Text.lower name) then
      fresh { transforms := [Text.lower name] }
    else if queryMethods.contains (Text.lower name) then do
      checkQuery here s!"->{name}" v
      fresh {}
    else return v

def methodCallRule (here : Code) : Run ValueId := do
  let v ← evalAll (arguments here)
  methodValue here v

/-- A database statement that holds a value from a request notes the name it is stored under and the
expression it comes from. -/
def noteStatement (name : String) (right : Option Code) (v : ValueId) : Run Unit := do
  match right with
  | none => return ()
  | some r =>
    let add (t : Trace) (x : String) : Trace :=
      if t.transforms.contains x then t else { t with transforms := t.transforms ++ [x] }
    let known ← read v
    if known.statement && known.tainted then learn v fun t => add (add t name) r.text

def markCallable (v : ValueId) : Run Unit := do
  if (← read v).namesDanger then learn v fun t => { t with callable := true }

def assignedValue : Option Code → Run ValueId
  | some r => r.eval
  | none => fresh {}

def storeVariable (left right : Option Code) (v : ValueId) : Run Unit := do
  match variableName? left with
  | some name =>
    if name != "" then
      markCallable v
      bindName name v
      noteStatement name right v
  | none => return ()

def storeEntry (here : Code) (left : Option Code) (v : ValueId) : Run Unit := do
  match accessKey? left with
  | some key =>
    if key != "" then
      checkSessionWrite here key v
      bindName key v
  | none => return ()

def assignmentRule (here : Code) : Run ValueId := do
  let v ← assignedValue (here.field? "right")
  storeVariable (here.field? "left") (here.field? "right") v
  storeEntry here (here.field? "left") v
  return v

/-- The condition of a statement: its first named child in parentheses. -/
def isCondition {α : Type} [HasPart α] (c : Tree α) : Bool :=
  c.isNamed && c.kind == "parenthesized_expression"

def branches {α : Type} [HasPart α] (here : Tree α) : List (Tree α) :=
  (here.children.eraseP isCondition).filter (·.isNamed)

/-- The branches of an `if` in order. In its first block the expressions that the condition checks
count as checked. -/
def ifBranches (checked : List String) : (bodySeen : Bool) → Trace → List Code → Run Trace
  | _, known, [] => pure known
  | bodySeen, known, c :: cs => do
    if c.kind == "compound_statement" && !bodySeen then
      within checked c.block
      ifBranches checked true known cs
    else
      let v ← c.process
      ifBranches checked bodySeen (known.merge (← read v)) cs

/-- What is known about the value of a condition; nothing if there is none. -/
def conditionTrace : Option Code → Run Trace
  | some c => do
    let v ← c.eval
    read v
  | none => return {}

def ifRule (here : Code) : Run ValueId := do
  let condition := here.children.find? isCondition
  let known ← conditionTrace condition
  let known ← ifBranches ((condition.map validatedInputs).getD []) false known (branches here)
  fresh known

def joinName (joined : List (String × Trace)) (name : String) (t : Trace) : List (String × Trace) :=
  match joined.find? (·.1 == name) with
  | some _ => joined.map fun p => if p.1 == name then (name, p.2.merge t) else p
  | none => joined ++ [(name, ({} : Trace).merge t)]

/-- Joins what a memory knows about its names into what was known before. -/
def joinNames (m : Memory) (joined : List (String × Trace)) : List (String × Trace) :=
  m.names.foldl (fun js p => joinName js p.1 (m.trace p.2)) joined

/-- The cases of a `switch`, each from the names `base`: the merged value, and what is known about
each name after one of the cases. -/
def switchCases (base : List (String × ValueId)) :
    Trace → List (String × Trace) → List Code → Run (Trace × List (String × Trace))
  | known, joined, [] => pure (known, joined)
  | known, joined, c :: cs => do
    modify fun m => { m with names := base }
    let v ← c.process
    let known := known.merge (← read v)
    switchCases base known (joinNames (← get) joined) cs

def switchParts (base : List (String × ValueId)) :
    Trace → List (String × Trace) → List Code → Run (Trace × List (String × Trace))
  | known, joined, [] => pure (known, joined)
  | known, joined, c :: cs => do
    if c.kind == "switch_block" then
      let (known, joined) ← switchCases base known joined c.namedChildren
      switchParts base known joined cs
    else
      let v ← c.process
      switchParts base (known.merge (← read v)) joined cs

/-- Binds each name to what was known about it before and after the cases. -/
def bindJoined : List (String × Trace) → Run Unit
  | [] => pure ()
  | (name, t) :: rest => do
    let before ← traceOf name
    bindName name (← fresh (before.merge t))
    bindJoined rest

/-- The end of a `switch`: the names are those before the cases, joined with what is known after. -/
def leaveSwitch (base : List (String × ValueId)) (known : Trace) (joined : List (String × Trace)) :
    Run ValueId := do
  modify fun m => { m with names := base }
  bindJoined joined
  fresh known

/-- A `switch` after its condition, of which `known` is known. -/
def switchBody (here : Code) (known : Trace) (base : List (String × ValueId)) : Run ValueId := do
  let (known, joined) ← switchParts base (({} : Trace).merge known) [] (branches here)
  leaveSwitch base known joined

/-- A `switch`: each case starts from the same names, and what is known after the cases is joined. -/
def switchRule (here : Code) : Run ValueId := do
  let known ← conditionTrace (here.children.find? isCondition)
  switchBody here known (← get).names

/-- A case of a `switch`: its statements, without the value that selects it. -/
def caseRule (here : Code) : Run ValueId :=
  processAll (here.namedChildren.filter fun c =>
    !(c.kind == "string" || c.kind == "integer" || c.kind == "float" || c.kind == "name"))

def outputRule (here : Code) (name : String) : Run ValueId := do
  let v ← evalAll here.namedChildren
  checkOutput here name v
  return v

def includeRule (here : Code) : Run ValueId := do
  let v ← evalOption here.namedChildren.head?
  checkInclude here v
  return v

def statementRule (here : Code) : Run ValueId :=
  match here.kind with
  | "expression_statement" => processAll here.children
  | "assignment_expression" => assignmentRule here
  | "if_statement" => ifRule here
  | "switch_statement" => switchRule here
  | "case_statement" | "default_statement" => caseRule here
  | "function_call_expression" => callRule here
  | "member_call_expression" => methodCallRule here
  | "echo_statement" => outputRule here "echo"
  | "print_intrinsic" => outputRule here "print"
  | kind => if includeKinds.contains kind then includeRule here else processAll here.namedChildren

def processRule (here : Code) : Run ValueId := do
  tick
  statementRule here

def expressionRule (here : Code) (upload : Run (Option ValueId)) : Run ValueId :=
  match here.kind with
  | "variable_name" => variableRule here
  | "subscript_expression" => subscriptRule here upload
  | "assignment_expression" => processRule here
  | "conditional_expression" => conditionalRule here
  | "cast_expression" => castRule here
  | "function_call_expression" => callRule here
  | "member_call_expression" => methodCallRule here
  | "binary_expression" => binaryRule here
  | _ => if isString here then stringRule here else evalAll here.namedChildren

def evalRule (here : Code) (upload : Run (Option ValueId)) : Run ValueId := do
  tick
  expressionRule here upload

/-- An access that puts a risky value into a text: its value is tainted, or its first part is risky. -/
def riskyAccess (here : Code) (eval : Run ValueId) : Run Bool := do
  let v ← eval
  if (← read v).tainted then return true
  else
    match here.namedChildren.head? with
    | some base => base.risky
    | none => return true

/-- A node that puts a risky value into a text: a request array, a tainted variable or access, or
any node below. -/
def riskyRule (here : Code) (eval : Run ValueId) : Run Bool := do
  match here.kind with
  | "variable_name" =>
    if superglobals.contains here.text then return true
    else return (← traceOf here.text).tainted
  | "subscript_expression" | "member_access_expression" => riskyAccess here eval
  | _ => riskyParts here

/-- The acts of a node, made of those of the nodes below it. -/
def meaningRule (part : Part) (parts : List Code) : Meaning :=
  let here : Code := .node ⟨part, default⟩ parts
  let upload := uploadRule here
  let eval := evalRule here upload
  ⟨part, { eval, process := processRule here, block := blockRule here, upload, risky := riskyRule here eval }⟩

def meaningOf (t : Tree Part) : Code :=
  t.decorate meaningRule

end SourceAudit.Taint
