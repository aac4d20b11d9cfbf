/-
# The memory of an analysis

A trace collects what is known about one value: whether it comes from a request, where
from, what it went through, and which texts it may be.

An evaluation gives a value a number, and the store keeps what is known about
each value. Names are bound to values and findings point at values, so what is
learnt later about a value, for instance under which name it was stored, shows
wherever the value is known. A run either gives a result or stops, and the memory is
kept in both cases.
-/

namespace SourceAudit.Taint

structure Trace where
  /-- The value comes from a request. -/
  tainted : Bool := false
  /-- The value may name a dangerous function. -/
  callable : Bool := false
  /-- The value is the text of a database statement. -/
  statement : Bool := false
  /-- The value describes an uploaded file. -/
  upload : Bool := false
  sources : List String := []
  transforms : List String := []
  /-- The texts that the value may be. -/
  literals : List String := []
deriving DecidableEq, Repr, Inhabited

/-- Appends the items of `right` that are not there yet, until there are `limit`. -/
def extendTo (limit : Int) (done : List String) : List String → List String
  | [] => done
  | x :: xs =>
    if done.contains x then extendTo limit done xs
    else if limit ≤ (done ++ [x]).length then done ++ [x]
    else extendTo limit (done ++ [x]) xs

/-- The first `limit` items; a negative limit counts from the end. -/
def takeTo (limit : Int) (xs : List String) : List String :=
  if 0 ≤ limit then xs.take limit.toNat else xs.take (xs.length - (-limit).toNat)

/-- The items of `left` up to the limit, and then those of `right` that are new, until the limit is
reached. -/
def mergeLimited (left right : List String) (limit : Int) : List String :=
  extendTo limit (takeTo limit left) right

def maxItems : Int := 40

def maxLiterals : Nat := 12

/-- What is known about a value that is made of two. -/
def Trace.merge (a b : Trace) : Trace where
  tainted := a.tainted || b.tainted
  callable := a.callable || b.callable
  statement := a.statement || b.statement
  upload := a.upload || b.upload
  sources := mergeLimited a.sources b.sources maxItems
  transforms := mergeLimited a.transforms b.transforms maxItems
  literals := mergeLimited a.literals b.literals maxLiterals

def concatenations (left right : List String) : List String :=
  (left.take maxLiterals).flatMap fun l => (right.take maxLiterals).map fun r => l ++ r

def Trace.concat (a b : Trace) : Trace :=
  let merged := a.merge b
  { merged with
    literals := mergeLimited merged.literals (concatenations a.literals b.literals) maxLiterals }

/-- The sources in a message, or a word for them if none is known. -/
def Trace.origin (t : Trace) (unknown : String) : String :=
  if t.sources.isEmpty then unknown
  else
    let text := ", ".intercalate t.sources
    if text.isEmpty then unknown else text

/-! ### Memories and runs -/

abbrev ValueId := Nat

inductive Rule where
  | codeExec
  | commandExec
  | commandSuspicious
  | dynamicName
  | dynamicBackdoor
  | dynamicCall
  | query
  | fileInclude
  | unserialize
  | sessionWrite
  | output
  | uploadDestination
  | pregReplace
  | pregReplaceSuspicious
  | callbackName
  | callback
  | callbackSuspicious
  /-- A dangerous function that is handed all output. -/
  | bufferCallback
deriving DecidableEq, Repr, Inhabited

def Rule.id : Rule → String
  | .codeExec => "PHP_CODE_EXEC_TAINT"
  | .commandExec => "PHP_COMMAND_EXEC_TAINT"
  | .commandSuspicious => "PHP_COMMAND_EXEC_SUSPICIOUS"
  | .dynamicName => "PHP_DYNAMIC_FUNCTION_NAME_TAINT"
  | .dynamicBackdoor => "PHP_DYNAMIC_BACKDOOR"
  | .dynamicCall => "PHP_DYNAMIC_TAINT_CALL"
  | .query => "PHP_SQL_INJECTION_TAINT"
  | .fileInclude => "PHP_FILE_INCLUDE_TAINT"
  | .unserialize => "PHP_UNSERIALIZE_TAINT"
  | .sessionWrite => "PHP_SESSION_TAINT_WRITE"
  | .output => "PHP_OUTPUT_TAINT"
  | .uploadDestination => "PHP_UPLOAD_TAINTED_DESTINATION"
  | .pregReplace => "PHP_PREG_REPLACE_E_TAINT"
  | .pregReplaceSuspicious => "PHP_PREG_REPLACE_E_SUSPICIOUS"
  | .callbackName => "PHP_DYNAMIC_CALLBACK_NAME_TAINT"
  | .callback => "PHP_CALLBACK_TAINT"
  | .callbackSuspicious => "PHP_CALLBACK_SUSPICIOUS_COMMAND"
  | .bufferCallback => "PHP_CALLBACK_SUSPICIOUS_COMMAND"

def Rule.title : Rule → String
  | .codeExec => "用户输入进入代码执行函数"
  | .commandExec => "用户输入进入命令执行函数"
  | .commandSuspicious => "命令执行函数运行可疑命令"
  | .dynamicName => "用户输入控制动态函数名"
  | .dynamicBackdoor => "可疑动态函数后门"
  | .dynamicCall => "动态函数调用用户输入"
  | .query => "用户输入进入 SQL 查询"
  | .fileInclude => "用户输入进入文件包含函数"
  | .unserialize => "用户输入进入反序列化"
  | .sessionWrite => "用户输入写入 Session"
  | .output => "用户输入输出到响应"
  | .uploadDestination => "上传文件保存路径可控"
  | .pregReplace => "preg_replace /e 代码执行"
  | .pregReplaceSuspicious => "preg_replace /e 执行可疑命令"
  | .callbackName => "用户输入控制动态回调"
  | .callback => "用户输入进入危险回调"
  | .callbackSuspicious => "危险回调运行可疑命令"
  | .bufferCallback => "危险输出缓冲回调"

def Rule.severity : Rule → String
  | .dynamicCall | .query | .fileInclude | .unserialize | .sessionWrite | .output
  | .uploadDestination => "High"
  | _ => "Critical"

/-- A finding: where it is, what it says, and the value it is about. -/
structure Finding where
  rule : Rule
  line : Nat
  description : String
  excerpt : String
  value : ValueId
deriving DecidableEq, Repr, Inhabited

inductive Stop where
  | budget
  /-- A file is read, which the analysis cannot judge. -/
  | fileRead
  /-- A subscript of a subscript that is no uploaded file. -/
  | nestedSubscript
deriving DecidableEq, Repr, Inhabited

/-- What an analysis remembers. -/
structure Memory where
  store : Array Trace
  names : List (String × ValueId)
  findings : Array Finding
  /-- The expressions checked by the conditions around, innermost first. -/
  checked : List (List String)
  visited : Nat
deriving Inhabited

def Memory.empty : Memory := ⟨#[], [], #[], [], 0⟩

/-- A run of the analysis: it gives a result or stops, and keeps the memory. -/
abbrev Run := ExceptT Stop (StateM Memory)

def budget : Nat := 30000

/-- Counts a visited node; the first one beyond the budget stops the analysis. -/
def tick : Run Unit := do
  let m ← get
  set { m with visited := m.visited + 1 }
  if budget < m.visited + 1 then throw .budget

def fresh (t : Trace) : Run ValueId := do
  let m ← get
  set { m with store := m.store.push t }
  return m.store.size

def Memory.trace (m : Memory) (v : ValueId) : Trace :=
  m.store.getD v {}

def read (v : ValueId) : Run Trace := do
  return (← get).trace v

def learn (v : ValueId) (f : Trace → Trace) : Run Unit :=
  modify fun m => { m with store := m.store.modify v f }

def Memory.lookup? (m : Memory) (name : String) : Option ValueId :=
  (m.names.find? (·.1 == name)).map (·.2)

/-- What a memory knows about the value of a name; nothing if the name is unknown. -/
def Memory.traceOf (m : Memory) (name : String) : Trace :=
  match m.lookup? name with
  | some v => m.trace v
  | none => {}

def lookup? (name : String) : Run (Option ValueId) := do
  return (← get).lookup? name

/-- The value of a name; a new value of which nothing is known if there is none. -/
def valueOf (name : String) : Run ValueId := do
  match ← lookup? name with
  | some v => return v
  | none => fresh {}

def traceOf (name : String) : Run Trace := do
  return (← get).traceOf name

def setName (name : String) (v : ValueId) : List (String × ValueId) → List (String × ValueId)
  | [] => [(name, v)]
  | (n, w) :: rest => if n == name then (n, v) :: rest else (n, w) :: setName name v rest

def bindName (name : String) (v : ValueId) : Run Unit :=
  modify fun m => { m with names := setName name v m.names }

def record (f : Finding) : Run Unit :=
  modify fun m => { m with findings := m.findings.push f }

/-- Runs with further checked expressions, which are dropped at the end however the run ends. -/
def within {α : Type} (expressions : List String) (body : Run α) : Run α := fun m =>
  let (r, m') := body { m with checked := expressions :: m.checked }
  (r, { m' with checked := m'.checked.drop 1 })

def isChecked (expression : String) : Run Bool := do
  let key := expression
  return (← get).checked.any (·.contains key)

/-- Merges what is known about the values of some runs, one run after the other, onto a start. -/
def mergeRuns (start : Trace) : List (Run ValueId) → Run Trace
  | [] => pure start
  | r :: rs => do
    let v ← r
    let t ← read v
    mergeRuns (start.merge t) rs

def mergedValue (rs : List (Run ValueId)) : Run ValueId := do
  fresh (← mergeRuns {} rs)

end SourceAudit.Taint
