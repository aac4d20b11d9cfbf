/-
# One row for each problem

A rule and an analysis often find the same problem. Rows with the same
fingerprint are one problem, of which the row of the highest rank is kept, in the
place of the first.
-/
import SourceAudit.Fault

namespace SourceAudit.Scan

/-- The families of problems with the words that tell them, in the order in which they are tried. -/
def families : List (String × List String) := [
  ("SQL", ["SQL", "MYSQL", "PDO", "QUERY"]),
  ("CODE_EXEC", ["CODE_EXEC", "EVAL", "ASSERT", "PREG_REPLACE", "代码执行"]),
  ("COMMAND", ["COMMAND", "EXEC", "SYSTEM", "SHELL", "命令"]),
  ("FILE", ["FILE", "INCLUDE", "READ", "UPLOAD", "文件"]),
  ("DESERIALIZE", ["UNSERIALIZE", "DESERIAL", "反序列化"]),
  ("CALLBACK", ["CALLBACK", "CALL_USER_FUNC", "动态函数"]),
  ("XSS", ["XSS", "CROSS_SITE", "跨站"]),
  ("SSRF", ["SSRF", "CURL", "URL"]),
  ("AUTH", ["AUTH", "ACCESS", "鉴权", "访问控制"])]

def textOf (row : Value) (name : String) : String :=
  (row.field name).displayOr ""

/-- The family of a row: by the words in its rule, else the rule itself. -/
def family (row : Value) : String :=
  let id := Text.upper (textOf row "ruleId")
  let words := id ++ " " ++ Text.upper (textOf row "ruleName")
  match families.find? fun f => f.2.any (Text.contains words) with
  | some f => f.1
  | none => if id == "" then "UNKNOWN" else id

def oneToALine : List String :=
  ["SQL", "COMMAND", "CODE_EXEC", "FILE", "DESERIALIZE", "CALLBACK"]

/-- A text with single blanks between its words, cut after 240 characters. -/
def normalizeText (s : String) : String :=
  String.ofList ((Text.join " " (Text.fields s)).toList.take 240)

def excerpt (row : Value) : String :=
  let found := normalizeText (textOf row "match")
  if found == "" then normalizeText (textOf row "description") else found

def fingerprint (row : Value) : List Value :=
  let f := family row
  let place := [row.field "absolutePath", row.field "line", .str f]
  if oneToALine.contains f then place else place ++ [.str (excerpt row)]

def sameFingerprint (a b : List Value) : Bool :=
  Value.sameLists a b

def severityRank : String → Nat
  | "Critical" => 4
  | "High" => 3
  | "Medium" => 2
  | "Low" => 1
  | _ => 0

def typeRank : String → Nat
  | "TaintAnalysis" => 4
  | "RouteAuthAnalysis" => 3
  | "ASTAnalysis" => 2
  | "StaticAnalysis" => 1
  | _ => 0

/-- How good a row is: by its severity, then by the way it was found. -/
def rank (row : Value) : Nat × Nat :=
  let byType := typeRank (textOf row "type")
  let byRule := if Text.contains (textOf row "ruleId") "_TAINT" then 4 else 0
  (severityRank (textOf row "severity"), max byType byRule)

def rankBelow (a b : Nat × Nat) : Bool :=
  a.1 < b.1 || (a.1 == b.1 && a.2 < b.2)

def givesWay (kept row : Value) : Bool :=
  !kept.truthy || rankBelow (rank kept) (rank row)

def keep (key : List Value) (row : Value) : List (List Value × Value) → List (List Value × Value)
  | [] => [(key, row)]
  | (k, kept) :: rest =>
    if sameFingerprint k key then (k, if givesWay kept row then row else kept) :: rest
    else (k, kept) :: keep key row rest

def dedupe (rows : List Value) : List Value :=
  (rows.foldl (fun kept row => keep (fingerprint row) row kept) []).map (·.2)

def dedupeValues (rows : List Value) : Except Fault (List Value) :=
  if rows.any fun r => !r.isObject then .error .noSuchPart
  else if rows.any fun r => (fingerprint r).any fun v => !v.isKey then .error .wrongKind
  else .ok (dedupe rows)

end SourceAudit.Scan
