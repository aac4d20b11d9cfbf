/-
# Findings and their evidence

A finding is an object of which no field has to be there. Its line and the lines to
which exactly one of its tokens points are its evidence. They are shown with two lines
around them; windows that touch or overlap are one, and at most four are shown. Lines of
evidence are marked, and a gap stands between windows.
-/
import SourceAudit.Files.Encoding
import SourceAudit.Report.Format
import SourceAudit.Value.Convert

namespace SourceAudit.Report

abbrev Finding := Fields

namespace Finding

def ofValue : Value → Except Fault Finding
  | .object fields => .ok fields
  | _ => .error .noSuchPart

def text (f : Finding) (name other : String) : String :=
  ((Fields.get? f name).getD (.str other)).display

def textOr (f : Finding) (name other : String) : String :=
  (((Fields.get? f name).getD .null).orElse (.str other)).display

def line (f : Finding) : Except Fault Int :=
  (((Fields.get? f "line").getD .null).orElse (.int 0)).toInt

def detail (f : Finding) (name : String) : Value :=
  match (Fields.get? f "details").getD (.object []) with
  | .object details => (Fields.get? details name).getD (.list [])
  | _ => .list []

def templateMark : String := "dynamic-sql-template"

def isInternal (token : String) : Bool :=
  token == templateMark || Text.startsWith token "dangerous:"

def isFlowToken (token : String) : Bool :=
  let token := Text.strip token
  token != "" && !isInternal token

def flowParts (f : Finding) (name : String) : Except Fault (List String) :=
  match (f.detail name).members? with
  | some parts => .ok ((parts.map Value.display).filter isFlowToken)
  | none => .error .wrongKind

/-- The data flow in words: each step once, and at last the code that was found. A finding without
steps was found by a rule. -/
def dataFlow (f : Finding) : Except Fault String := do
  let sources ← f.flowParts "sources"
  let transforms ← f.flowParts "transforms"
  let parts := sources ++ transforms
  let found := Text.strip (f.textOr "match" "")
  if !parts.isEmpty then
    return Text.join " -> " (parts ++ (if found == "" then [] else [found])).eraseDups
  let rule := f.textOr "ruleId" "静态规则" ++ " 静态规则匹配"
  return if found == "" then rule else rule ++ " -> " ++ found

/-- The name of a variable and nothing else. -/
def isVariable (token : String) : Bool :=
  match token.toList with
  | '$' :: c :: rest =>
    (c.isAlpha || c == '_') && rest.all fun c => c.isAlphanum || c == '_'
  | _ => false

def isSpecific (token : String) : Bool :=
  let token := Text.strip token
  token != "" && !isVariable token && !isInternal token

def evidenceTokens (f : Finding) : List String :=
  let details := ((f.detail "sources").items ++ (f.detail "transforms").items).map Value.display
  let found := f.textOr "match" ""
  ((details ++ (if found == "" then [] else [found])).filter isSpecific).map Text.strip

end Finding

/-! ### Lines of evidence -/

def pointsTo (token line : String) : Bool :=
  let compact := Text.removeBlanks token
  Text.contains line token || (compact != "" && Text.contains (Text.removeBlanks line) compact)

/-- The numbers of the lines with a token, from one on. A token that is long or goes over lines has
none. -/
def linesWith (lines : List String) (token : String) : List Nat :=
  if 120 < token.length || token.toList.contains '\n' then []
  else (lines.zipIdx 1).filterMap fun x => if pointsTo token x.1 then some x.2 else none

def insertLine (n : Int) : List Int → List Int
  | [] => [n]
  | m :: rest => if n < m then n :: m :: rest else if n = m then m :: rest else m :: insertLine n rest

/-- Adds the line that a token points to, if it is only one. -/
def addEvidence (lines : List String) (found : List Int) (token : String) : List Int :=
  match linesWith lines token with
  | [n] => insertLine n found
  | _ => found

/-- The line of a finding and those that a token alone points to, in order. -/
def evidenceLines (lines : List String) (line : Int) (f : Finding) : List Int :=
  f.evidenceTokens.foldl (addEvidence lines) [line]

/-- Some lines after each other, the last included. -/
structure Window where
  first : Int
  last : Int
deriving DecidableEq, Repr, Inhabited

namespace Window

/-- The lines around one, in a file with `total` lines. -/
def around (total line : Int) : Window :=
  ⟨max 1 (line - 2), min total (line + 2)⟩

/-- The order of windows: by their first lines, then by their last ones. -/
def le (a b : Window) : Bool :=
  a.first < b.first || (a.first == b.first && a.last ≤ b.last)

/-- Joins windows that touch or overlap, in a list in order after a first one. -/
def merge (w : Window) : List Window → List Window
  | [] => [w]
  | x :: rest =>
    if x.first ≤ w.last + 1 then merge ⟨w.first, max w.last x.last⟩ rest else w :: merge x rest

def lines (w : Window) : List Int :=
  (List.range (w.last + 1 - w.first).toNat).map fun (k : Nat) => w.first + k

end Window

def maxWindows : Nat := 4

def windows (evidence : List Int) (total : Int) : List Window :=
  match ((evidence.filter (0 < ·)).map (Window.around total)).mergeSort Window.le with
  | [] => []
  | w :: rest => (w.merge rest).take maxWindows

def evidenceWindows (lines : List String) (line : Int) (f : Finding) : List Window :=
  windows (evidenceLines lines line f) lines.length

def sourceLines? (d : Disk) (path : String) : Except Fault (Option (List String)) := do
  if !(← d.isFile (.ofString path)) then return none
  match d.readSource path with
  | .ok content => return some (Text.lines content)
  | .error e => if e.isSystem then return none else throw e

/-- The place of a finding: its file and its lines up to the end of the evidence. -/
def Finding.location (d : Disk) (f : Finding) : Except Fault String := do
  let file := Text.replaceAll (f.textOr "file" "") "\\" "/"
  let line ← f.line
  if file == "" then return ""
  if line ≤ 0 then return file
  let last := match ← sourceLines? d (f.text "absolutePath" "") with
    | some lines => ((evidenceWindows lines line f).getLast?.map Window.last).getD line
    | none => line
  return if last == line then s!"/{file}:{line}" else s!"/{file}:{line}-{last}"

/-! ### Code in a report -/

inductive SnippetRow where
  /-- Lines are left out. -/
  | gap
  /-- A line with its number, and whether it is evidence. -/
  | line (number : Int) (hit : Bool) (content : String)
deriving DecidableEq, Repr

structure Snippet where
  language : String
  rows : List SnippetRow
deriving DecidableEq, Repr

def languageName (p : Path) : String :=
  match Text.lower p.suffix with
  | ".php" => "php"
  | ".py" => "python"
  | ".java" => "java"
  | ".lua" => "lua"
  | ".go" => "go"
  | ".js" => "javascript"
  | ".ts" => "typescript"
  | ".html" => "html"
  | ".css" => "css"
  | _ => ""

def windowRows (lines : List String) (evidence : List Int) (w : Window) : List SnippetRow :=
  w.lines.map fun n => .line n (evidence.contains n) (lines.getD (n - 1).toNat "")

def snippetRows (lines : List String) (evidence : List Int) : List Window → List SnippetRow
  | [] => []
  | [w] => windowRows lines evidence w
  | w :: rest => windowRows lines evidence w ++ .gap :: snippetRows lines evidence rest

/-- The code of a finding, if its file can be read and it has a line. -/
def Finding.snippet? (d : Disk) (f : Finding) : Except Fault (Option Snippet) := do
  let path := Text.strip (f.text "absolutePath" "")
  if path == "" then return none
  let line ← f.line
  let some lines ← sourceLines? d path | return none
  if line ≤ 0 then return none
  let evidence := evidenceLines lines line f
  return some ⟨languageName (.ofString path),
    snippetRows lines evidence (windows evidence lines.length)⟩

namespace SnippetRow

def toHtml : SnippetRow → String
  | .gap => "<span class=\"gap\">...</span>"
  | .line n hit content =>
    "<span" ++ (if hit then " class=\"hit\"" else "") ++ "><b>" ++ Text.padStart 4 (toString n) ++
      "</b> " ++ Html.escape content ++ "</span>"

def toPlain : SnippetRow → String
  | .gap => "  ..."
  | .line n hit content =>
    (if hit then ">" else " ") ++ " " ++ Text.padStart 4 (toString n) ++ ": " ++ content

end SnippetRow

def Snippet.write (s : Snippet) : Medium → String
  | .html =>
    "<div class=\"code-card\"><pre>" ++ Text.join "<br>" (s.rows.map SnippetRow.toHtml) ++
      "</pre></div>"
  | .plain =>
    "```" ++ s.language ++ "\n" ++ Text.join "\n" (s.rows.map SnippetRow.toPlain) ++ "\n```"

def Finding.code (d : Disk) (f : Finding) (m : Medium) : Except Fault String :=
  (f.snippet? d).map fun s => (s.map (·.write m)).getD ""

end SourceAudit.Report
