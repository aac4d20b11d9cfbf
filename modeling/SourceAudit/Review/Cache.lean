/-
# Kept analyses

Analyses are kept in the settings by project and finding, with the times at which
they were made and last changed. What is older than a day is thrown away.
-/
import SourceAudit.Files.Path
import SourceAudit.Review.Config
import SourceAudit.Value.Convert

namespace SourceAudit.Review

def projectPath (cwd : List String) (project : String) : String :=
  ((Path.ofString project).absolute cwd).toString

def projectKey (cwd : List String) (project : String) : String :=
  Sha256.hexDigest (projectPath cwd project)

/-- The text of the first of some values that counts as something. -/
def firstText (vs : List Value) : String :=
  match vs.find? Value.truthy with
  | some v => v.display
  | none => ""

def keyPayload (finding : Value) : String :=
  Text.join "|" [firstText [finding.field "absolutePath", finding.field "file"],
    firstText [finding.field "line"], firstText [finding.field "ruleId"],
    firstText [finding.field "description"], firstText [finding.field "dataFlow"]]

def analysisKey (finding : Value) : String :=
  Sha256.hexDigest (keyPayload finding)

def analysisOf (finding : Value) : String :=
  Text.strip ((finding.field? "aiAnalysis").getD (.str "")).display

namespace Cache

def settingName : String := "plugins/aiAnalysis/cache"

def load (s : Settings) : Fields :=
  match storedDocument? (s.value settingName (.str "\x7b\x7d")) with
  | some (.object projects) => projects
  | _ => []

def store (s : Settings) (projects : Fields) : Settings :=
  s.store settingName (.str (Json.write (.object projects)))

/-- The fields of an object; none for other values. -/
def fieldsOr (v : Option Value) : Fields :=
  match v with
  | some (.object fields) => fields
  | _ => []

def ofProject (s : Settings) (key : String) : Fields :=
  fieldsOr (Fields.get? (load s) key)

def itemsOf (project : Fields) : Fields :=
  fieldsOr (Fields.get? project "items")

/-- The analysis in a kept item; an item that is no object is one itself. -/
def contentOf : Value → Value
  | .object fields => (Fields.get? fields "content").getD (.str "")
  | v => .str v.display

/-- A finding with its kept analysis, if it has none and one is kept. -/
def restoreOne? (items : Fields) (finding : Value) : Option Value :=
  if !finding.isObject || analysisOf finding != "" then none
  else
    let content := contentOf ((Fields.get? items (analysisKey finding)).getD (.object []))
    if content.truthy then some (.object (Fields.set "aiAnalysis" content finding.fields)) else none

def restore (s : Settings) (project : String) (findings : List Value) : List Value × Bool :=
  let items := itemsOf (ofProject s project)
  (findings.map fun f => (restoreOne? items f).getD f, findings.any fun f => (restoreOne? items f).isSome)

/-- The time of creation in kept fields, or the present. -/
def createdAt (fields : Option Value) (now : Double) : Value :=
  match fields with
  | some (.object fs) => (Fields.get? fs "createdAt").getD (.real now)
  | _ => .real now

def keepOne (now : Double) (items : Fields) (finding : Value) : Fields :=
  if !finding.isObject || analysisOf finding == "" then items
  else
    let key := analysisKey finding
    Fields.set key (.object [("content", .str (analysisOf finding)),
      ("createdAt", createdAt (Fields.get? items key) now), ("updatedAt", .real now)]) items

/-- The settings with the analyses of findings kept for a project. -/
def save (s : Settings) (cwd : List String) (project : String) (now : Double)
    (findings : List Value) : Settings :=
  let projects := load s
  let key := projectKey cwd project
  let known := fieldsOr (Fields.get? projects key)
  store s (Fields.set key (.object [("projectPath", .str (projectPath cwd project)),
    ("createdAt", createdAt (some (.object known)) now), ("updatedAt", .real now),
    ("items", .object (findings.foldl (keepOne now) (itemsOf known)))]) projects)

def lifetime : Double := .ofInt 86400

def changedAt (fields : Fields) : Except Fault Double :=
  let stamp (name : String) : Value := (Fields.get? fields name).getD .null
  (((stamp "updatedAt").orElse (stamp "createdAt")).orElse (.int 0)).toDouble

def isStale (now time : Double) : Bool :=
  lifetime.lt (now.sub time)

def isFresh (now time : Double) : Bool :=
  let age := now.sub time
  age.lt lifetime || age.same lifetime

def freshItems (now : Double) : Fields → Except Fault Fields
  | [] => .ok []
  | (key, .object fields) :: rest => do
    let time ← changedAt fields
    let more ← freshItems now rest
    return if !time.isZero && isFresh now time then (key, .object fields) :: more else more
  | _ :: rest => freshItems now rest

/-- The latest time of change of some items, or `best` if none is later. -/
def latestFrom (best : Double) : Fields → Except Fault Double
  | [] => .ok best
  | item :: rest => do
    let time ← changedAt item.2.fields
    latestFrom (if best.lt time then time else best) rest

def latest : Fields → Except Fault Double
  | [] => .ok (.ofInt 0)
  | item :: rest => do latestFrom (← changedAt item.2.fields) rest

def freshProject (now : Double) : Value → Except Fault (Option Fields)
  | .object project => do
    let time ← changedAt project
    if !time.isZero && isStale now time then return none
    match (Fields.get? project "items").getD (.object []) with
    | .object items =>
      let kept ← freshItems now items
      if kept.isEmpty then return none
      let time ← latest kept
      return some (Fields.set "updatedAt" (.real time) (Fields.set "items" (.object kept) project))
    | _ => return none
  | _ => return none

def freshProjects (now : Double) : Fields → Except Fault Fields
  | [] => .ok []
  | (key, project) :: rest => do
    let kept ← freshProject now project
    let more ← freshProjects now rest
    return match kept with
      | some p => (key, .object p) :: more
      | none => more

def countItems (projects : Fields) : Nat :=
  projects.foldl (fun n p => n + (itemsOf p.2.fields).length) 0

/-- The settings without what is too old. They are stored only if something is thrown away. -/
def cleanup (s : Settings) (now : Double) : Except Fault Settings := do
  let projects := load s
  let kept ← freshProjects now projects
  let isSame := kept.length == projects.length && countItems kept == countItems projects
  return if isSame then s else store s kept

end Cache

end SourceAudit.Review
