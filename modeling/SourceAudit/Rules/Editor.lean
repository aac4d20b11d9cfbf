/-
# The rule editor

The editor lists the rules of a directory and changes its rule files. After each
change it reads the directory again. A file that cannot be read counts as empty
and is mentioned in the status; a file of the wrong form stops the operation. A rule
file holds a list of entries, which may be any values.
-/
import SourceAudit.Rules.Rule
import SourceAudit.Value.JsonWrite

namespace SourceAudit.Rules

/-- An entry has the identifier. An entry that is no object has no fields to look at. -/
def entryHasId (id : String) (e : Value) : Except Fault Bool :=
  if e.isObject then .ok ((e.field "id").same (.str id)) else .error .noSuchPart

def hasId (id : String) (entries : List Value) : Except Fault Bool :=
  entries.anyM (entryHasId id)

def without (id : String) (entries : List Value) : Except Fault (List Value) :=
  entries.filterM fun e => return !(← entryHasId id e)

def extract (id : String) : List Value → Except Fault (Option Value × List Value)
  | [] => .ok (none, [])
  | e :: rest => do
    let here ← entryHasId id e
    let (found, others) ← extract id rest
    return if here then (some e, rest) else (found, e :: others)

/-- The entries with the first that has the identifier switched, if there is one. -/
def switch (id : String) (enabled : Value) : List Value → Except Fault (Option (List Value))
  | [] => .ok none
  | e :: rest => do
    if ← entryHasId id e then
      return some (.object (Fields.set "enabled" enabled e.fields) :: rest)
    else return (← switch id enabled rest).map (e :: ·)

structure Form where
  id : String
  name : String
  pattern : String
  severity : String
  description : String
deriving DecidableEq, Repr, Inhabited

def Form.severityOr (f : Form) : String :=
  let s := Text.strip f.severity
  if s == "" then "Medium" else s

def usualContexts (language : String) : List String :=
  if language == "php" then ["string", "comment"] else []

def newEntry (language : String) (f : Form) : Value :=
  let fields : Fields := [("id", .str (Text.strip f.id)), ("name", .str (Text.strip f.name)),
    ("type", .str "REGEX"), ("pattern", .str f.pattern), ("severity", .str f.severityOr),
    ("description", .str (Text.strip f.description)), ("enabled", .bool true)]
  .object (if language == "php" then fields ++ [("skipContexts", .ofStrings (usualContexts language))]
    else fields)

/-- An entry with what the user has filled in; its other fields stay. -/
def updatedEntry (language : String) (f : Form) (e : Value) : Value :=
  .object ([("id", .str f.id), ("name", .str (Text.strip f.name)), ("type", .str "REGEX"),
    ("pattern", .str f.pattern), ("severity", .str f.severityOr),
    ("description", .str (Text.strip f.description)),
    ("enabled", .bool ((e.field? "enabled").getD (.bool true)).truthy),
    ("flags", (e.field? "flags").getD (.list [])),
    ("skipContexts", (e.field? "skipContexts").getD (.ofStrings (usualContexts language)))].foldl
      (fun fs p => Fields.set p.1 p.2 fs) e.fields)

structure Listed where
  language : String
  id : String
  name : String
  kind : String
  pattern : String
  severity : String
  description : String
  enabled : Bool
  skipContexts : List Value
deriving Inhabited

def Listed.key (r : Listed) : String :=
  r.language ++ ":" ++ r.id

def Listed.ofEntry (language : String) (e : Value) : Except Fault Listed :=
  if !e.isObject then .error .noSuchPart
  else
    match ((e.field? "skipContexts").getD (.list [])).members? with
    | none => .error .wrongKind
    | some contexts =>
      let text (name other : String) : String := ((e.field? name).getD (.str other)).display
      .ok {
        language
        id := text "id" ""
        name := text "name" ""
        kind := text "type" "REGEX"
        pattern := text "pattern" ""
        severity := text "severity" "Medium"
        description := text "description" ""
        enabled := ((e.field? "enabled").getD (.bool true)).truthy
        skipContexts := contexts }

def Listed.toValue (r : Listed) : Value :=
  .object [("key", .str r.key), ("language", .str r.language), ("id", .str r.id),
    ("name", .str r.name), ("type", .str r.kind), ("pattern", .str r.pattern),
    ("severity", .str r.severity), ("description", .str r.description),
    ("enabled", .bool r.enabled), ("skipContexts", .list r.skipContexts)]

/-! ### The editor -/

inductive Notice where
  | rulesChanged
  | statusChanged
deriving DecidableEq, Repr, Inhabited

/-- The state of the editor: the files, the listed rules, the status, and what it has told, latest
first. -/
structure Editor where
  dir : Path
  disk : Disk
  rules : List Listed
  status : String
  notices : List Notice
deriving Inhabited

/-- An operation on the editor; what it has done before a fault stays done. -/
abbrev Edit := ExceptT Fault (StateM Editor)

namespace Editor

def check {α : Type} : Except Fault α → Edit α
  | .ok a => pure a
  | .error e => throw e

def tell (n : Notice) : Edit Unit :=
  modify fun e => { e with notices := n :: e.notices }

def setStatus (s : String) : Edit Unit := do
  modify fun e => { e with status := s }
  tell .statusChanged

def refuse (s : String) : Edit Bool := do
  setStatus s
  return false

/-- The entries in a document: a list, or the list among the fields of an object. -/
def entriesOf (v : Value) : Except Fault (List Value) :=
  match v with
  | .list xs => .ok xs
  | .object _ =>
    match ((v.field? "rules").getD (.list [])).members? with
    | some xs => .ok xs
    | none => .error .wrongKind
  | _ => .error .noSuchPart

/-- What a rule file holds: its entries, or why it cannot be read. -/
def readEntries (d : Disk) (p : Path) : Except Fault (Except String (List Value)) := do
  if !(← d.holds p) then return .ok []
  match d.readText [.utf8] p with
  | .error e => if e.isSystem then return .error e.text else throw e
  | .ok s =>
    match Json.read s with
    | .error message => return .error message
    | .ok v => return .ok (← entriesOf v)

def read (p : Path) : Edit (List Value) := do
  match ← check (readEntries (← get).disk p) with
  | .ok entries => return entries
  | .error message =>
    setStatus s!"规则文件读取失败: {p.name}: {message}"
    return []

def fileText (language : String) (entries : List Value) : String :=
  Json.writePretty (.object [("version", .int 1), ("language", .str language),
    ("rules", .list entries)]) ++ "\n"

def written (d : Disk) (p : Path) (entries : List Value) : Except Fault Disk := do
  let d ← d.makeDir p.parent
  d.write p (Utf8.encode (fileText (RuleSet.languageOfFile p.name) entries))

/-- Writes a rule file. Directories that were made for it stay even if it cannot be written. -/
def write (p : Path) (entries : List Value) : Edit Unit := do
  let d := (← get).disk
  modify fun e => { e with disk := d.tryMakeDir p.parent }
  let d ← check (written d p entries)
  modify fun e => { e with disk := d }

def list (language : String) (entry : Value) : Edit Unit := do
  let r ← check (Listed.ofEntry language entry)
  modify fun e => { e with rules := e.rules ++ [r] }

/-- Makes the directory if it is missing, and finds its rule files. -/
def openDir : Edit (List Path) := do
  let e ← get
  set { e with disk := e.disk.tryMakeDir e.dir }
  let d ← check (e.disk.makeDir e.dir)
  set { e with disk := d }
  return RuleSet.ruleFiles (← check (d.list e.dir))

def listFile (p : Path) : Edit Unit := do
  (← read p).forM (list (RuleSet.languageOfFile p.name))

def reload : Edit Unit := do
  modify fun e => { e with rules := [] }
  (← openDir).forM listFile
  tell .rulesChanged

def languageName (s : String) : String :=
  let name := Text.lower (Text.strip s)
  if name == "py" then "python" else name

def fileOf (language : String) : Edit Path :=
  return (← get).dir.child (language ++ RuleSet.fileEnd)

def splitKey (key : String) : String × String :=
  match Text.cutAt key ":" with
  | (language, some id) => (languageName language, id)
  | (_, none) => ("", "")

def patternRefusal (pattern : String) : Except Fault (Option String) :=
  match Pattern.compile .none pattern with
  | .ok _ => .ok none
  | .error .repetitionTooLarge => .error .tooLarge
  | .error .conflictingFlags => .error .badValue
  | .error e => .ok (some (e.message pattern.toList))

def formRefusal (language : String) (f : Form) : Except Fault (Option String) :=
  if language == "" || [f.id, f.name, f.pattern].any fun s => Text.strip s == "" then
    .ok (some "语言、规则ID、名称和正则不能为空")
  else
    match patternRefusal f.pattern with
    | .error e => .error e
    | .ok none => .ok none
    | .ok (some message) => .ok (some ("正则无效: " ++ message))

def add (language : String) (f : Form) : Edit Bool := do
  let language := languageName language
  if let some message ← check (formRefusal language f) then return ← refuse message
  let p ← fileOf language
  let entries ← read p
  if ← check (hasId f.id entries) then return ← refuse ("规则ID已存在: " ++ f.id)
  write p (entries ++ [newEntry language f])
  setStatus ("已新增规则 " ++ f.id)
  reload
  return true

def delete (key : String) : Edit Bool := do
  let (language, id) := splitKey key
  if language == "" || id == "" then return false
  let p ← fileOf language
  let entries ← read p
  let kept ← check (without id entries)
  if kept.length == entries.length then return ← refuse ("未找到规则 " ++ id)
  write p kept
  setStatus ("已删除规则 " ++ id)
  reload
  return true

/-- Changes the rule of a key, which can move it to another language. -/
def update (key language : String) (f : Form) : Edit Bool := do
  let (oldLanguage, oldId) := splitKey key
  let language := languageName language
  let f := { f with id := Text.strip f.id }
  if oldLanguage == "" || oldId == "" then return ← refuse "未选择要编辑的规则"
  if let some message ← check (formRefusal language f) then return ← refuse message
  let oldFile ← fileOf oldLanguage
  let oldEntries ← read oldFile
  let (found, others) ← check (extract oldId oldEntries)
  let some entry := found | return ← refuse ("未找到规则 " ++ oldId)
  let newFile ← fileOf language
  let entries ← if newFile == oldFile then pure others else read newFile
  if ← check (hasId f.id entries) then return ← refuse ("规则ID已存在: " ++ f.id)
  if newFile != oldFile then write oldFile others
  write newFile (entries ++ [updatedEntry language f entry])
  setStatus ("已更新规则 " ++ f.id)
  reload
  return true

def enable (key : String) (enabled : Value) : Edit Bool := do
  let (language, id) := splitKey key
  if language == "" || id == "" then return false
  let p ← fileOf language
  let entries ← read p
  let some changed ← check (switch id enabled entries) | return ← refuse ("未找到规则 " ++ id)
  write p changed
  setStatus ((if enabled.truthy then "已启用规则 " else "已禁用规则 ") ++ id)
  reload
  return true

def start (disk : Disk) (dir : String) : Editor :=
  ⟨.ofString dir, disk, [], "规则已加载", []⟩

end Editor

end SourceAudit.Rules
