/-
# Rules

A rule looks for a pattern in source text. Its fields come from rule files and
may hold any value, so a rule can turn out to be no good when it is used; such a
rule finds nothing. In PHP text, a match outside the code counts only for a rule
that looks at the full file, and a rule can leave out strings or comments. A directory
has one file of rules for each language.
-/
import SourceAudit.Files.Encoding
import SourceAudit.Pattern.Parser
import SourceAudit.Php.Context
import SourceAudit.Value.JsonRead

namespace SourceAudit

structure Rule where
  id : Value
  name : Value
  kind : Value
  pattern : Value
  severity : Value
  description : Value
  flags : Value
  skipContexts : Value
  fullFile : Bool
deriving Inhabited

structure Hit where
  rule : Rule
  file : String
  line : Nat
  start : Nat
  text : String
deriving Inhabited

namespace Rule

def ofValue (v : Value) : Rule where
  id := (v.field? "id").getD (.str "UNKNOWN")
  name := (v.field? "name").getD ((v.field? "id").getD (.str "未知规则"))
  kind := (v.field? "type").getD (.str "REGEX")
  pattern := (v.field? "pattern").getD (.str "")
  severity := (v.field? "severity").getD (.str "Medium")
  description := (v.field? "description").getD (.str "")
  flags := (v.field? "flags").getD (.list [])
  skipContexts := (v.field? "skipContexts").getD (.list [])
  fullFile := ((v.field? "scanFullFile").getD (.bool false)).truthy

def toValue (r : Rule) : Value :=
  .object [("id", r.id), ("name", r.name), ("type", r.kind), ("pattern", r.pattern),
    ("severity", r.severity), ("description", r.description), ("flags", r.flags),
    ("skipContexts", r.skipContexts), ("scanFullFile", .bool r.fullFile)]

def isEnabled (v : Value) : Bool :=
  ((v.field? "enabled").getD (.bool true)).truthy

/-- Flags with one more, given by name; unknown names change nothing. -/
def addFlag (flags : Pattern.Flags) (name : String) : Pattern.Flags :=
  if name == "IGNORECASE" || name == "I" then { flags with ignoreCase := true }
  else if name == "MULTILINE" || name == "M" then { flags with multiline := true }
  else if name == "DOTALL" || name == "S" then { flags with dotAll := true }
  else flags

/-- The flags that a value names: one by a text, or several by a list. -/
def flagsOf (v : Value) : Except Fault Pattern.Flags :=
  let names := match v with
    | .str s => some [Value.str s]
    | v => if v.truthy then v.members? else some []
  match names with
  | none => .error .wrongKind
  | some names => .ok (names.foldl (fun f n => addFlag f (Text.upper n.display)) .none)

def leftOut (skipContexts : Value) : Except Fault (List Value) :=
  match skipContexts.members? with
  | none => .error .wrongKind
  | some names => if names.all Value.isKey then .ok names else .error .wrongKind

def skips (fullFile : Bool) (skipContexts : Value) (spans : List Php.Span) (p : Nat) :
    Except Fault Bool :=
  if fullFile then .ok false
  else if spans.any fun s => s.covers p && s.context == .outside then .ok true
  else if !skipContexts.truthy then .ok false
  else
    match leftOut skipContexts with
    | .error e => .error e
    | .ok names =>
      .ok (spans.any fun s => s.covers p && names.any (·.same (.str s.context.name)))

/-- The pattern of a rule; nothing for an expression that is not well formed. -/
def compiled (r : Rule) : Except Fault (Option Pattern) :=
  match flagsOf r.flags, r.pattern with
  | .error e, _ => .error e
  | .ok flags, .str s =>
    match Pattern.compile flags s with
    | .ok p => .ok (some p)
    | .error _ => .ok none
  | .ok _, _ => .error .wrongKind

/-- The hits of a pattern in a text of which some spans do not count. -/
def patternHits (r : Rule) (p : Pattern) (file content : String) (spans : List Php.Span) :
    Except Fault (List Hit) := do
  let text := content.toList.toArray
  let counted ← (p.findAll text).filterM fun m => do
    return !(← skips r.fullFile r.skipContexts spans m.start)
  return counted.map fun m => {
    rule := r
    file
    line := Text.count '\n' (content.toList.take m.start) + 1
    start := m.start
    text := String.ofList (m.chars text) }

def hits (r : Rule) (file content : String) (spans : List Php.Span) : Except Fault (List Hit) :=
  if !r.kind.same (.str "REGEX") then .ok []
  else
    match r.compiled with
    | .error e => .error e
    | .ok none => .ok []
    | .ok (some p) => r.patternHits p file content spans

/-- The hits of a rule, none for a rule that is no good. -/
def hitsOrNone (r : Rule) (file content : String) (spans : List Php.Span) : List Hit :=
  match r.hits file content spans with
  | .ok found => found
  | .error _ => []

end Rule

def Hit.toValue (h : Hit) : Value :=
  .object [("rule_id", h.rule.id), ("rule_name", h.rule.name), ("severity", h.rule.severity),
    ("file", .str h.file), ("line", .int h.line), ("description", h.rule.description),
    ("match", .str h.text)]

/-! ### Rule sets -/

/-- The languages with their rules, in the order in which they were read. -/
abbrev RuleSet := List (String × List Rule)

namespace RuleSet

def fileEnd : String := "_rules.json"

def languageOfFile (name : String) : String :=
  Text.replaceAll name fileEnd ""

def rulesOfEntries : List Value → Except Fault (List Rule)
  | [] => .ok []
  | v :: vs =>
    if !v.isObject then .error .noSuchPart
    else do
      let rest ← rulesOfEntries vs
      return if Rule.isEnabled v then Rule.ofValue v :: rest else rest

def rulesOfDocument (v : Value) : Except Fault (List Rule) :=
  if !v.isObject then .error .noSuchPart
  else
    match ((v.field? "rules").getD (.list [])).members? with
    | none => .error .wrongKind
    | some entries => rulesOfEntries entries

/-- The rules of a rule file; none if there is no such file or it is no document. -/
def readFile (d : Disk) (p : Path) : Except Fault (List Rule) :=
  match d.readText [.utf8] p with
  | .error .undecodable => .error .undecodable
  | .error _ => .ok []
  | .ok s =>
    match Json.read s with
    | .error _ => .ok []
    | .ok v => rulesOfDocument v

/-- The set with the rules of one language replaced or added. -/
def insert (language : String) (rules : List Rule) : RuleSet → RuleSet
  | [] => [(language, rules)]
  | (l, rs) :: rest =>
    if l == language then (language, rules) :: rest else (l, rs) :: insert language rules rest

def get? (set : RuleSet) (language : String) : Option (List Rule) :=
  (set.find? (·.1 == language)).map (·.2)

def ruleFiles (entries : List (Path × Entry)) : List Path :=
  (entries.filter fun x => Text.endsWith x.1.name fileEnd).map (·.1)

def load (d : Disk) (dir : Path) : Except Fault RuleSet := do
  let entries ← d.list dir
  (ruleFiles entries).foldlM
    (fun set p => return set.insert (languageOfFile p.name) (← readFile d p)) []

def languageOfSource? (path : String) : Option String :=
  match Text.lower (Path.ofString path).suffix with
  | ".php" => some "php"
  | ".py" => some "python"
  | ".java" => some "java"
  | _ => none

def spansOf (language content : String) : List Php.Span :=
  if language == "php" then Php.contextSpans content.toList else []

def hitsIn (rules : List Rule) (language path content : String) : List Hit :=
  let spans := spansOf language content
  rules.flatMap fun r => r.hitsOrNone path content spans

/-- The hits of a set of rules in a source file; a file of a language without rules is not read. -/
def scanFile (set : RuleSet) (d : Disk) (path : String) : Except Fault (List Hit) :=
  match languageOfSource? path with
  | none => .ok []
  | some language =>
    match set.get? language with
    | none => .ok []
    | some rules =>
      match d.readSource path with
      | .error e => .error e
      | .ok content => .ok (hitsIn rules language path content)

end RuleSet

end SourceAudit
