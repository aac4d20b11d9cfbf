/-
# The scan of a project

All source files of a project are scanned with the built-in rules, and those of
a language with a plugin also by the plugin. The rows of one problem are then one.
Directories of tools are left out, and unless they are asked for those with packages
of others, which are told by what lies in or beside them.

A plugin is a directory with an entry file. The ones that come with the program
offer an interface; an entry file from elsewhere is empty, or it fails as soon as
it runs.
-/
import SourceAudit.Php.Scanner
import SourceAudit.Rules.BuiltIn
import SourceAudit.Scan.Dedupe

namespace SourceAudit.Plugin

/-- Where plugins come from: the program itself or a directory. -/
inductive Source where
  | builtIn
  | directory (path : Path)
deriving DecidableEq, Repr, Inhabited

structure Loaded where
  name : String
  interface : Option String
deriving DecidableEq, Repr, Inhabited

def builtIns : List Loaded :=
  [⟨"example_plugin", some "ExamplePlugin"⟩, ⟨"php_plugin", some "PHPPlugin"⟩]

def entryFile : String := "__init__.py"

/-- The loaded plugins, in the order in which they were first loaded. -/
structure Registry where
  source : Source
  loaded : List Loaded
deriving DecidableEq, Repr, Inhabited

namespace Registry

def isPlugin (name : String) (e : Entry) : Bool :=
  e.isDir && !Text.startsWith name "__" && (e.child? entryFile).isSome

def discover (r : Registry) (d : Disk) : Except Fault (List String) :=
  match r.source with
  | .builtIn => .ok (builtIns.map (·.name))
  | .directory p =>
    match d.find? p with
    | .ok (some (.dir es)) => .ok ((es.filter fun x => isPlugin x.1 x.2).map (·.1))
    | .ok (some (.file _)) => .error (.notDirectory p.toString)
    | .ok none => .ok []
    | .error e => .error e

def runs : Entry → Bool
  | .file content => !Text.startsWith (Utf8.decode content) "raise"
  | .dir _ => false

def open? (r : Registry) (d : Disk) (name : String) : Except Fault (Option Loaded) :=
  match r.source with
  | .builtIn => .ok (builtIns.find? (·.name == name))
  | .directory p =>
    (d.find? ((p.child name).child entryFile)).map fun e =>
      if e.any runs then some ⟨name, none⟩ else none

/-- The list with a plugin added, or put in the place of the one of the same name. -/
def put (x : Loaded) : List Loaded → List Loaded
  | [] => [x]
  | y :: ys => if y.name == x.name then x :: ys else y :: put x ys

/-- Loads a plugin: the registry after it, and the plugin if it could be loaded. -/
def load (r : Registry) (d : Disk) (name : String) : Except Fault (Registry × Option Loaded) := do
  match ← r.open? d name with
  | some x => return ({ r with loaded := put x r.loaded }, some x)
  | none => return (r, none)

def loadAll (r : Registry) (d : Disk) : Except Fault Registry := do
  (← r.discover d).foldlM (fun r name => return (← r.load d name).1) r

def get? (r : Registry) (name : String) : Option Loaded :=
  r.loaded.find? (·.name == name)

/-- Forgets a plugin: the registry after it, and whether there was one of the name. -/
def unload (r : Registry) (name : String) : Registry × Bool :=
  ({ r with loaded := r.loaded.filter (·.name != name) }, (r.get? name).isSome)

end Registry

/-- The plugin that shows how one is written: it gives back what it is given. -/
def Example.name : String := "example_plugin"
def Example.version : String := "1.0.0"
def Example.description : String := "示例插件"

def Example.execute (args : Value) : Value :=
  .object [("result", .str "success"), ("data", args)]

end SourceAudit.Plugin

namespace SourceAudit.Scan

/-! ### Scans -/

def toolDirs : List String :=
  [".git", ".venv", ".codegraph", "__pycache__", ".mypy_cache", ".pytest_cache"]

/-- A directory with packages: something tells so in it or beside it. -/
def holdsPackages (d : Disk) (p : Path) : Except Fault Bool :=
  match p.name with
  | "vendor" =>
    [d.holds (p.child "autoload.php"), d.isDir (p.child "composer"),
      d.isFile (p.parent.child "composer.json")].anyM id
  | "node_modules" => d.isFile (p.parent.child "package.json")
  | "bower_components" => d.isFile (p.parent.child "bower.json")
  | "thinkphp" =>
    [d.isFile (p.child "base.php"), d.isDir ((p.child "library").child "think")].anyM id
  | _ => .ok false

def namesOf (p : Path) : List String :=
  if p.isAbsolute then p.root :: p.names else p.names

def isIgnored (d : Disk) (includeDependencies : Bool) (p : Path) : Except Fault Bool :=
  if (namesOf p).any toolDirs.contains then .ok true
  else if includeDependencies then .ok false
  else (p :: p.parents).anyM (holdsPackages d)

def rowOf (project file : Path) (finding : Value) : Except Fault Value :=
  if !finding.isObject then .error .noSuchPart
  else
    let field (name : String) (other : Value) : Value := (finding.field? name).getD other
    match file.relativeTo? project with
    | none => .error .badValue
    | some inside =>
      match ((finding.field "line").orElse (.int 0)).toInt with
      | .error e => .error e
      | .ok line =>
        .ok (.object [("type", field "type" (.str "")), ("ruleId", field "rule_id" (.str "未知")),
          ("ruleName", field "rule_name" (.str "未知规则")),
          ("severity", field "severity" (.str "未知")), ("file", .str inside.toString),
          ("line", .int line), ("description", field "description" (.str "")),
          ("match", field "match" (.str "")), ("details", field "details" (.object [])),
          ("absolutePath", .str file.toString)])

def ruleSuffixes : List String :=
  [".php", ".py", ".java"]

/-- The files below a project that are scanned, with one of some ends of their names. -/
def filesOf (d : Disk) (includeDependencies : Bool) (suffixes : List String) (project : Path) :
    Except Fault (List Path) := do
  let found ← d.walk project
  let kept ← found.filterM fun x => return !(← isIgnored d includeDependencies x.1)
  return (kept.filter fun x => x.2.isFile && suffixes.contains (Text.lower x.1.suffix)).map (·.1)

def ruleRows (d : Disk) (includeDependencies : Bool) (project : Path) : Except Fault (List Value) := do
  let files ← filesOf d includeDependencies ruleSuffixes project
  let rows ← files.mapM fun f => do
    let hits ← RuleSet.builtIn.scanFile d f.toString
    hits.mapM fun h => rowOf project f h.toValue
  return rows.flatten

/-- The rows of the PHP scanner for the files with some ends of their names; none if it cannot be
made ready for the project. -/
def scannerRows (d : Disk) (grammar : Grammar) (includeDependencies : Bool) (suffixes : List String)
    (project : Path) : Except Fault (List Value) := do
  let scanner := Php.Scanner.start.prepare d (.str project.toString)
  if !scanner.ready then return []
  let files ← filesOf d includeDependencies suffixes project
  let rows ← files.mapM fun f =>
    (scanner.scan d grammar f.toString).mapM (rowOf project f)
  return rows.flatten

/-- The rows of a plugin by its name; none if it was not loaded. The example plugin cannot be made
ready for a project. -/
def pluginRows (r : Plugin.Registry) (d : Disk) (grammar : Grammar) (includeDependencies : Bool)
    (name : String) (suffixes : List String) (project : Path) : Except Fault (List Value) :=
  match r.get? name with
  | none => .ok []
  | some p =>
    match p.interface with
    | none => .error .noSuchPart
    | some _ =>
      if name == Php.Scanner.name then scannerRows d grammar includeDependencies suffixes project
      else .error .wrongKind

/-- All rows of a project. What a plugin has found counts only if all of its work can be done. -/
def scanProject (d : Disk) (grammar : Grammar) (includeDependencies : Bool) (path : String) :
    Except Fault (List Value) := do
  let project := Path.ofString path
  if path.toList.contains '\x00' then throw .nulInPath
  let found ← ruleRows d includeDependencies project
  let more := (orNothing (scannerRows d grammar includeDependencies [".php"] project)).getD []
  return dedupe (found ++ more)

def finishedMessage (count : Nat) : String :=
  s!"扫描完成，发现 {count} 个问题"

end SourceAudit.Scan
