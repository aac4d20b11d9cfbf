/-
# The workbench

What a user works with: an open project with its source files, the file in view, with a
line if a finding was opened, the findings of the last scan, the way reports look, and
the status line. Every change is told to whoever watches.
-/
import SourceAudit.Highlight.Document
import SourceAudit.Report.Document
import SourceAudit.Report.Pages
import SourceAudit.Review.Service
import SourceAudit.Scan.Project

namespace SourceAudit

inductive Notice where
  | files
  | project
  | file
  | content
  | highlighted
  | line
  | findings
  | status
  | scanning
  | reportSettings
  | pluginSettings
  | scanBegun
  | scanDone
  | scanGivenUp
  | scanCleared
deriving DecidableEq, Repr

/-- A source file of a project: its name, its path in the project, its whole path, and the end of
its name. -/
structure SourceFile where
  name : String
  relative : String
  absolute : String
  extension : String
deriving DecidableEq, Repr, Inhabited

def SourceFile.toRow (f : SourceFile) : Value :=
  .object [("name", .str f.name), ("relativePath", .str f.relative),
    ("absolutePath", .str f.absolute), ("extension", .str f.extension)]

structure CodeView where
  file : String
  line : Int
  content : String
  highlighted : String
deriving DecidableEq, Repr, Inhabited

/-- What was told, asked of models and printed; the last comes first. -/
structure Log where
  notices : List Notice := []
  requests : List Review.Request := []
  drawings : List Report.Drawing := []

structure Workbench where
  disk : Disk
  settings : Settings
  appRoot : Path
  templateDir : Path
  printer : Report.Printer
  service : Review.Service
  project : String
  files : List SourceFile
  findings : List Value
  view : CodeView
  status : String
  scanning : Bool
  options : Report.Options
  template : String
  reviews : Bool
  dependencies : Bool
  log : Log

/-- What the workbench does not decide by itself: the trees of source texts, what models answer, and
the time. -/
structure Surroundings where
  grammar : Grammar
  network : Review.Network
  now : Double

abbrev Work := ExceptT Fault (StateM Workbench)

namespace Workbench

def check {α : Type} (r : Except Fault α) : Work α :=
  match r with
  | .ok a => pure a
  | .error e => throw e

def tell (n : Notice) : Work Unit :=
  modify fun w => { w with log.notices := n :: w.log.notices }

def setStatus (message : String) : Work Unit := do
  if message != (← get).status then
    modify fun w => { w with status := message }
    tell .status

/-- Begins or ends a time in which no other scan can start. -/
def setScanning (value : Bool) : Work Unit := do
  if value != (← get).scanning then
    modify fun w => { w with scanning := value }
    tell .scanning

def report (w : Workbench) (now : Double) : Report :=
  { disk := w.disk, appRoot := w.appRoot, templateDir := w.templateDir, options := w.options
    project := w.project, moment := .ofDouble now, findings := w.findings }

end Workbench

end SourceAudit

namespace SourceAudit.Workbench

/-! ### Projects and files in view -/

def sourceSuffixes : List String :=
  [".php", ".py", ".java", ".lua", ".go", ".js", ".ts", ".html", ".css"]

def sourceFile (dir p : Path) : SourceFile :=
  { name := p.name
    relative := ((p.relativeTo? dir).getD p).toString
    absolute := p.toString
    extension := Text.stripStartOf '.' (Text.lower p.suffix) }

def projectFiles (d : Disk) (project : String) : Except Fault (List SourceFile) :=
  let dir := Path.ofString project
  (Scan.filesOf d false sourceSuffixes dir).map fun files => files.map (sourceFile dir)

def dropOldAnalyses (now : Double) : Work Unit := do
  let settings ← check (Review.Cache.cleanup (← get).settings now)
  modify fun w => { w with settings }

def openProject (now : Double) (address : String) : Work Unit := do
  let path := pathOfUrl address
  let w ← get
  if path == "" || !w.disk.holdsDir (.ofString path) then
    return ← setStatus ("项目目录无效: " ++ path)
  let project := ((Path.ofString path).absolute w.disk.cwd).toString
  modify fun w => { w with project }
  dropOldAnalyses now
  let files ← check (projectFiles w.disk project)
  modify fun w => { w with files }
  tell .project
  tell .files
  setStatus ("已打开项目: " ++ project)

def goToLine (line : Int) : Work Unit := do
  let line := max 0 line
  if line != (← get).view.line then
    modify fun w => { w with view.line := line }
    tell .line

def goTo (v : Value) : Work Unit := do
  goToLine (← check (v.orElse (.int 0)).toInt)

def pathIn (project path : String) : String :=
  if Text.startsWith path "/" || project == "" then path
  else if Text.endsWith project "/" then project ++ path
  else project ++ "/" ++ path

def openFile (grammar : Grammar) (address : String) : Work Unit := do
  let w ← get
  let path := pathIn w.project (pathOfUrl address)
  match w.disk.readSource path with
  | .error e => setStatus ("无法读取文件: " ++ e.text)
  | .ok content =>
    modify fun w => { w with view := {
      file := path, line := w.view.line, content
      highlighted := Highlight.highlight grammar content path } }
    goToLine 0
    tell .content
    tell .highlighted
    tell .file
    setStatus ("已加载文件: " ++ path)

def openFinding (grammar : Grammar) (address : String) (line : Int) : Work Unit := do
  openFile grammar address
  if line != 0 then
    goToLine line
    setStatus s!"定位到 {address}:{line}"

def welcome : String := "请选择左侧文件以查看代码。"

def usualTitle : String := "Pinesawfly审计报告"

def optionsOf (s : Settings) : Report.Options :=
  { title := s.text "report/title" usualTitle
    author := s.text "report/author" ""
    unit := s.text "report/unit" ""
    showsProject := s.flag "report/includeProjectPath" true
    showsTime := s.flag "report/includeGeneratedAt" true
    showsSummary := s.flag "report/includeSummary" true
    showsLogo := s.flag "report/includeLogo" true
    showsCode := s.flag "report/includeCodeSnippet" true }

def blank (d : Disk) (settings : Settings) (grammar : Grammar) (appRoot : Path)
    (printer : Report.Printer) : Workbench :=
  { disk := d, settings, appRoot
    templateDir := (appRoot.child "templates").child "reports"
    printer
    service := .start settings
    project := ((⟨"", []⟩ : Path).absolute d.cwd).toString
    files := [], findings := []
    view := ⟨"", 0, welcome, Highlight.highlight grammar welcome ""⟩
    status := "就绪", scanning := false
    options := optionsOf settings
    template := Report.plainTemplate
    reviews := settings.flag "plugins/aiAnalysis/enabled" false
    dependencies := settings.flag "plugins/phpAnalysis/includeDependencies" false
    log := {} }

def start (d : Disk) (settings : Settings) (s : Surroundings) (appRoot : Path)
    (printer : Report.Printer) : Except Fault Workbench :=
  let w := blank d settings s.grammar appRoot printer
  match (do dropOldAnalyses s.now; openProject s.now w.project : Work Unit).run w with
  | (.ok _, w) => .ok { w with log := {} }
  | (.error e, _) => .error e

end SourceAudit.Workbench
