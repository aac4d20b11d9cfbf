/-
# The choices of a user

How reports look, which services review findings, and what a scan takes in. A
choice that changes something is kept in the settings and told.
-/
import SourceAudit.Workbench.Project

namespace SourceAudit.Workbench

inductive Choice where
  | projectPath
  | time
  | summary
  | logo
  | code
  | reviews
  | dependencies
deriving DecidableEq, Repr

namespace Choice

def settingName : Choice → String
  | .projectPath => "report/includeProjectPath"
  | .time => "report/includeGeneratedAt"
  | .summary => "report/includeSummary"
  | .logo => "report/includeLogo"
  | .code => "report/includeCodeSnippet"
  | .reviews => "plugins/aiAnalysis/enabled"
  | .dependencies => "plugins/phpAnalysis/includeDependencies"

def notice : Choice → Notice
  | .reviews | .dependencies => .pluginSettings
  | _ => .reportSettings

def get (c : Choice) (w : Workbench) : Bool :=
  match c with
  | .projectPath => w.options.showsProject
  | .time => w.options.showsTime
  | .summary => w.options.showsSummary
  | .logo => w.options.showsLogo
  | .code => w.options.showsCode
  | .reviews => w.reviews
  | .dependencies => w.dependencies

def set (c : Choice) (value : Bool) (w : Workbench) : Workbench :=
  match c with
  | .projectPath => { w with options.showsProject := value }
  | .time => { w with options.showsTime := value }
  | .summary => { w with options.showsSummary := value }
  | .logo => { w with options.showsLogo := value }
  | .code => { w with options.showsCode := value }
  | .reviews => { w with reviews := value }
  | .dependencies => { w with dependencies := value }

end Choice

def keep (name : String) (v : Value) : Work Unit :=
  modify fun w => { w with settings := w.settings.store name v }

def choose (c : Choice) (value : Bool) : Work Unit := do
  if value != c.get (← get) then
    modify (c.set value)
    keep c.settingName (.bool value)
    tell c.notice

/-- Sets the title of reports; a blank one is the usual one. -/
def setTitle (s : String) : Work Unit := do
  let s := Text.strip s
  let title := if s == "" then usualTitle else s
  if title != (← get).options.title then
    modify fun w => { w with options.title := title }
    keep "report/title" (.str title)
    tell .reportSettings

def setAuthor (s : String) : Work Unit := do
  let author := Text.strip s
  if author != (← get).options.author then
    modify fun w => { w with options.author := author }
    keep "report/author" (.str author)
    tell .reportSettings

def setUnit (s : String) : Work Unit := do
  let unit := Text.strip s
  if unit != (← get).options.unit then
    modify fun w => { w with options.unit := unit }
    keep "report/unit" (.str unit)
    tell .reportSettings

def keepConfigs (changed : Option Review.Service) : Work Unit := do
  let w ← get
  let (service, settings) := w.service.keep w.settings changed
  modify fun w => { w with service, settings }
  tell .pluginSettings

def addConfig : Work Unit := do
  keepConfigs (some (← get).service.addConfig)

def deleteConfig (index : Int) : Work Unit := do
  keepConfigs ((← get).service.deleteConfig? index)

def updateConfig (index : Int) (name url model keyName key : String) : Work Unit := do
  keepConfigs ((← get).service.updateConfig? index name url model keyName key)

end SourceAudit.Workbench
