/-
# Findings on the workbench

A scan brings the findings of the project, with the analyses that were kept for
them. A review asks models about the findings that have no analysis.
-/
import SourceAudit.Workbench.Project

namespace SourceAudit.Workbench

def finishScan (findings : List Value) (message : String) : Work Unit := do
  let w ← get
  let key := Review.projectKey w.disk.cwd w.project
  let (findings, restored) := Review.Cache.restore w.settings key findings
  modify fun w => { w with findings }
  if restored then setStatus "已加载本地 AI 分析缓存"
  tell .findings
  setStatus message
  setScanning false

def failScan (message : String) : Work Unit := do
  setStatus ("扫描失败: " ++ message)
  setScanning false

def startScan (grammar : Grammar) : Work Unit := do
  if (← get).scanning then return
  setScanning true
  setStatus "正在扫描..."
  modify fun w => { w with findings := [] }
  tell .findings
  tell .scanBegun
  let w ← get
  match Scan.scanProject w.disk grammar w.dependencies w.project with
  | .ok rows =>
    tell .scanDone
    finishScan rows (Scan.finishedMessage rows.length)
  | .error e =>
    tell .scanGivenUp
    failScan e.text
  tell .scanCleared

def withAnswers (answers : Review.Answers) (findings : List Value) : List Value :=
  (findings.zipIdx 1).map fun f =>
    match f.1, answers.lookup f.2 with
    | .object fields, some answer => .object (Fields.set "aiAnalysis" (.str answer) fields)
    | v, _ => v

def finishReview (now : Double) (service : Review.Service) : Work Unit := do
  modify fun w => { w with findings := withAnswers service.answers w.findings }
  tell .findings
  if !service.answers.isEmpty then
    modify fun w =>
      { w with settings := Review.Cache.save w.settings w.disk.cwd w.project now w.findings }
    setStatus s!"AI 分析完成，新增 {service.answers.length} 条分析结果"
  else if service.lastError != "" then setStatus ("AI 分析请求失败: " ++ service.lastError)
  else setStatus "AI 分析完成，未生成有效内容"

/-- Why no review can start, if there is a reason. -/
def reviewRefusal? (w : Workbench) : Option String :=
  if w.findings.isEmpty then some "请先完成扫描，再进行 AI 分析"
  else if !w.reviews then some "请先在插件页面启用 AI 分析"
  else if w.service.usable.isEmpty then some "请先配置可用的 AI API URL 和 Key"
  else if (Review.Service.pending w.findings).isEmpty then some "AI 分析已存在，无需重复请求"
  else none

/-- Asks models about the findings that have no analysis, unless a scan goes on. -/
def startReview (s : Surroundings) : Work Unit := do
  let w ← get
  if w.scanning then return
  if let some message := reviewRefusal? w then return ← setStatus message
  setScanning true
  setStatus "正在进行 AI 分析..."
  let report := w.report s.now
  let (service, outcome) := w.service.prepare s.network (Review.promptTemplate w.disk w.appRoot)
    (fun t n f => orNothing (report.prompt t n f)) w.findings
  modify fun w => { w with service }
  match outcome with
  | .error e =>
    setScanning false
    throw e
  | .ok requests =>
    modify fun w => { w with log.requests := requests.reverse ++ w.log.requests }
    finishReview s.now service
    setScanning false

end SourceAudit.Workbench
