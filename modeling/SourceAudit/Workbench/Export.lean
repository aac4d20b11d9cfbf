/-
# Reports of the workbench

A report is written to a file or printed, in a format that the user names.
Templates can be read, changed and put back.
-/
import SourceAudit.Workbench.Project

namespace SourceAudit.Workbench

def loadTemplate (f : Report.Format) : Work String := do
  let w ← get
  let template ← check (Report.templateText w.disk w.templateDir f)
  modify fun w => { w with template }
  tell .reportSettings
  return template

/-- Makes a directory with all that lead to it. Those that could be made stay even if it cannot. -/
def makeDir (p : Path) : Work Unit := do
  let d := (← get).disk
  modify fun w => { w with disk := d.tryMakeDir p }
  let d ← check (d.makeDir p)
  modify fun w => { w with disk := d }

def writeFile (p : Path) (content : String) : Work Unit := do
  makeDir p.parent
  let d ← check ((← get).disk.write p (Utf8.encode content))
  modify fun w => { w with disk := d }

/-- Does some work; if files stand in its way, shows so after some words. -/
def orShow (words : String) (work : Work Unit) : Work Bool :=
  tryCatch (do work; return true) fun e =>
    if e.isSystem then do
      setStatus (words ++ e.text)
      return false
    else throw e

def saveTemplate (f : Report.Format) (content : String) : Work Bool :=
  orShow "报告模板保存失败: " do
    let p := Report.templatePath (← get).templateDir f
    writeFile p content
    modify fun w => { w with template := content }
    setStatus ("报告模板已保存: " ++ p.toString)
    tell .reportSettings

def resetTemplate (f : Report.Format) : Work String := do
  let content := Report.fixedTemplate f.medium
  let _ ← saveTemplate f content
  return content

def draw (steps : List Report.Drawing) : Work Unit :=
  modify fun w => { w with log.drawings := steps.reverse ++ w.log.drawings }

def print (now : Double) (target : Path) : Work Unit := do
  draw (Report.Sheet.opening target.toString)
  let w ← get
  let html ← check ((w.report now).render .pdf)
  let logo ← check (Report.monoLogoPath? w.disk w.appRoot)
  let logo := if w.printer.drawsImages then logo.map Path.toString else none
  let (documents, printer) := w.printer.measure (Report.splitPages html)
  let (steps, result) := w.printer.sheet.printing logo documents
  draw steps
  modify fun w => { w with printer }
  check result

/-- The file of a report: a directory gets a file of the usual name, and a name without an end gets
that of the format. -/
def reportPath (d : Disk) (f : Report.Format) (path : String) : Except Fault Path := do
  let target := Path.ofString path
  let target := if ← d.isDir target then target.child ("pinesawfly-report" ++ f.suffix) else target
  return if target.suffix == "" then target.withSuffix f.suffix else target

def writeReport (now : Double) (f : Report.Format) (target : Path) : Work Unit := do
  makeDir target.parent
  match f with
  | .pdf => print now target
  | f =>
    let w ← get
    writeFile target (← check ((w.report now).build f))

def exportReport (now : Double) (format address : String) : Work Bool := do
  let f := Report.Format.ofName format
  let path := Text.strip (pathOfUrl address)
  if path == "" then
    setStatus "请选择报告保存位置"
    return false
  let target ← check (reportPath (← get).disk f path)
  orShow "报告导出失败: " do
    writeReport now f target
    setStatus ("报告已导出: " ++ target.toString)

end SourceAudit.Workbench
