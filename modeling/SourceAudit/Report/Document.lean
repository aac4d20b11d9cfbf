/-
# Reports

A report tells when and what was found in a project, with an overview by classes of risk
and a logo. It is written into a template, as lines of text or as a JSON document.
-/
import SourceAudit.Codec.Base64
import SourceAudit.Report.Evidence
import SourceAudit.Report.Template
import SourceAudit.Value.JsonWrite

namespace SourceAudit

structure Moment where
  year : Int
  month : Nat
  day : Nat
  hour : Nat
  minute : Nat
  second : Nat
deriving DecidableEq, Repr, Inhabited

namespace Moment

/-- The year, month and day of a day since the start of 1970. Years are counted from March on, so that
a leap day is the last of its year. -/
def dateOfDay (day : Int) : Int × Nat × Nat :=
  let shifted := day + 719468
  let era := shifted.fdiv 146097
  let ofEra := (shifted - era * 146097).toNat
  let yearOfEra := (ofEra - ofEra / 1460 + ofEra / 36524 - ofEra / 146096) / 365
  let ofYear := ofEra - (365 * yearOfEra + yearOfEra / 4 - yearOfEra / 100)
  let fromMarch := (5 * ofYear + 2) / 153
  let month := if fromMarch < 10 then fromMarch + 3 else fromMarch - 9
  let year := yearOfEra + era * 400 + (if month ≤ 2 then 1 else 0)
  (year, month, ofYear - (153 * fromMarch + 2) / 5 + 1)

def ofSeconds (seconds : Int) : Moment :=
  let (year, month, day) := dateOfDay (seconds.fdiv 86400)
  let ofDay := (seconds - seconds.fdiv 86400 * 86400).toNat
  ⟨year, month, day, ofDay / 3600, ofDay / 60 % 60, ofDay % 60⟩

def ofDouble (seconds : Double) : Moment :=
  ofSeconds ((seconds.toRat?.getD 0).floor)

def twoDigits (n : Nat) : String :=
  Text.padZero 2 (toString n)

def stamp (m : Moment) : String :=
  s!"{Text.padZero 4 (toString m.year)}-{twoDigits m.month}-{twoDigits m.day}" ++
    s!"T{twoDigits m.hour}:{twoDigits m.minute}:{twoDigits m.second}"

def date (m : Moment) : String :=
  s!"{m.year}年{m.month}月{m.day}日"

end Moment

end SourceAudit

namespace SourceAudit.Report

inductive Risk where
  | critical
  | high
  | medium
  | low
  | info
deriving DecidableEq, Repr, Inhabited

namespace Risk

/-- The severities of a class in small letters; the last class has all others. -/
def names : Risk → List String
  | .critical => ["critical", "严重", "致命"]
  | .high => ["high", "高危", "高"]
  | .medium => ["medium", "中危", "中"]
  | .low => ["low", "低危", "低"]
  | .info => []

def ofSeverity (severity : String) : Risk :=
  ([.critical, .high, .medium, .low].find? fun (r : Risk) =>
    r.names.contains (Text.lower severity)).getD .info

def label : Risk → String
  | .critical => "critical"
  | .high => "high"
  | .medium => "medium"
  | .low => "low"
  | .info => "info"

end Risk

def countOne (severity : String) : List (String × Nat) → List (String × Nat)
  | [] => [(severity, 1)]
  | (s, n) :: rest => if s == severity then (s, n + 1) :: rest else (s, n) :: countOne severity rest

/-- How often each severity occurs, in the order of the first occurrences. -/
def severityCounts (severities : List String) : List (String × Nat) :=
  severities.foldl (fun counts s => countOne s counts) []

def countNamed (names : List String) : Fields → Except Fault Int
  | [] => .ok 0
  | (severity, count) :: rest =>
    if names.contains (Text.lower severity) then
      match (count.orElse (.int 0)).toInt with
      | .error e => .error e
      | .ok n => (countNamed names rest).map (n + ·)
    else countNamed names rest

def overviewText (total : Int) (counts : Fields) : Except Fault String := do
  let critical ← countNamed Risk.critical.names counts
  let high ← countNamed Risk.high.names counts
  let medium ← countNamed Risk.medium.names counts
  let low ← countNamed Risk.low.names counts
  return s!"共发现{total}个安全缺陷，其中严重漏洞{critical}个、高危{high}个、中危{medium}个、低危{low}个。"

/-! ### Logos -/

def imageKind (p : Path) : String :=
  match Text.lower p.suffix with
  | ".jpg" | ".jpeg" => "image/jpeg"
  | ".png" => "image/png"
  | ".svg" => "image/svg+xml"
  | ".ico" => "image/x-icon"
  | _ => "application/octet-stream"

/-- What a page has for an image: its bytes, or its address if it cannot be read. -/
def imageSource (d : Disk) (p : Path) : Except Fault String :=
  match d.bytes p with
  | .ok bs => .ok ("data:" ++ imageKind p ++ ";base64," ++ String.ofList (Base64.encode bs))
  | .error e => if e.isSystem then .ok (fileUrl p.toString) else .error e

def iconDir (appRoot : Path) : Path :=
  (appRoot.child "assets").child "icons"

def colorLogoPath? (d : Disk) (appRoot : Path) : Except Fault (Option Path) :=
  (["app.jpg", "app.ico", "app.png", "app.svg"].map (iconDir appRoot).child).findM? d.holds

def monoLogoPath? (d : Disk) (appRoot : Path) : Except Fault (Option Path) :=
  ([(iconDir appRoot).child "app.svg"]).findM? d.holds

/-- The logo in colour in a medium, for a page that is printed or one that is not. -/
def colorLogo (d : Disk) (appRoot : Path) (m : Medium) (printed : Bool) : Except Fault String := do
  let some p ← colorLogoPath? d appRoot | return ""
  match m with
  | .html =>
    let size := if printed then " width=\"160\" style=\"width:160px;height:auto;\">"
      else " style=\"width:25%;height:auto;\">"
    return "<img class=\"logo\" src=\"" ++ Html.escape (← imageSource d p) ++
      "\" alt=\"PineSawFly Logo\"" ++ size
  | .plain => return "<img src=\"" ++ p.toString ++ "\" alt=\"PineSawFly Logo\" width=\"25%\">"

def monoLogo (d : Disk) (appRoot : Path) (m : Medium) : Except Fault String := do
  let some p ← monoLogoPath? d appRoot | return ""
  match m with
  | .html =>
    return "<img class=\"mono-logo\" src=\"" ++ Html.escape (← imageSource d p) ++
      "\" alt=\"PineSawFly Logo\">"
  | .plain => return "<img src=\"" ++ p.toString ++ "\" alt=\"PineSawFly Logo\">"

end SourceAudit.Report

namespace SourceAudit

/-! ### Documents -/

namespace Report

/-- What a report says about itself, and which parts it has. -/
structure Options where
  title : String
  author : String
  unit : String
  showsProject : Bool
  showsTime : Bool
  showsSummary : Bool
  showsLogo : Bool
  showsCode : Bool
deriving DecidableEq, Repr, Inhabited

structure Item where
  number : String
  ruleId : String
  ruleName : String
  severity : String
  summary : String
  location : String
  dataFlow : String
  found : String
  file : String
  line : Int
  analysis : String
deriving DecidableEq, Repr, Inhabited

def threeDigits (n : Int) : String :=
  if n < 0 then "-" ++ Text.padZero 2 (toString n.natAbs) else Text.padZero 3 (toString n)

namespace Item

def ofFinding (d : Disk) (index : Int) (v : Value) : Except Fault Item := do
  let f ← Finding.ofValue v
  return {
    number := threeDigits index
    ruleId := f.text "ruleId" "未知"
    ruleName := f.text "ruleName" "未知规则"
    severity := f.text "severity" "未知"
    summary := f.text "description" ""
    location := ← f.location d
    dataFlow := ← f.dataFlow
    found := f.text "match" ""
    file := f.text "file" ""
    line := ← f.line
    analysis := f.text "aiAnalysis" "" }

def toValue (i : Item) : Value :=
  .object [("id", .str i.number), ("ruleId", .str i.ruleId), ("ruleName", .str i.ruleName),
    ("severity", .str i.severity), ("riskClass", .str (Risk.ofSeverity i.severity).label),
    ("summary", .str i.summary), ("location", .str i.location), ("dataFlow", .str i.dataFlow),
    ("match", .str i.found), ("file", .str i.file), ("line", .int i.line),
    ("aiAnalysis", .str i.analysis)]

end Item

def noFindings : Medium → String
  | .html => "<p class=\"empty\">未发现问题。</p>"
  | .plain => "未发现问题。"

def labelled (label value : String) : Medium → String
  | .html =>
    "<div class=\"info-item\"><span class=\"info-label\">" ++ Html.escape label ++
      "</span><span class=\"info-value\">" ++ Html.escape value ++ "</span></div>"
  | .plain => "**" ++ label ++ "**: " ++ value

def analysisMarkup (analysis : String) (m : Medium) : String :=
  let content := Text.strip analysis
  if content == "" then ""
  else
    match m with
    | .html =>
      "<p class=\"finding-ai\"><strong>AI 分析：</strong>" ++
        Text.replaceAll (Html.escape content) "\n" "<br>" ++ "</p>"
    | .plain => "**AI 分析**: " ++ content

end Report

structure Report where
  disk : Disk
  appRoot : Path
  templateDir : Path
  options : Report.Options
  project : String
  moment : Moment
  findings : List Value

namespace Report

def counts (r : Report) : Except Fault (List (String × Nat)) := do
  let severities ← r.findings.mapM fun v => return (← Finding.ofValue v).text "severity" "未知"
  return severityCounts severities

def countFields (counts : List (String × Nat)) : Fields :=
  counts.map fun c => (c.1, .int c.2)

def summary (r : Report) : Except Fault Value := do
  return .object [("total", .int r.findings.length), ("severityCount", .object (countFields (← r.counts)))]

def overview (r : Report) : Except Fault String := do
  overviewText r.findings.length (countFields (← r.counts))

def numbered (r : Report) : List (Int × Value) :=
  (r.findings.zipIdx 1).map fun x => ((x.2 : Int), x.1)

def items (r : Report) : Except Fault (List Item) :=
  r.numbered.mapM fun x => Item.ofFinding r.disk x.1 x.2

def toValue (r : Report) : Except Fault Value := do
  let summary ← r.summary
  let overview ← r.overview
  let items ← r.items
  return .object [("title", .str r.options.title), ("author", .str r.options.author),
    ("unit", .str r.options.unit), ("projectPath", .str r.project),
    ("generatedAt", .str r.moment.stamp), ("date", .str r.moment.date),
    ("overview", .str overview), ("summary", summary), ("findings", .list (items.map Item.toValue))]

/-- The analysis of the finding with a number, nothing if there is no such finding. -/
def analysisOf (r : Report) (index : Int) (m : Medium) : Except Fault String :=
  if index ≤ 0 then .ok ""
  else
    match r.findings[(index - 1).toNat]? with
    | none => .ok ""
    | some v => (Finding.ofValue v).map fun f => analysisMarkup (f.text "aiAnalysis" "") m

def codeOf (r : Report) (v : Value) (m : Medium) : Except Fault String := do
  if r.options.showsCode then (← Finding.ofValue v).code r.disk m else return ""

/-- The values of a finding's block. Code and analyses are markup themselves. -/
def findingValues (r : Report) (index : Int) (v : Value) (m : Medium) :
    Except Fault (List (String × String)) := do
  let i ← Item.ofFinding r.disk index v
  let code ← r.codeOf v m
  let analysis ← r.analysisOf index m
  return [
    (symbol "finding_id", m.write i.number),
    (symbol "rule_id", m.write i.ruleId),
    (symbol "risk_level", m.write i.severity),
    (symbol "risk_class", m.write (Risk.ofSeverity i.severity).label),
    (symbol "issue_summary", m.write i.summary),
    (symbol "vulnerability_location", m.write i.location),
    (symbol "data_flow", m.write i.dataFlow),
    (symbol "evidence_code", code),
    (symbol "highlighted_code", code),
    (symbol "ai_analysis", analysis)]

def writeFinding (r : Report) (block : String) (index : Int) (v : Value) (m : Medium) :
    Except Fault String :=
  (r.findingValues index v m).map fun values => substitute values block

def writeBlock (r : Report) (m : Medium) (block : String) : Except Fault String := do
  if r.findings.isEmpty then return noFindings m
  return Text.join "\n" (← r.numbered.mapM fun x => r.writeFinding block x.1 x.2 m)

def allCode (r : Report) (m : Medium) : Except Fault String := do
  if !r.options.showsCode then return ""
  let codes ← r.findings.mapM fun v => do (← Finding.ofValue v).code r.disk m
  let codes := codes.filter (· != "")
  if codes.isEmpty then return ""
  match m with
  | .html =>
    return "<section class=\"snippets\"><h2>高亮代码片段</h2>" ++ String.join codes ++ "</section>"
  | .plain => return "## 高亮代码片段\n\n" ++ Text.join "\n\n" codes

def logo (r : Report) (m : Medium) (printed : Bool) : Except Fault String :=
  if r.options.showsLogo then colorLogo r.disk r.appRoot m printed else .ok ""

def mono (r : Report) (m : Medium) : Except Fault String :=
  if r.options.showsLogo then monoLogo r.disk r.appRoot m else .ok ""

def values (r : Report) (m : Medium) (printed : Bool) : Except Fault (List (String × String)) := do
  let o := r.options
  let overview ← r.overview
  let _ ← r.items
  let logo ← r.logo m printed
  let mono ← r.mono m
  let findings ← r.writeBlock m (findingBlock m)
  let code ← r.allCode m
  let part (shown : Bool) (s : String) : String := if shown then m.write s else ""
  return [
    (symbol "title", m.write o.title),
    (symbol "logo", logo),
    (symbol "color_logo", logo),
    (symbol "mono_logo", mono),
    (symbol "author", m.write o.author),
    (symbol "author_value", m.write o.author),
    (symbol "unit", m.write o.unit),
    (symbol "unit_value", m.write o.unit),
    (symbol "project_path", part o.showsProject r.project),
    (symbol "generated_at", part o.showsTime r.moment.stamp),
    (symbol "generated_at_value", m.write r.moment.stamp),
    (symbol "date", part o.showsTime r.moment.date),
    (symbol "overview", part o.showsSummary overview),
    (symbol "findings", findings),
    (symbol "affected_locations", ""),
    (symbol "evidence_code_snippets", code),
    (symbol "highlighted_code_snippets", code)]

def fill (r : Report) (f : Format) (template : String) : Except Fault String := do
  let expanded ← expandBlocks (r.writeBlock f.medium) template
  return substitute (← r.values f.medium (f == .pdf)) expanded

def render (r : Report) (f : Format) : Except Fault String := do
  let template ← templateText r.disk r.templateDir f
  match f.medium with
  | .html => r.fill f (← inlineStyles r.disk r.templateDir template)
  | .plain => r.fill f template

def Item.lines (i : Item) : List String :=
  ["Finding " ++ i.number,
    "  规则 ID: " ++ i.ruleId ++ "  风险等级: " ++ i.severity,
    "  漏洞位置: " ++ i.location,
    "  传递链路: " ++ i.dataFlow,
    "  问题概述: " ++ i.summary] ++
  (if i.analysis == "" then [] else ["  AI 分析: " ++ i.analysis]) ++ [""]

def plainText (r : Report) : Except Fault String := do
  let overview ← r.overview
  let items ← r.items
  return Text.join "\n" (
    [r.options.title, "项目: " ++ r.project, "日期: " ++ r.moment.date] ++
    (if r.options.showsSummary then ["执行摘要", overview] else []) ++ [""] ++
    items.flatMap Item.lines ++ (if items.isEmpty then ["未发现问题。"] else []))

def document (r : Report) : Except Fault String := do
  return Json.writePretty (← r.toValue) ++ "\n"

def build (r : Report) : Format → Except Fault String
  | .json => r.document
  | .text => r.plainText
  | f => r.render f

def prompt (r : Report) (template : String) (index : Int) (v : Value) : Except Fault String :=
  { r with options.showsCode := true }.writeFinding template index v .plain

end Report

end SourceAudit
