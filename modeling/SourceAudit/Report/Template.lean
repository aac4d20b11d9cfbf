/-
# Report templates

A template has symbols for the values of a report, and blocks that are written
once for each finding. It comes from a file or, if there is none, is a fixed text.
Style sheets that a page links to are put into it.
-/
import SourceAudit.Files.Encoding
import SourceAudit.Html.Entities
import SourceAudit.Pattern.Parser
import SourceAudit.Report.Format

namespace SourceAudit.Report

def symbol (name : String) : String :=
  "\x7b\x7b " ++ name ++ " \x7d\x7d"

def offeredSymbols : List String :=
  ["title", "color_logo", "mono_logo", "author", "unit", "project_path", "generated_at", "date",
    "overview"].map symbol ++ ["\x7b\x7b# findings \x7d\x7d"] ++
  ["finding_id", "rule_id", "risk_level", "issue_summary", "vulnerability_location", "data_flow",
    "evidence_code", "ai_analysis"].map symbol ++ ["\x7b\x7b/ findings \x7d\x7d"]

/-- Puts values in the places of their symbols, one value after the other. -/
def substitute (values : List (String × String)) (template : String) : String :=
  values.foldl (fun t v => Text.replaceAll t v.1 v.2) template

def pageTemplate : String :=
  "<!doctype html><html lang=\"zh-CN\"><head><meta charset=\"utf-8\"><title>" ++ symbol "title" ++
  "</title></head><body><h1>" ++ symbol "title" ++ "</h1>" ++ symbol "color_logo" ++
  "<p>作者：" ++ symbol "author" ++ "</p><p>单位：" ++ symbol "unit" ++ "</p>" ++
  "<p>项目路径：" ++ symbol "project_path" ++ "</p><p>日期：" ++ symbol "date" ++ "</p>" ++
  symbol "overview" ++ "<h2>审计发现</h2>\x7b\x7b# findings \x7d\x7d<h3>Finding " ++
  symbol "finding_id" ++ "</h3><p>规则 ID：" ++ symbol "rule_id" ++ " / 风险等级：" ++
  symbol "risk_level" ++ "</p><p>" ++ symbol "issue_summary" ++ "</p><p>漏洞位置：" ++
  symbol "vulnerability_location" ++ "</p><p>传递链路：" ++ symbol "data_flow" ++ "</p>" ++
  symbol "evidence_code" ++ symbol "ai_analysis" ++ "\x7b\x7b/ findings \x7d\x7d</body></html>"

def plainFinding : String :=
  "### Finding " ++ symbol "finding_id" ++ "\n\n" ++
  "- **规则 ID**: " ++ symbol "rule_id" ++ "  **风险等级**: " ++ symbol "risk_level" ++ "\n" ++
  "- **问题概述**: " ++ symbol "issue_summary" ++ "\n\n" ++
  "- **漏洞位置**: " ++ symbol "vulnerability_location" ++ "\n" ++
  "- **传递链路**: " ++ symbol "data_flow" ++ "\n\n" ++
  symbol "evidence_code" ++ "\n"

def plainTemplate : String :=
  "# " ++ symbol "title" ++ "\n\n" ++ symbol "color_logo" ++ "\n\n" ++
  "作者：" ++ symbol "author" ++ "\n\n" ++ "单位：" ++ symbol "unit" ++ "\n\n" ++
  "项目路径：" ++ symbol "project_path" ++ "\n\n" ++ "日期：" ++ symbol "date" ++ "\n\n" ++
  symbol "overview" ++ "\n\n" ++ "## 审计发现\n\n" ++ "\x7b\x7b# findings \x7d\x7d\n" ++
  plainFinding ++ "\n" ++ symbol "ai_analysis" ++ "\n\n" ++ "\x7b\x7b/ findings \x7d\x7d\n"

def fixedTemplate : Medium → String
  | .html => pageTemplate
  | .plain => plainTemplate

def findingBlock : Medium → String
  | .html =>
    "<article class=\"finding risk-" ++ symbol "risk_class" ++ "\">" ++
    "<div class=\"finding-header\"><div><h2>Finding " ++ symbol "finding_id" ++
    "</h2></div></div><div class=\"finding-body\"><p class=\"finding-line\"><strong>规则 ID：</strong>" ++
    symbol "rule_id" ++ " <strong>风险等级：</strong>" ++ symbol "risk_level" ++ "</p>" ++
    "<p class=\"finding-summary\"><strong>问题概述：</strong>" ++ symbol "issue_summary" ++ "</p>" ++
    "<p class=\"finding-location\"><strong>漏洞位置：</strong>" ++
    symbol "vulnerability_location" ++ "</p>" ++
    "<p class=\"finding-flow\"><strong>传递链路：</strong>" ++ symbol "data_flow" ++ "</p>" ++
    symbol "evidence_code" ++ symbol "ai_analysis" ++ "</div></article>"
  | .plain => plainFinding ++ symbol "ai_analysis" ++ "\n"

def templatePath (dir : Path) (f : Format) : Path :=
  dir.child f.templateName

/-- The template of a format: that of the file, or the fixed one if there is none or it cannot be
opened. -/
def templateText (d : Disk) (dir : Path) (f : Format) : Except Fault String := do
  let p := templatePath dir f
  if !(← d.holds p) then return fixedTemplate f.medium
  match d.readText [.utf8] p with
  | .ok s => return s
  | .error e => if e.isSystem then return fixedTemplate f.medium else throw e

/-- A piece of a template: text, or a block for each finding. -/
inductive Segment where
  | text (chars : List Char)
  | block (chars : List Char)
deriving DecidableEq, Repr

/-- What follows a mark of a block with a sign: the start has a hash and the end a slash. -/
def afterMark? (sign : Char) : List Char → Option (List Char)
  | '\x7b' :: '\x7b' :: c :: rest =>
    let word := rest.dropWhile Text.isBlank
    if c == sign && "findings".toList.isPrefixOf word then
      match (word.drop 8).dropWhile Text.isBlank with
      | '\x7d' :: '\x7d' :: after => some after
      | _ => none
    else none
  | _ => none

/-- The text up to the next end of a block, and what follows that; `block` is what was read of it,
backwards. -/
def untilEnd? (block : List Char) : List Char → Option (List Char × List Char)
  | [] => none
  | c :: cs =>
    match afterMark? '/' (c :: cs) with
    | some after => some (block.reverse, after)
    | none => untilEnd? (c :: block) cs

/-- The block at the start of a text, and what follows it. -/
def block? (cs : List Char) : Option (List Char × List Char) :=
  match afterMark? '#' cs with
  | some inside => untilEnd? [] inside
  | none => none

/-- The pieces of a template. `skip` characters of a block are still to be passed over, and `text`
is what was read since the last block, backwards. -/
def segmentsFrom (text : List Char) : (skip : Nat) → List Char → List Segment
  | _, [] => [.text text.reverse]
  | skip + 1, _ :: cs => segmentsFrom text skip cs
  | 0, c :: cs =>
    match block? (c :: cs) with
    | some (block, after) =>
      .text text.reverse :: .block block :: segmentsFrom [] (cs.length - after.length) cs
    | none => segmentsFrom (c :: text) 0 cs

def segments (template : String) : List Segment :=
  segmentsFrom [] 0 template.toList

def expandBlocks (write : String → Except Fault String) (template : String) :
    Except Fault String := do
  let pieces ← (segments template).mapM fun s =>
    match s with
    | .text cs => .ok (String.ofList cs)
    | .block cs => write (String.ofList cs)
  return String.join pieces

def styleLink : Pattern :=
  .ofText { Pattern.Flags.none with ignoreCase := true }
    ("<link\\b(?=[^>]*\\brel=[\"']stylesheet[\"'])" ++
      "(?=[^>]*\\bhref=[\"'](?P<href>[^\"']+)[\"'])[^>]*>")

/-- The style sheet that an address leads to, if it is a file below the directory of the template. -/
def styleSheet? (d : Disk) (dir : Path) (address : String) : Except Fault (Option String) :=
  let address := Html.unescape address
  let p := (dir.join (.ofString address)).absolute d.cwd
  if address.toList.contains '\x00' then .error .nulInPath
  else
    match d.isFile p with
    | .ok true =>
      if p.parents.contains (dir.absolute d.cwd) then
        match d.readText [.utf8] p with
        | .ok s => .ok (some s)
        | .error e => if e.isSystem then .ok none else .error e
      else .ok none
    | .ok false | .error _ => .ok none

/-- Replaces matches, with the text between them kept from `position` on. -/
def replaceMatches (text : Array Char) (write : Pattern.Match → Except Fault String)
    (position : Nat) : List Pattern.Match → Except Fault String
  | [] => .ok (String.ofList (Pattern.cut text position text.size))
  | m :: rest => do
    let new ← write m
    let after ← replaceMatches text write m.stop rest
    return String.ofList (Pattern.cut text position m.start) ++ new ++ after

/-- The template with the style sheets in the places of the links to them. -/
def inlineStyles (d : Disk) (dir : Path) (template : String) : Except Fault String :=
  let text := template.toList.toArray
  replaceMatches text (fun m => do
    match ← styleSheet? d dir ((m.group? text 1).getD "") with
    | some css => return "<style>\n" ++ css ++ "\n</style>"
    | none => return String.ofList (Pattern.cut text m.start m.stop)) 0 (styleLink.findAll text)

end SourceAudit.Report
