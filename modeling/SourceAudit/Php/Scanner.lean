/-
# The PHP scanner

The scanner reads a file, has it parsed, and joins what the taint analysis and
the look at open actions find. It has to be made ready for a project first. A
file that cannot be read or analysed has no findings.
-/
import SourceAudit.Files.Encoding
import SourceAudit.Php.RouteAuth
import SourceAudit.Taint.Row

namespace SourceAudit

namespace Php

structure Scanner where
  ready : Bool
  context : Option ProjectContext
deriving DecidableEq, Repr, Inhabited

namespace Scanner

def name : String := "php_plugin"
def version : String := "1.0.0"
def description : String := "PHP 代码审计插件，支持 AST 解析和污点分析"
def languages : List String := ["php"]

def start : Scanner := ⟨false, none⟩

/-- Makes the scanner ready for a project. A path that is no text or cannot be looked up leaves it not
ready. -/
def prepare (s : Scanner) (d : Disk) (path : Value) : Scanner :=
  let context : Except Fault (Option ProjectContext) :=
    if !path.truthy then .ok none
    else
      match path with
      | .str p => ProjectContext.build d p
      | _ => .error .wrongKind
  match context with
  | .ok c => ⟨true, c⟩
  | .error _ => { s with ready := false }

/-- The rows of both analyses for a file with its text; nothing if the taint analysis fails. -/
def rowsOf (context : Option ProjectContext) (grammar : Grammar) (path content : String) :
    List Value :=
  let source := (Utf8.encode content).toArray
  let o := Taint.analyze (Syntax.read source (grammar "php" content))
  match o.stop with
  | some .fileRead | some .nestedSubscript => []
  | some .budget | none =>
    o.shown.map (·.toRow path) ++ (routeFindings context path content).map (·.toRow path)

def scan (s : Scanner) (d : Disk) (grammar : Grammar) (path : String) : List Value :=
  if !s.ready then []
  else
    match d.readSource path with
    | .ok content => rowsOf s.context grammar path content
    | .error _ => []

def execute (s : Scanner) (d : Disk) (grammar : Grammar) (args : Value) : Except Fault Value :=
  let refusal (message : String) : Value :=
    .object [("result", .str "error"), ("message", .str message)]
  if !s.ready then .ok (refusal "插件未初始化")
  else if !args.isObject then .error .noSuchPart
  else
    let path := args.field "file_path"
    if !path.truthy then .ok (refusal "缺少文件路径参数")
    else
      let rows := match path with
        | .str p => s.scan d grammar p
        | _ => []
      .ok (.object [("result", .str "success"), ("data", .list rows)])

end Scanner

end Php

end SourceAudit
