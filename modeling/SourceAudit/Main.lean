/-
# The command line

Each argument names a source file. The built-in rules are applied to it, and what
they hit is written as a JSON document.
-/
import SourceAudit.Rules.BuiltIn
import SourceAudit.Value.JsonWrite

namespace SourceAudit

def diskWith (path : String) (content : List UInt8) : Disk :=
  ⟨Entry.put (.file content) (.dir []) (Path.ofString path).names, []⟩

/-- What the built-in rules hit in a file, or why it cannot be read. -/
def reportOf (path : String) (content : List UInt8) : Except String String :=
  match RuleSet.builtIn.scanFile (diskWith path content) path with
  | .ok hits => .ok (Json.writePretty (.list (hits.map Hit.toValue)))
  | .error e => .error e.text

end SourceAudit

def main (args : List String) : IO UInt32 := do
  let mut code := 0
  for path in args do
    let content ← IO.FS.readBinFile path
    match SourceAudit.reportOf path content.toList with
    | .ok text => IO.println text
    | .error message =>
      IO.eprintln message
      code := 1
  return code
