/-
# The vocabulary of highlighting

The styles of the scopes, and for each language the words that have a scope of
their own.
-/

namespace SourceAudit.Highlight

def styles : List (String × String) := [
  ("comment", "color:#6A9955;"),
  ("keyword.control", "color:#569CD6;font-weight:600;"),
  ("keyword.declaration", "color:#569CD6;font-weight:600;"),
  ("storage.modifier", "color:#569CD6;font-weight:600;"),
  ("storage.type", "color:#4EC9B0;"),
  ("constant.language", "color:#4FC1FF;font-weight:600;"),
  ("variable", "color:#9CDCFE;"),
  ("variable.declaration", "color:#9CDCFE;font-weight:600;"),
  ("variable.other.php", "color:#9CDCFE;"),
  ("variable.other.superglobal", "color:#9CDCFE;font-weight:600;"),
  ("property", "color:#9CDCFE;"),
  ("function", "color:#DCDCAA;"),
  ("support.function", "color:#DCDCAA;"),
  ("entity.name.function", "color:#DCDCAA;font-weight:600;"),
  ("function.builtin", "color:#DCDCAA;font-weight:600;"),
  ("function.magic", "color:#DCDCAA;font-style:italic;font-weight:600;"),
  ("method", "color:#DCDCAA;"),
  ("method.declaration", "color:#DCDCAA;font-weight:600;"),
  ("class", "color:#4EC9B0;font-weight:600;"),
  ("entity.name.type.class", "color:#4EC9B0;font-weight:600;"),
  ("type", "color:#4EC9B0;"),
  ("namespace", "color:#4EC9B0;"),
  ("string", "color:#CE9178;"),
  ("constant.character.escape", "color:#DCDCAA;font-weight:600;"),
  ("constant.numeric", "color:#B5CEA8;"),
  ("operator", "color:#D4D4D4;"),
  ("punctuation", "color:#D4D4D4;"),
  ("punctuation.accessor", "color:#D4D4D4;"),
  ("punctuation.definition.tag", "color:#569CD6;"),
  ("tag", "color:#800000;font-weight:600;"),
  ("attribute", "color:#FF0000;"),
  ("css.property", "color:#0000FF;"),
  ("css.selector", "color:#800000;font-weight:600;"),
  ("js.keyword", "color:#0000FF;font-weight:600;"),
  ("js.function", "color:#DCDCAA;")]

def plainStyle : String := "color:#49454F;"

def styleOf (scope : String) : String :=
  ((styles.find? (·.1 == scope)).map (·.2)).getD plainStyle

structure Keywords where
  control : List String
  declaration : List String
  modifier : List String
  type : List String
  operator : List String

def phpKeywords : Keywords where
  control := [
    "if", "else", "elseif", "for", "foreach", "while", "switch", "case", "break", "continue",
    "return", "throw", "try", "catch", "finally", "default", "do", "match", "as"]
  declaration := [
    "function", "class", "trait", "interface", "namespace", "use", "const", "fn"]
  modifier := [
    "public", "private", "protected", "static", "final", "abstract", "readonly"]
  type := [
    "int", "string", "bool", "boolean", "float", "double", "array", "object", "callable",
    "iterable", "void", "mixed", "never", "null", "true", "false", "self", "parent"]
  operator := [
    "new", "instanceof", "and", "or", "xor"]

def pythonKeywords : Keywords where
  control := [
    "if", "elif", "else", "for", "while", "break", "continue", "return", "raise", "try",
    "except", "finally", "with", "match", "case", "yield"]
  declaration := [
    "class", "def", "lambda", "import", "from", "as", "global", "nonlocal"]
  modifier := [
    "async", "await"]
  type := [
    "None", "True", "False"]
  operator := [
    "and", "or", "not", "is", "in"]

def javaKeywords : Keywords where
  control := [
    "if", "else", "for", "while", "do", "switch", "case", "break", "continue", "return",
    "throw", "try", "catch", "finally", "default", "yield"]
  declaration := [
    "class", "interface", "enum", "record", "package", "import", "new", "extends", "implements"]
  modifier := [
    "public", "private", "protected", "static", "final", "abstract", "native", "synchronized",
    "transient", "volatile", "strictfp"]
  type := [
    "boolean", "byte", "char", "double", "float", "int", "long", "short", "void", "var", "null",
    "true", "false", "this", "super"]
  operator := [
    "instanceof"]

def luaKeywords : Keywords where
  control := [
    "if", "then", "else", "elseif", "for", "while", "repeat", "until", "break", "return", "do",
    "end", "in"]
  declaration := [
    "function", "local"]
  modifier := []
  type := [
    "nil", "true", "false", "self"]
  operator := [
    "and", "or", "not"]

def goKeywords : Keywords where
  control := [
    "if", "else", "for", "range", "switch", "case", "default", "break", "continue", "return",
    "defer", "go", "select", "fallthrough"]
  declaration := [
    "package", "import", "func", "type", "const", "var", "struct", "interface"]
  modifier := []
  type := [
    "bool", "byte", "complex64", "complex128", "error", "float32", "float64", "int", "int8",
    "int16", "int32", "int64", "rune", "string", "uint", "uint8", "uint16", "uint32", "uint64",
    "uintptr", "nil", "true", "false"]
  operator := [
    "new", "make"]

def keywordsOf? : String → Option Keywords
  | "php" => some phpKeywords
  | "python" => some pythonKeywords
  | "java" => some javaKeywords
  | "lua" => some luaKeywords
  | "go" => some goKeywords
  | _ => none

def keywordScope? (language text : String) : Option String :=
  match keywordsOf? language with
  | none => none
  | some k =>
    if k.control.contains text then some "keyword.control"
    else if k.declaration.contains text then some "keyword.declaration"
    else if k.modifier.contains text then some "storage.modifier"
    else if k.type.contains text then some "storage.type"
    else if k.operator.contains text then some "operator"
    else none

def phpBuiltIns : List String := [
  "echo", "print", "isset", "empty", "unset", "include", "include_once", "require",
  "require_once", "strlen", "strpos", "str_replace", "preg_match", "preg_replace", "count",
  "array_map", "array_filter", "array_merge", "json_encode", "json_decode", "htmlspecialchars",
  "intval", "floatval", "boolval", "trim", "explode", "implode", "in_array",
  "file_get_contents", "file_put_contents", "fopen", "fclose", "curl_exec", "header",
  "session_start"]

def superglobals : List String := [
  "_SERVER", "_GET", "_POST", "_FILES", "_REQUEST", "_SESSION", "_ENV", "_COOKIE", "GLOBALS"]

/-- The methods of PHP that the language calls itself. -/
def magicMethods : List String := [
  "__construct", "__destruct", "__call", "__callStatic", "__get", "__set", "__isset", "__unset",
  "__sleep", "__wakeup", "__serialize", "__unserialize", "__toString", "__invoke",
  "__set_state", "__clone", "__debugInfo"]

def magicConstants : List String := [
  "__FILE__", "__LINE__", "__DIR__", "__FUNCTION__", "__CLASS__", "__TRAIT__", "__METHOD__",
  "__NAMESPACE__"]

end SourceAudit.Highlight
