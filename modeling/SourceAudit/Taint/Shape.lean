/-
# The shapes of nodes that the analysis asks about

The names that the analysis knows, and all that can be read off a node without knowing
the values of variables: called functions and methods, arguments, subscripts, literals.
-/
import SourceAudit.Pattern.Parser
import SourceAudit.Syntax.Tree

namespace SourceAudit.Taint

def superglobals : List String :=
  ["$_GET", "$_POST", "$_REQUEST", "$_COOKIE", "$_SERVER", "$_FILES"]

def clientServerKeys : List String :=
  ["HTTP_HOST", "HTTP_USER_AGENT", "HTTP_REFERER", "HTTP_ORIGIN", "HTTP_X_FORWARDED_FOR",
   "HTTP_X_REAL_IP", "HTTP_CLIENT_IP", "HTTP_ACCEPT_LANGUAGE", "QUERY_STRING", "REQUEST_URI"]

def codeSinks : List String := ["eval", "assert", "create_function"]

def commandSinks : List String := ["system", "exec", "shell_exec", "passthru", "proc_open", "popen"]

def queryFunctions : List String :=
  ["mysql_query", "mysqli_query", "pg_query", "sqlite_query", "sqlite_exec"]

def queryMethods : List String := ["query", "exec", "fetch", "fetchall", "get_one"]

def includeSinks : List String := ["include", "include_once", "require", "require_once"]

def fileReaders : List String := ["file_get_contents", "readfile", "file", "fopen"]

def callbackSinks : List String :=
  ["call_user_func", "call_user_func_array", "register_shutdown_function", "array_map",
   "array_filter", "array_walk", "ob_start"]

def decoders : List String :=
  ["base64_decode", "str_rot13", "gzinflate", "gzuncompress", "gzdecode", "urldecode",
   "rawurldecode", "hex2bin"]

def sanitizers : List String :=
  ["intval", "abs", "floatval", "boolval", "htmlspecialchars", "htmlentities", "filter_var"]

def validatorMethods : List String := ["is_number", "is_letter", "is_rec", "get_legal_id"]

def digests : List String := ["md5", "sha1", "hash", "password_hash", "crc32"]

def escapers : List String := ["mysql_real_escape_string", "mysqli_real_escape_string", "addslashes"]

def strongEscapers : List String := ["mysql_real_escape_string", "mysqli_real_escape_string"]

def dangerousNames : List String := codeSinks ++ commandSinks ++ ["preg_replace"]

def requestMethods : List String :=
  ["get", "post", "param", "request", "put", "delete", "patch", "input", "all", "file"]

def scalarCasts : List String := ["int", "integer", "float", "double", "real", "bool", "boolean"]

def stringKinds : List String := ["encapsed_string", "string", "string_literal"]

def includeKinds : List String :=
  ["include_expression", "include_once_expression", "require_expression", "require_once_expression"]

private def ignoringCase : Pattern.Flags := { Pattern.Flags.none with ignoreCase := true }

def suspiciousCommand : Pattern := .ofText ignoringCase <|
  "\\b(wget|curl|nc|ncat|netcat|bash|sh|php|python|perl|ruby|powershell|cmd|certutil|whoami|id)\\b|" ++
  "base64_decode|hex2bin|gzuncompress|gzinflate|str_rot13|/bin/sh|/bin/bash|\\be\\s+/bin/"

def statementText : Pattern := .ofText { ignoringCase with dotAll := true } <|
  "\\b(select|insert|update|delete|replace|with)\\b.+\\b(from|into|set|where|values)\\b"

def namedPlaceholder : Pattern := .ofText .none ":[A-Za-z_][A-Za-z0-9_]*"

def evaluatingPattern : Pattern := .ofText .none "/[a-zA-Z]*e[a-zA-Z]*$"

def looksLikeStatement (s : String) : Bool :=
  statementText.occursIn s

def anySuspicious (texts : List String) : Bool :=
  texts.any suspiciousCommand.occursIn

def suggestsStatement (variable' : String) : Bool :=
  let name := Text.lower variable'
  name == "$sql" || name == "$query" || Text.contains name "sql" || Text.contains name "query"

/-! ### Shapes -/

variable {α : Type} [HasPart α]

def isString (t : Tree α) : Bool :=
  stringKinds.contains t.kind

/-- The arguments of a call: what stands in each `argument` node, and any other named node. -/
def arguments (call : Tree α) : List (Tree α) :=
  match call.field? "arguments" with
  | none => []
  | some list =>
    list.children.filterMap fun c =>
      match c.kind == "argument", c.namedChildren with
      | true, first :: _ => some first
      | _, _ => if c.isNamed then some c else none

def stringContent (t : Tree α) : String :=
  String.join ((t.children.filter (·.kind == "string_content")).map (·.text))

mutual

/-- The text of a string, also of one that stands as an argument. -/
def literal? : Tree α → Option String
  | .node a cs =>
    if isString (.node a cs) then some (stringContent (.node a cs))
    else if Tree.kind (.node a cs) == "argument" then firstLiteral? cs
    else none

def firstLiteral? : List (Tree α) → Option String
  | [] => none
  | c :: cs => if c.isNamed then literal? c else firstLiteral? cs

end

def literalText (t : Tree α) : String :=
  (literal? t).getD ""

/-- The name of a called function, without leading backslashes. -/
def functionName? (f : Option (Tree α)) : Option String :=
  match f with
  | none => none
  | some t =>
    if t.kind == "name" || t.kind == "qualified_name" || t.kind == "namespace_name" then
      some (Text.stripStartOf '\\' t.text)
    else none

def methodName? (call : Tree α) : Option String :=
  (call.childOfKind? "name").map (·.text)

/-- What is subscripted: the first named child that is not a plain string. -/
def subscriptBase? (t : Tree α) : Option (Tree α) :=
  t.children.find? fun c => c.isNamed && c.kind != "string"

def subscriptKey? (t : Tree α) : Option String :=
  ((t.children.filter fun c => c.isNamed && isString c).getLast?).bind literal?

def variableName? (t : Option (Tree α)) : Option String :=
  match t with
  | some t => if t.kind == "variable_name" then some t.text else none
  | none => none

/-- A subscript as a key of its own: its text without white space. -/
def accessKey? (t : Option (Tree α)) : Option String :=
  match t with
  | some t => if t.kind == "subscript_expression" then some (Text.removeBlanks t.text) else none
  | none => none

def hasBase (t : Tree α) (p : String → Bool) : Bool :=
  (subscriptBase? t).any fun b => b.kind == "variable_name" && p b.text

/-- An entry of the array of uploaded files, other than the name of the stored file. -/
def isFilesEntry (t : Tree α) : Bool :=
  hasBase t (· == "$_FILES") && subscriptKey? t != some "tmp_name"

def isSuperglobalEntry (t : Tree α) : Bool :=
  hasBase t superglobals.contains

/-- Whether an entry of the server array is the client's; `none` for any other subscript. -/
def clientChosen? (t : Tree α) : Option Bool :=
  if hasBase t (· == "$_SERVER") then
    some ((subscriptKey? t).any fun k => clientServerKeys.contains k || Text.startsWith k "HTTP_")
  else none

def isValidatorCall (t : Tree α) : Bool :=
  t.kind == "member_call_expression" &&
    (methodName? t).any fun m => m != "" && validatorMethods.contains (Text.lower m)

def isSanitizerCall (t : Tree α) : Bool :=
  t.kind == "function_call_expression" &&
    (functionName? (t.field? "function")).any fun f => f != "" && sanitizers.contains (Text.lower f)

def readsRequest (t : Tree α) (method : String) : Bool :=
  let text := Text.lower t.text
  requestMethods.contains (Text.lower method) &&
    (Text.contains text "request" || Text.contains text "input(")

/-- The items of the second list that are not in the first, after the first. -/
def unite (a b : List String) : List String :=
  b.foldl (fun done x => if done.contains x then done else done ++ [x]) a

mutual

/-- The expressions that a condition checks: the arguments of its validator calls, without white
space. -/
def validatedInputs : Tree α → List String
  | .node a cs =>
    if isValidatorCall (.node a cs) then
      unite [] (((arguments (.node a cs)).map fun x => Text.removeBlanks x.text).filter (· != ""))
    else validatedInputsAll cs

def validatedInputsAll : List (Tree α) → List String
  | [] => []
  | c :: cs =>
    if c.isNamed then unite (validatedInputs c) (validatedInputsAll cs) else validatedInputsAll cs

end

/-- A query that keeps its values apart from the statement: the statement is a literal with a place
holder, and there is a second argument. -/
def isParameterized (arguments : List (Tree α)) : Bool :=
  match arguments with
  | first :: _ :: _ =>
    let sql := literalText first
    sql != "" && (Text.contains sql "?" || namedPlaceholder.occursIn sql)
  | _ => false

/-- The first argument is a search pattern whose replacement is run as code. -/
def evaluatesReplacement (arguments : List (Tree α)) : Bool :=
  match arguments with
  | [] => false
  | first :: _ => evaluatingPattern.occursIn (literalText first)

def readsBody (arguments : List (Tree α)) : Bool :=
  arguments.any fun a => Text.lower (literalText a) == "php://input"

end SourceAudit.Taint
