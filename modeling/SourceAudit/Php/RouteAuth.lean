/-
# Actions that anyone may call

A web project shows by its directories whether it has controllers that answer requests.
A controller lists the methods that need no login or no permission. Such a
method is reported if its body has both a risky call and a read of the request.
-/
import SourceAudit.Files.Disk
import SourceAudit.Pattern.Parser

namespace SourceAudit.Php

structure ProjectContext where
  root : Path
  isMvc : Bool
  hints : List String
  hasLogin : Bool
  hasAuth : Bool
deriving DecidableEq, Repr, Inhabited

def ProjectContext.toValue (c : ProjectContext) : Value :=
  .object [("root", .str c.root.toString), ("is_mvc", .bool c.isMvc), ("hints", .ofStrings c.hints),
    ("login", .bool c.hasLogin), ("auth", .bool c.hasAuth)]

def someDir (e : Entry) (test : Entry → Bool) : Bool :=
  (e :: (e.contents []).map (·.2)).any fun x => x.isDir && test x

/-- Some directory at or below the directory with the given name passes the test. -/
def someDirUnder (root : Entry) (name : String) (test : Entry → Bool) : Bool :=
  (root.child? name).any fun e => someDir e test

def middlewareNames (dir : Entry) : List String :=
  match dir.get? ["http", "middleware"] with
  | some e => e.entries.map (·.1)
  | none => []

/-- The name of a file of middleware for a purpose: the purpose stands before the common end. -/
def isMiddlewareFor (purpose name : String) : Bool :=
  let common := "Middleware.php"
  Text.endsWith name common &&
    Text.contains (String.ofList (name.toList.take (name.length - common.length))) purpose

def isPhpName (name : String) : Bool :=
  Text.endsWith name ".php"

def leadsToDir (root : Entry) (names : List String) : Bool :=
  (root.get? names).any Entry.isDir

def leadsToFile (root : Entry) (names : List String) : Bool :=
  (root.get? names).any Entry.isFile

def frameworks : List String :=
  ["thinkphp", "laravel", "symfony", "yii"]

def namesFramework : Entry → Bool
  | .file content =>
    let packages := Text.lower (Utf8.decodeValid content)
    frameworks.any fun f => Text.contains packages f
  | .dir _ => false

def hintTests (root : Entry) : List (String × Bool) := [
  ("controller", ["app", "application"].any fun n =>
    someDirUnder root n fun e => (e.child? "controller").isSome),
  ("route-config", someDirUnder root "app" (fun e => (e.get? ["config", "route.php"]).isSome) ||
    leadsToDir root ["route"]),
  ("middleware", (["app", "application"].any fun n =>
    someDirUnder root n fun e => (middlewareNames e).any isPhpName) ||
    leadsToFile root ["app", "middleware.php"]),
  ("thinkphp5-layout", leadsToDir root ["thinkphp"] && leadsToDir root ["application"]),
  ("composer-framework", (root.child? "composer.json").any namesFramework)]

def ProjectContext.ofEntry (path : Path) (root : Entry) : ProjectContext :=
  let hints := ((hintTests root).filter (·.2)).map (·.1)
  let has (purpose : String) :=
    someDirUnder root "app" fun e => (middlewareNames e).any (isMiddlewareFor purpose)
  { root := path
    isMvc := 2 ≤ hints.length || (has "Login" && has "Auth")
    hints
    hasLogin := has "Login"
    hasAuth := has "Auth" }

/-- What is known about the project at a path; nothing if there is no path or nothing there. -/
def ProjectContext.build (d : Disk) (path : String) : Except Fault (Option ProjectContext) :=
  if path == "" then .ok none
  else (d.find? (.ofString path)).map fun e => e.map (ProjectContext.ofEntry (.ofString path))

/-! ### Actions -/

def riskyCall : Pattern :=
  .ofText { Pattern.Flags.none with ignoreCase := true }
    ("\\b(call_user_func_array|call_user_func|readfile|file_get_contents|fopen|include|require|system" ++
      "|exec|shell_exec|passthru|eval|assert)\\s*\\(")

def requestRead : Pattern :=
  .ofText { Pattern.Flags.none with ignoreCase := true }
    ("(\\$this->request->|request\\s*\\(|input\\s*\\(|" ++
      "\\$_(?:GET|POST|REQUEST|COOKIE|FILES)\\b)")

def methodHead : Pattern :=
  .ofText .none "\\bpublic\\s+function\\s+([A-Za-z_][A-Za-z0-9_]*)\\s*\\([^)]*\\)\\s*\\\x7b"

def quotedName : Pattern :=
  .ofText .none "['\"]([A-Za-z_][A-Za-z0-9_]*)['\"]"

/-- The length of the text before the brace that closes `depth` open braces, after `size` characters;
all of it if there is no such brace. -/
def bodyLength (size : Nat) : (depth : Nat) → List Char → Nat
  | _, [] => size
  | depth, c :: cs =>
    if c == '\x7b' then bodyLength (size + 1) (depth + 1) cs
    else if c == '\x7d' then if depth ≤ 1 then size else bodyLength (size + 1) (depth - 1) cs
    else bodyLength (size + 1) depth cs

/-- A method with a body: its name, where the body starts, and the body. -/
structure Method where
  name : String
  start : Nat
  body : String
deriving DecidableEq, Repr, Inhabited

def publicMethods (content : String) : List Method :=
  let text := content.toList.toArray
  (methodHead.findAll text).filterMap fun m =>
    let rest := content.toList.drop m.stop
    let size := bodyLength 0 1 rest
    if size = 0 then none
    else some ⟨(m.group? text 1).getD "", m.stop, String.ofList (rest.take size)⟩

inductive ListFault where
  /-- The name of the list is no good as a part of a pattern. -/
  | pattern (failure : Pattern.Failure)
  /-- The pattern with the name in it matches without the list. -/
  | noList
deriving Repr

/-- The names in the list of strings that a property is set to. The property is a part of the
pattern that is looked for. -/
def listedNames (content property : String) : Except ListFault (List String) :=
  match Pattern.compile { Pattern.Flags.none with dotAll := true }
      ("\\$" ++ property ++ "\\s*=\\s*\\[(?P<body>.*?)\\]\\s*;") with
  | .error e => .error (.pattern e)
  | .ok p =>
    let text := content.toList.toArray
    match p.search? text 0 false with
    | none => .ok []
    | some m =>
      match m.named? p text "body" with
      | none => .error .noList
      | some body =>
        let body := body.toList.toArray
        .ok ((quotedName.findAll body).filterMap fun n => n.group? body 1)

structure RouteFinding where
  method : String
  /-- The action needs no login, and not just no permission. -/
  withoutLogin : Bool
  line : Nat
  sink : String
  call : String
  source : String
deriving DecidableEq, Repr, Inhabited

/-- The finding in a method, if its body has a risky call and a read of the request. -/
def methodFinding? (content : String) (m : Method) (withoutLogin : Bool) : Option RouteFinding := do
  let body := m.body.toList.toArray
  let sink ← riskyCall.search? body 0 false
  let source ← requestRead.search? body 0 false
  return {
    method := m.name
    withoutLogin
    line := Text.count '\n' (content.toList.take (m.start + sink.start)) + 1
    sink := (sink.group? body 1).getD ""
    call := String.ofList (sink.chars body)
    source := String.ofList (source.chars body) }

/-- The names that a property lists; none where they cannot be read. -/
def namesOf (content property : String) : List String :=
  match listedNames content property with
  | .ok names => names
  | .error _ => []

def openActions (content : String) : List RouteFinding :=
  let noLogin := namesOf content "notNeedLogin"
  let noAuth := namesOf content "notNeedAuth"
  (publicMethods content).filterMap fun m =>
    if noLogin.contains m.name then methodFinding? content m true
    else if noAuth.contains m.name then methodFinding? content m false
    else none

def isControllerPath (path : String) : Bool :=
  (Path.ofString path).names.any fun n => Text.lower n == "controller"

def routeFindings (context : Option ProjectContext) (path content : String) : List RouteFinding :=
  match context with
  | none => []
  | some c => if c.isMvc && isControllerPath path then openActions content else []

def RouteFinding.scope (f : RouteFinding) : String :=
  if f.withoutLogin then "免登录" else "免权限"

def RouteFinding.toRow (file : String) (f : RouteFinding) : Value :=
  .object [("type", .str "RouteAuthAnalysis"),
    ("rule_id", .str (if f.withoutLogin then "PHP_MVC_UNAUTHENTICATED_RISKY_ACTION"
      else "PHP_MVC_UNAUTHORIZED_RISKY_ACTION")),
    ("rule_name", .str s!"MVC {f.scope}危险接口"),
    ("severity", .str (if f.withoutLogin then "Critical" else "High")),
    ("file", .str file), ("line", .int f.line),
    ("description",
      .str s!"Controller 方法 {f.method} 被配置为{f.scope}，且用户输入进入危险操作 {f.sink}"),
    ("match", .str f.call),
    ("details", .object [("sources", .ofStrings [f.source]),
      ("transforms", .ofStrings [s!"route-auth:{f.scope}", s!"method:{f.method}", s!"sink:{f.sink}"])])]

end SourceAudit.Php
