/-
# Where a value must not go

The checks at the places where a value from a request does harm. Each one
looks at what is known about the value and records a finding about it.
-/
import SourceAudit.Taint.Memory
import SourceAudit.Taint.Shape

namespace SourceAudit.Taint

variable {α : Type} [HasPart α]

def report (t : Tree α) (rule : Rule) (description : String) (v : ValueId) : Run Unit :=
  record ⟨rule, t.line, description, t.text, v⟩

def userInput : String := "用户输入"

/-- One of the texts that the value may be, or that it went through, is a suspicious command. -/
def Trace.suspicious (t : Trace) : Bool :=
  anySuspicious (t.literals ++ t.transforms)

/-- A literal names a dangerous function, apart from case and leading backslashes. -/
def Trace.namesDanger (t : Trace) : Bool :=
  t.literals.any fun s => dangerousNames.contains (Text.stripStartOf '\\' (Text.lower s))

/-- The value went through an escaper that knows the connection, and through no weaker one. -/
def stronglyEscaped (transforms : List String) : Bool :=
  transforms.any strongEscapers.contains && !transforms.contains "addslashes"

/-- The functions that are dangerous by their name, with the value of all arguments. -/
def checkNamedSink (t : Tree α) (name : String) (v : ValueId) : Run Unit := do
  let known ← read v
  let evaluates := name == "preg_replace" && evaluatesReplacement (arguments t)
  if codeSinks.contains name && known.tainted then
    report t .codeExec s!"危险函数 {name} 的参数来自 {known.origin userInput}" v
  else if commandSinks.contains name && known.tainted then
    report t .commandExec s!"命令执行函数 {name} 的参数来自 {known.origin userInput}" v
  else if commandSinks.contains name && known.suspicious then
    report t .commandSuspicious s!"命令执行函数 {name} 的参数包含下载执行、反连或混淆解码特征" v
  else if includeSinks.contains name && known.tainted then
    report t .fileInclude s!"文件包含函数 {name} 的路径参数来自用户输入" v
  else if evaluates && known.tainted then
    report t .pregReplace "preg_replace 使用 /e 修饰符且参数包含用户输入" v
  else if evaluates && known.suspicious then
    report t .pregReplaceSuspicious "preg_replace 使用 /e 修饰符，替换表达式包含可疑命令执行特征" v

/-- A statement sent to a database: it may hold a value from a request only if the query keeps its
values apart or the value is strongly escaped. -/
def checkQuery (t : Tree α) (name : String) (v : ValueId) : Run Unit := do
  let known ← read v
  if isParameterized (arguments t) || !known.tainted || stronglyEscaped known.transforms then return
  let origin := known.origin "动态 SQL"
  let base := s!"SQL 查询函数 {name} 的 SQL 参数来自 {origin}"
  let advice :=
    if known.transforms.any escapers.contains then
      "；检测到转义函数处理，但拼接 SQL 仍应使用参数化查询，并确认数值上下文已加引号或强制类型转换"
    else ""
  report t .query (base ++ advice) v

/-- A value written to the session under an access key. -/
def checkSessionWrite (t : Tree α) (key : String) (v : ValueId) : Run Unit := do
  let known ← read v
  if Text.startsWith key "$_SESSION[" && known.tainted then
    report t .sessionWrite
      s!"用户输入写入 {key}，如果存在 session 文件包含链路，可能造成本地文件包含利用" v

def checkOutput (t : Tree α) (name : String) (v : ValueId) : Run Unit := do
  let known ← read v
  if known.tainted && !known.upload then
    report t .output
      s!"{name} 输出内容来自 {known.origin userInput}，需要确认是否经过适合当前上下文的编码" v

def checkInclude (t : Tree α) (v : ValueId) : Run Unit := do
  let known ← read v
  if known.tainted then
    let word := Text.replaceAll t.kind "_expression" ""
    report t .fileInclude s!"文件包含表达式 {word} 的路径参数来自用户输入" v

def checkUploadDestination (t : Tree α) (v : ValueId) : Run Unit := do
  let known ← read v
  if known.tainted then
    report t .uploadDestination
      (s!"move_uploaded_file 的保存路径包含 {known.origin userInput}，" ++
        "需要确认扩展名、文件名和目录不可被绕过") v

def checkUnserialize (t : Tree α) (v : ValueId) : Run Unit := do
  let known ← read v
  if known.tainted then
    report t .unserialize s!"unserialize 参数来自 {known.origin userInput}" v

def checkDynamicCall (t : Tree α) (name : String) (callee args : Trace) (v : ValueId) : Run Unit := do
  if callee.tainted then
    let more := if args.tainted then s!"，参数来自 {args.origin userInput}" else ""
    let both ← fresh (callee.merge args)
    report t .dynamicName (s!"动态函数名 {name} 来自 {callee.origin userInput}" ++ more) both
  else if callee.callable && args.tainted then
    let both ← fresh (callee.merge args)
    report t .dynamicBackdoor
      s!"变量 {name} 由可疑 callable 赋值后调用，参数来自 {args.origin userInput}" both
  else if callee.callable && args.suspicious then
    let both ← fresh (callee.merge args)
    report t .dynamicBackdoor
      s!"变量 {name} 由可疑 callable 赋值后调用，参数包含下载执行、反连或混淆解码特征" both
  else if args.tainted then
    report t .dynamicCall s!"动态函数 {name} 使用了用户可控参数" v

/-- A call of a function that calls another: `callback` is that one as far as it is written,
`callee` what is known about it and `rest` what is known about the other arguments. -/
def checkCallback (t : Tree α) (name : String) (callback : Option String) (callee rest : Trace) :
    Run Unit := do
  let dangerous := callback.any fun c => c != "" && dangerousNames.contains (Text.lower c)
  let risky := dangerous || callee.callable
  let shown := match callback with
    | some c => if c == "" then "动态回调" else c
    | none => "动态回调"
  if callee.tainted then
    let more := if rest.tainted then s!"，回调参数来自 {rest.origin userInput}" else ""
    let both ← fresh (callee.merge rest)
    report t .callbackName (s!"{name} 的回调函数名来自 {callee.origin userInput}" ++ more) both
  else if dangerous && name == "ob_start" then
    let both ← fresh (callee.merge rest)
    report t .bufferCallback s!"ob_start 注册危险回调 {shown}，后续输出会进入命令/代码执行函数" both
  else if risky && rest.tainted then
    let both ← fresh (callee.merge rest)
    report t .callback s!"{name} 调用危险回调 {shown}，参数来自用户输入" both
  else if risky && rest.suspicious then
    let both ← fresh (callee.merge rest)
    report t .callbackSuspicious s!"{name} 调用危险回调 {shown}，参数包含可疑命令特征" both

end SourceAudit.Taint
