/-
# Analyses by language models

Each finding without an analysis is put to one of the usable configurations, which
take turns. A service that takes the key as a bearer is asked through a chat client; any
other gets a plain request over the net. The answers are kept by the number of the
finding, so that the order in which they come does not matter.
-/
import SourceAudit.Files.Encoding
import SourceAudit.Review.Cache

namespace SourceAudit.Review

structure ChatRequest where
  key : String
  baseUrl : String
  model : String
  prompt : String
  thinks : Bool
deriving DecidableEq, Repr, Inhabited

/-- A plain request. The names of headers are in lower case. -/
structure PostRequest where
  url : String
  headers : List (String × String)
  model : String
  prompt : String
deriving DecidableEq, Repr, Inhabited

inductive Request where
  | chat (r : ChatRequest)
  | post (r : PostRequest)
deriving DecidableEq, Repr, Inhabited

inductive ChatReply where
  /-- The content of the answer, which may be of any kind. -/
  | content (v : Value)
  /-- An error with its text, a status, and the body of the response: nothing if there is no
  response, and `some none` if its body cannot be read. -/
  | failure (text : String) (status : Value) (body : Option (Option String))
deriving Inhabited

inductive PostReply where
  | body (text : String)
  | httpError (status : Value) (body : String)
  | urlError (text : String)
deriving Inhabited

structure Network where
  chat : ChatRequest → ChatReply
  post : PostRequest → PostReply

def timeoutSeconds : Nat := 30

def systemPrompt : String := "你是严谨的应用安全审计助手。"

def firstPart (s : String) : String :=
  String.ofList (s.toList.take 300)

def statusText (status : Value) (body : String) : String :=
  Text.strip s!"HTTP {status.display} {body}"

def failureText (text : String) (status : Value) (body : Option (Option String)) : String :=
  let shown := match body with
    | none => text
    | some none => ""
    | some (some b) => firstPart b
  if status.truthy then statusText status shown else firstPart shown

def responseText (data : Value) : String :=
  let first := (data.field "choices").items.head?.getD .null
  match data.isObject, ((first.field "message").field "content"), first.field "text",
      data.field "content" with
  | true, .str s, _, _ => s
  | true, _, .str s, _ => s
  | true, _, _, .str s => s
  | _, _, _, _ => ""

def beforeFragment (url : String) : String :=
  let tail := url.toList.reverse.dropWhile (· != '#')
  if tail.isEmpty then url else String.ofList (tail.drop 1).reverse

def hasScheme (url : String) : Bool :=
  let cs := (beforeFragment url).toList
  let scheme := cs.takeWhile fun c => c != '/' && c != ':'
  !scheme.isEmpty && cs[scheme.length]? == some ':'

def bareUrl (url : String) : String :=
  let url := Text.strip url
  if Text.startsWith url "URL:" then Text.strip (String.ofList (url.toList.drop 4)) else url

def messages (prompt : String) : Value :=
  .list [.object [("role", .str "system"), ("content", .str systemPrompt)],
    .object [("role", .str "user"), ("content", .str prompt)]]

def ChatRequest.document (r : ChatRequest) : Value :=
  .object ([("model", .str r.model), ("messages", messages r.prompt), ("stream", .bool false)] ++
    (if r.thinks then
      [("reasoning_effort", .str "high"),
        ("extra_body", .object [("thinking", .object [("type", .str "enabled")])])]
    else []))

def PostRequest.document (r : PostRequest) : Value :=
  .object [("model", .str r.model), ("messages", messages r.prompt),
    ("temperature", .real (.ofDecimal false 2 (-1))), ("max_tokens", .int 600)]

/-- Headers with one more, or with its value in the place of the one of the same name. -/
def setHeader (name value : String) : List (String × String) → List (String × String)
  | [] => [(name, value)]
  | (n, v) :: rest => if n == name then (n, value) :: rest else (n, v) :: setHeader name value rest

/-- The plain request of a configuration; none for an address without a type. -/
def postRequest? (c : ApiConfig) (prompt : String) : Option PostRequest :=
  let url := bareUrl (chatUrl c.url)
  let auth := c.authHeader
  if hasScheme url then
    some {
      url
      headers := setHeader (Text.lower auth.1) auth.2
        [("content-type", "application/json"), ("accept", "application/json")]
      model := c.modelName
      prompt }
  else none

def chatRequest (c : ApiConfig) (prompt : String) : ChatRequest :=
  let base := baseUrl (Text.strip c.url)
  { key := Text.strip c.key
    baseUrl := base
    model := c.modelName
    prompt
    thinks := Text.contains (Text.lower base) "deepseek" && c.modelName == "deepseek-v4-pro" }

/-- What became of a question: the request that was made, the answer without blanks around it (empty
if there is none), and the description of an error. -/
structure Outcome where
  request : Option Request
  answer : String
  error : Option String
deriving Inhabited

def chatOutcome (r : ChatRequest) : ChatReply → Outcome
  | .content (.str s) => ⟨some (.chat r), Text.strip s, none⟩
  | .content _ => ⟨some (.chat r), "", none⟩
  | .failure text status body => ⟨some (.chat r), "", some (failureText text status body)⟩

def postOutcome (r : PostRequest) : PostReply → Outcome
  | .body text =>
    match Json.read text with
    | .ok v => ⟨some (.post r), Text.strip (responseText v), none⟩
    | .error message => ⟨some (.post r), "", some message⟩
  | .httpError status body => ⟨some (.post r), "", some (statusText status (firstPart body))⟩
  | .urlError text => ⟨some (.post r), "", some s!"<urlopen error {text}>"⟩

def ask (net : Network) (c : ApiConfig) (prompt : String) : Outcome :=
  if c.usesBearer then
    let r := chatRequest c prompt
    chatOutcome r (net.chat r)
  else
    match postRequest? c prompt with
    | some r => postOutcome r (net.post r)
    | none => ⟨none, "", none⟩

/-! ### Services -/

/-- The answers by the number of the finding, in the order of the numbers. -/
abbrev Answers := List (Nat × String)

def insertAnswer (n : Nat) (s : String) : Answers → Answers
  | [] => [(n, s)]
  | (m, t) :: rest =>
    if n = m then (n, s) :: rest
    else if n < m then (n, s) :: (m, t) :: rest
    else (m, t) :: insertAnswer n s rest

def collect (outcomes : List (Nat × Outcome)) : Answers :=
  outcomes.foldl (fun as o => if o.2.answer == "" then as else insertAnswer o.1 o.2.answer as) []

/-- The configurations, and what came of the last analysis. -/
structure Service where
  configs : List ApiConfig
  answers : Answers
  lastError : String
deriving DecidableEq, Repr, Inhabited

def defaultPrompt : String :=
  "你是资深应用安全专家。请根据以下漏洞信息，严格按格式输出，总字数不超过300字。\n" ++
  "判断规则：\n" ++
  "若存在漏洞，按格式输出：\n" ++
  "确认存在安全漏洞，修复建议：...\n" ++
  "修复代码：（仅展示修复核心代码）\n" ++
  "若不存在漏洞，按格式输出：\n" ++
  "该项漏洞为误报，理由：...（只说明理由，不要输出任何建议或代码）\n" ++
  "漏洞信息如下：\n" ++
  "漏洞位置：\x7b\x7b vulnerability_location \x7d\x7d\n" ++
  "传递链路：\x7b\x7b data_flow \x7d\x7d\n" ++
  "问题概述：\x7b\x7b issue_summary \x7d\x7d\n" ++
  "代码证据片段：\x7b\x7b evidence_code \x7d\x7d\n"

def promptTemplate (d : Disk) (appRoot : Path) : Except Fault String :=
  let p := appRoot.join (.ofString "templates/ai/analysis_prompt.md")
  match d.isFile p with
  | .error e => .error e
  | .ok false => .ok defaultPrompt
  | .ok true =>
    match d.readText [.utf8] p with
    | .ok s => .ok s
    | .error e => if e.isSystem then .ok defaultPrompt else .error e

namespace Service

def start (s : Settings) : Service :=
  ⟨ApiConfig.loadAll s, [], ""⟩

def usable (s : Service) : List ApiConfig :=
  s.configs.filter ApiConfig.isUsable

def toPublic (s : Service) : Value :=
  .list (s.configs.zipIdx.map fun c => c.1.toPublic c.2)

def addConfig (s : Service) : Service :=
  { s with configs := s.configs ++ [ApiConfig.initial] }

def place? (s : Service) (index : Int) : Option Nat :=
  if 0 ≤ index ∧ index < s.configs.length then some index.toNat else none

def deleteConfig? (s : Service) (index : Int) : Option Service :=
  (s.place? index).map fun i => { s with configs := s.configs.eraseIdx i }

/-- Changes a configuration; a blank key leaves the old one. -/
def updateConfig? (s : Service) (index : Int) (name url model keyName key : String) :
    Option Service :=
  (s.place? index).map fun i =>
    let old := (s.configs.getD i default).key
    let key := Text.strip key
    let c : ApiConfig := ⟨Text.strip name, Text.strip url, Text.strip model, Text.strip keyName,
      if key == "" then old else key⟩
    { s with configs := s.configs.set i c }

def pending (findings : List Value) : List (Nat × Value) :=
  (findings.zipIdx 1).filterMap fun f =>
    if f.1.isObject && analysisOf f.1 == "" then some (f.2, f.1) else none

/-- What becomes of a finding that is put to a model; nothing if there is no prompt for it. -/
def outcomeOf (net : Network) (configs : List ApiConfig) (prompt? : Option String) (n : Nat) :
    Outcome :=
  match prompt? with
  | some prompt => ask net (configs.getD ((n - 1) % configs.length) default) prompt
  | none => ⟨none, "", none⟩

def outcomes (net : Network) (configs : List ApiConfig) (render : Nat → Value → Option String)
    (findings : List Value) : List (Nat × Outcome) :=
  (pending findings).map fun f => (f.1, outcomeOf net configs (render f.1 f.2) f.1)

def lastErrorOf (outcomes : List (Nat × Outcome)) : String :=
  outcomes.foldl (fun e o => o.2.error.getD e) ""

/-- Puts the findings to the models: the service with the answers, and the requests made. The prompt
is read only if there is something to ask. -/
def prepare (s : Service) (net : Network) (template : Except Fault String)
    (render : String → Nat → Value → Option String) (findings : List Value) :
    Service × Except Fault (List Request) :=
  let s := { s with answers := [], lastError := "" }
  let configs := s.usable
  if configs.isEmpty || findings.isEmpty then (s, .ok [])
  else
    match template with
    | .error e => (s, .error e)
    | .ok t =>
      let done := outcomes net configs (render t) findings
      ({ s with answers := collect done, lastError := lastErrorOf done },
        .ok (done.filterMap fun o => o.2.request))

def keep (s : Service) (settings : Settings) : Option Service → Service × Settings
  | some changed => (changed, ApiConfig.saveAll settings changed.configs)
  | none => (s, settings)

end Service

end SourceAudit.Review
