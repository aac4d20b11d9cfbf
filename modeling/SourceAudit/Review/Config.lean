/-
# Access to language models

A configuration names a service that answers chat requests, the model to ask, and
the key to show. Older settings had the model in the place of the name; such an
entry is brought up to date when it is read.
-/
import SourceAudit.Codec.Sha256
import SourceAudit.Fault
import SourceAudit.Settings
import SourceAudit.Value.JsonRead
import SourceAudit.Value.JsonWrite

namespace SourceAudit.Review

structure ApiConfig where
  name : String
  url : String
  model : String
  keyName : String
  key : String
deriving DecidableEq, Repr, Inhabited

/-- Names of models that stood in the place of the service's name. -/
def knownModels : List String :=
  ["deepseek", "deepseek api", "deepseek-chat", "deepseek-reasoner", "deepseek-v4-flash",
    "deepseek-v4-pro", "gpt-5", "gpt-5-mini", "gpt-4.1", "gpt-4.1-mini",
    "claude-3-5-sonnet-latest", "claude-3-5-haiku-latest", "gemini-2.5-pro", "gemini-2.5-flash",
    "qwen-plus", "qwen-max"]

def modelBeginnings : List String :=
  ["gpt-", "claude-", "gemini-", "qwen-", "deepseek-"]

def looksLikeModel (s : String) : Bool :=
  let name := Text.lower (Text.strip s)
  knownModels.contains name || modelBeginnings.any (Text.startsWith name)

def defaultModel (url : String) : String :=
  if Text.contains (Text.lower url) "deepseek" then "deepseek-v4-flash" else "gpt-5-mini"

/-- The model that an old entry asked for by its name. -/
def legacyModel (name url : String) : String :=
  let lowered := Text.lower (Text.strip name)
  if ["deepseek", "deepseek api", "deepseek-chat"].contains lowered then "deepseek-v4-flash"
  else if lowered == "deepseek-reasoner" then "deepseek-v4-pro"
  else if Text.strip name == "" then defaultModel url
  else Text.strip name

def providers : List String :=
  ["DeepSeek 官方", "OpenAI 官方", "自定义 API"]

def providerName (url : String) : String :=
  let lowered := Text.lower url
  if Text.contains lowered "deepseek" then "DeepSeek 官方"
  else if Text.contains lowered "openai" then "OpenAI 官方"
  else "自定义 API"

def protectedMark : String := "dpapi:"

def openKey (s : String) : String :=
  if Text.startsWith s protectedMark then "" else s

def storeKey (s : String) : String := s

def maskKey (s : String) : String :=
  let cs := s.toList
  let n := cs.length
  if n ≤ 11 then String.ofList (List.replicate n '*')
  else String.ofList (cs.take 7 ++ List.replicate (max 4 (n - 11)) '*' ++ cs.drop (n - 4))

def keyFingerprint (s : String) : String :=
  if s == "" then "" else String.ofList ((Sha256.hexDigest s).toList.take 10)

def trimUrl (url : String) : String :=
  Text.stripEndOf '/' (Text.strip url)

def chatEnd : String := "/chat/completions"

def chatUrl (url : String) : String :=
  let value := trimUrl url
  if value == "" || Text.endsWith (Text.lower value) chatEnd then value else value ++ chatEnd

def baseUrl (url : String) : String :=
  let value := trimUrl url
  if Text.endsWith (Text.lower value) chatEnd then
    String.ofList (value.toList.take (value.length - chatEnd.length))
  else value

def storedDocument? : Value → Option Value
  | .str s => orNothing (Json.read s)
  | _ => none

namespace ApiConfig

def initial : ApiConfig :=
  ⟨"DeepSeek 官方", "https://api.deepseek.com", "deepseek-v4-flash", "DEEPSEEK_API_KEY", ""⟩

def usesBearer (c : ApiConfig) : Bool :=
  let url := Text.lower c.url
  let keyName := Text.strip c.keyName
  let name := Text.replaceAll (Text.lower keyName) "-" "_"
  Text.contains url "deepseek" || Text.contains url "openai" || keyName == "" ||
    name == "authorization" || Text.endsWith name "_api_key" || name == "api_key"

def authHeader (c : ApiConfig) : String × String :=
  let key := Text.strip c.key
  if c.usesBearer then
    ("Authorization", if Text.startsWith (Text.lower key) "bearer " then key else "Bearer " ++ key)
  else (Text.strip c.keyName, key)

def modelName (c : ApiConfig) : String :=
  let model := Text.strip c.model
  if model == "" then defaultModel (Text.lower c.url)
  else if Text.lower model == "deepseek-chat" then "deepseek-v4-flash"
  else if Text.lower model == "deepseek-reasoner" then "deepseek-v4-pro"
  else model

def isUsable (c : ApiConfig) : Bool :=
  Text.strip c.url != "" && Text.strip c.key != ""

def ofEntry (v : Value) : ApiConfig :=
  let text (name : String) : String := ((v.field? name).getD (.str "")).display
  let name := Text.strip (text "apiName")
  let url := Text.strip (text "apiUrl")
  let model := Text.strip (text "modelName")
  let isOld := model == "" && looksLikeModel name
  { name := if isOld then providerName url else name
    url
    model := if isOld then legacyModel name url else model
    keyName := text "keyName"
    key := openKey (text "apiKey") }

def toEntry (c : ApiConfig) (key : String) : Value :=
  .object [("apiName", .str c.name), ("apiUrl", .str c.url), ("modelName", .str c.model),
    ("keyName", .str c.keyName), ("apiKey", .str key)]

def toValue (c : ApiConfig) : Value :=
  c.toEntry c.key

/-- Reads a configuration from a document of which some fields are needed: those must be texts if
they are there. -/
def read (v : Value) (needed : List String) : Except Fault ApiConfig :=
  let text (name : String) : String := (v.field name).string?.getD ""
  if !v.isObject || needed.any fun n => (v.field? n).any (·.string?.isNone) then .error .noSuchPart
  else .ok ⟨text "apiName", text "apiUrl", text "modelName", text "keyName", text "apiKey"⟩

def toPublic (index : Nat) (c : ApiConfig) : Value :=
  .object [("index", .int index), ("apiName", .str c.name), ("apiUrl", .str c.url),
    ("modelName", .str c.model), ("keyName", .str c.keyName), ("apiKey", .str ""),
    ("maskedKey", .str (maskKey c.key)), ("keyFingerprint", .str (keyFingerprint c.key))]

def settingName : String := "plugins/aiAnalysis/apis"

def loadAll (s : Settings) : List ApiConfig :=
  match storedDocument? (s.value settingName (.str "[]")) with
  | some (.list items) => (items.filter Value.isObject).map ofEntry
  | _ => []

def savedText (configs : List ApiConfig) : String :=
  Json.write (.list (configs.map fun c => c.toEntry (storeKey c.key)))

def saveAll (s : Settings) (configs : List ApiConfig) : Settings :=
  s.store settingName (.str (savedText configs))

end ApiConfig

end SourceAudit.Review
