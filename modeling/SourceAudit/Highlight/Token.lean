/-
# Highlighting by tokens

A highlighted text is a list of pieces, some of which have a scope. Pages, style sheets
and scripts are not parsed: their tokens are found by expressions, tried in order at
each place. A page is cut at its script and style blocks, whose insides are highlighted
as what they are.
-/
import SourceAudit.Highlight.Vocabulary
import SourceAudit.Html.Escape
import SourceAudit.Pattern.Parser

namespace SourceAudit.Highlight

/-- A piece of text with its scope; an empty scope is the same as none. -/
structure Piece where
  text : String
  scope : Option String
deriving DecidableEq, Repr, Inhabited

def Piece.plain (text : String) : Piece := ⟨text, none⟩

def Piece.render (p : Piece) : String :=
  match p.scope with
  | none | some "" => Html.preserve p.text
  | some scope => "<span style=\"" ++ styleOf scope ++ "\">" ++ Html.preserve p.text ++ "</span>"

def renderAll (ps : List Piece) : String :=
  Text.join "" (ps.map Piece.render)

/-! ### Tokens -/

/-- A kind of token: its name, its scope and the expression that finds it. -/
structure TokenKind where
  name : String
  scope : String
  expression : String

structure Tokens where
  kinds : List TokenKind
  pattern : Pattern

def tokenExpression (kinds : List TokenKind) : String :=
  Text.join "|" (kinds.map fun k => "(?P<" ++ k.name ++ ">" ++ k.expression ++ ")")

def Tokens.ofKinds (flags : Pattern.Flags) (kinds : List TokenKind) : Tokens :=
  ⟨kinds, .ofText flags (tokenExpression kinds)⟩

def Tokens.scopeOf (t : Tokens) (m : Pattern.Match) : Option String := do
  let name ← m.lastName? t.pattern
  let kind ← t.kinds.find? (·.name == name)
  return kind.scope

def quotedText : String :=
  "\"(?:\\\\.|[^\"])*\"|'(?:\\\\.|[^'])*'"

def pageTokens : Tokens := .ofKinds .none [
  ⟨"comment", "comment", "<!--[\\s\\S]*?-->"⟩,
  ⟨"tag", "tag", "</?[A-Za-z][A-Za-z0-9:-]*|/?>"⟩,
  ⟨"string", "string", quotedText⟩,
  ⟨"attr", "attribute", "\\b[A-Za-z_:][-A-Za-z0-9_:.]*(?=\\s*=)"⟩,
  ⟨"number", "constant.numeric", "\\b\\d+(?:\\.\\d+)?\\b"⟩]

def styleTokens : Tokens := .ofKinds { Pattern.Flags.none with ignoreCase := true } [
  ⟨"comment", "comment", "/\\*[\\s\\S]*?\\*/"⟩,
  ⟨"string", "string", quotedText⟩,
  ⟨"number", "constant.numeric", "\\b\\d+(?:\\.\\d+)?(?:px|em|rem|vh|vw|%)?\\b"⟩,
  ⟨"keyword", "css.property",
    "\\b(?:color|background|display|position|grid|flex|margin|padding|border|width|height|font|" ++
      "font-family|font-size|line-height|transform|transition|animation|opacity|z-index)\\b"⟩,
  ⟨"selector", "css.selector", "[.#]?[A-Za-z_-][A-Za-z0-9_-]*(?=\\s*\\\x7b)"⟩,
  ⟨"operator", "punctuation", "[\x7b\x7d:;,>+~]"⟩]

def scriptTokens : Tokens := .ofKinds .none [
  ⟨"comment", "comment", "//[^\\n]*|/\\*[\\s\\S]*?\\*/"⟩,
  ⟨"string", "string", "`(?:\\\\.|[^`])*`|" ++ quotedText⟩,
  ⟨"number", "constant.numeric", "\\b(?:0x[0-9A-Fa-f]+|\\d+(?:\\.\\d+)?)\\b"⟩,
  ⟨"keyword", "js.keyword",
    "\\b(?:async|await|break|case|catch|class|const|continue|debugger|default|delete|do|else|" ++
      "export|extends|finally|for|from|function|get|if|import|in|instanceof|let|new|null|of|" ++
      "return|set|static|super|switch|this|throw|true|try|typeof|undefined|var|void|while|with|" ++
      "yield)\\b"⟩,
  ⟨"function", "js.function", "\\b[A-Za-z_$][A-Za-z0-9_$]*(?=\\s*\\()"⟩,
  ⟨"operator", "operator", "[+\\-*/%=!&|?:.<>]+"⟩,
  ⟨"punct", "operator", "[()\x7b\x7d\\[\\];,]"⟩]

/-- The pieces of a text from `position` on, for matches in order. -/
def tokenPiecesFrom (scope : Pattern.Match → Option String) (text : Array Char) (position : Nat) :
    List Pattern.Match → List Piece
  | [] =>
    if position < text.size then [.plain (String.ofList (Pattern.cut text position text.size))]
    else []
  | m :: rest =>
    (if position < m.start then [.plain (String.ofList (Pattern.cut text position m.start))] else []) ++
      ⟨String.ofList (m.chars text), scope m⟩ :: tokenPiecesFrom scope text m.stop rest

def tokenPieces (t : Tokens) (content : List Char) : List Piece :=
  let text := content.toArray
  tokenPiecesFrom t.scopeOf text 0 (t.pattern.findAll text)

def blockPattern : Pattern :=
  .ofText .none "(?is)<(?P<name>script|style)\\b[^>]*>.*?</(?P=name)\\s*>"

/-- The place of the last start of a closing tag. -/
def lastClosing (cs : List Char) : Nat :=
  match Text.indexFrom ['/', '<'] 0 cs.reverse with
  | some i => cs.length - i - 2
  | none => 0

/-- The pieces of a block: its opening tag, its inside and its closing tag. -/
def blockPieces (isScript : Bool) (block : List Char) : List Piece :=
  let opened := (block.takeWhile (· != '>')).length + 1
  let closed := lastClosing (Text.lower (String.ofList block)).toList
  let inner := (block.take closed).drop opened
  tokenPieces pageTokens (block.take opened) ++
    (tokenPieces (if isScript then scriptTokens else styleTokens) inner ++
      tokenPieces pageTokens (block.drop closed))

/-- The pieces of a page from `position` on, for its blocks in order. -/
def pagePiecesFrom (text : Array Char) (position : Nat) : List Pattern.Match → List Piece
  | [] =>
    if position < text.size then tokenPieces pageTokens (Pattern.cut text position text.size) else []
  | m :: rest =>
    let isScript := ((m.named? blockPattern text "name").map Text.lower) == some "script"
    (if position < m.start then tokenPieces pageTokens (Pattern.cut text position m.start) else []) ++
      (blockPieces isScript (m.chars text) ++ pagePiecesFrom text m.stop rest)

def pagePieces (content : List Char) : List Piece :=
  let text := content.toArray
  pagePiecesFrom text 0 (blockPattern.findAll text)

end SourceAudit.Highlight
