/-
# Highlighted documents

A document is highlighted by what the end of its name says it is. PHP files are
cut at their tags; what stands between the tags is PHP or a page. A parsed source has
the spans of its innermost nodes with a scope, and of some nodes that are shown as a
whole; a span that starts before the end of the one before is left out. The scope of a
node is told by its kind, by its text, and for names by the node that it stands in.
-/
import SourceAudit.Files.Path
import SourceAudit.Highlight.Token
import SourceAudit.Php.Context
import SourceAudit.Syntax.Tree

namespace SourceAudit.Highlight

/-- A node with the kinds of the nodes that it stands in, the nearest first. -/
structure Place where
  part : Part
  inside : List String
deriving DecidableEq, Repr, Inhabited

namespace Place

def kind (p : Place) : String := p.part.kind

def text (p : Place) : String := p.part.text

def field (p : Place) : Option String :=
  if p.inside.isEmpty then none else p.part.field

def within (p : Place) (kinds : List String) : Bool :=
  p.inside.head?.any kinds.contains

def fills (p : Place) (kinds fields : List String) : Bool :=
  p.within kinds && p.field.any fields.contains

def under (p : Place) (kinds : List String) : Bool :=
  p.inside.any kinds.contains

end Place

mutual

def place (inside : List String) : Tree Part → Tree Place
  | .node p cs => .node ⟨p, inside⟩ (placeAll (p.kind :: inside) cs)

def placeAll (inside : List String) : List (Tree Part) → List (Tree Place)
  | [] => []
  | c :: cs => place inside c :: placeAll inside cs

end

def commentKinds : List String :=
  ["comment", "line_comment", "block_comment"]

def stringKinds : List String :=
  ["string", "string_literal", "raw_string_literal", "interpreted_string_literal",
    "character_literal", "string_content", "heredoc_body", "heredoc_start", "heredoc_end",
    "nowdoc_string", "template_string"]

def numberKinds : List String :=
  ["integer", "float", "integer_literal", "decimal_integer_literal", "hex_integer_literal",
    "octal_integer_literal", "binary_integer_literal", "floating_point_literal", "float_literal"]

def operatorKinds : List String :=
  ["+", "-", "*", "/", "%", "=", "==", "===", "!=", "!==", "<", ">", "<=", ">=", "&&", "||", "!",
    "=>", "??", ".."]

def punctuation : List String :=
  ["(", ")", "\x7b", "\x7d", "[", "]", ";", ",", "$", "\\", "<?php", "<?", "?>", ":", "."]

/-- The scope of a name in PHP, by the node that it stands in. -/
def phpNameScope? (p : Place) : Option String :=
  let bare := Text.stripStartOf '\\' (Text.lower p.text)
  if p.fills ["class_declaration", "interface_declaration", "trait_declaration"] ["name"] then
    some "entity.name.type.class"
  else if p.fills ["method_declaration", "function_definition"] ["name"] then
    some (if magicMethods.contains p.text then "function.magic" else "entity.name.function")
  else if p.fills ["function_call_expression", "scoped_call_expression"] ["function", "name"] then
    some (if phpBuiltIns.contains bare then "function.builtin" else "support.function")
  else if p.fills ["member_call_expression"] ["name"] then some "support.function"
  else if p.within ["object_creation_expression", "qualified_name", "namespace_name",
      "namespace_use_clause"] then
    some (if p.under ["namespace_definition", "namespace_use_declaration"] then "namespace"
      else "entity.name.type.class")
  else if p.within ["variable_name"] then
    some (if superglobals.contains p.text then "variable.other.superglobal" else "variable.other.php")
  else if p.within ["dynamic_variable_name"] then some "variable.other.php"
  else none

def phpScope? (p : Place) : Option String :=
  if magicConstants.contains p.text then some "constant.language"
  else if p.kind == "name" then phpNameScope? p
  else if p.kind == "variable_name" then
    some (if superglobals.contains (Text.stripStartOf '$' p.text) then "variable.other.superglobal"
      else "variable.other.php")
  else if ["namespace_name", "qualified_name"].contains p.kind then some "namespace"
  else none

def pythonScope? (p : Place) : Option String :=
  if p.kind != "identifier" then none
  else if p.fills ["class_definition"] ["name"] then some "class"
  else if p.fills ["function_definition"] ["name"] then some "entity.name.function"
  else if p.fills ["call"] ["function"] then some "support.function"
  else if p.fills ["attribute"] ["attribute"] then some "property"
  else if p.under ["parameters", "typed_parameter", "default_parameter"] then
    some "variable.declaration"
  else some "variable"

def javaScope? (p : Place) : Option String :=
  if ["type_identifier", "scoped_type_identifier"].contains p.kind then some "class"
  else if p.kind != "identifier" then none
  else if p.fills ["class_declaration", "interface_declaration", "enum_declaration",
      "record_declaration"] ["name"] then some "class"
  else if p.fills ["method_declaration", "constructor_declaration"] ["name"] then
    some "entity.name.function"
  else if p.fills ["method_invocation"] ["name"] then some "support.function"
  else if p.fills ["variable_declarator", "formal_parameter"] ["name"] then
    some "variable.declaration"
  else some "variable"

def luaScope? (p : Place) : Option String :=
  if p.kind != "identifier" then none
  else if p.fills ["function_declaration", "function_definition"] ["name", "method"] then
    some "entity.name.function"
  else if p.fills ["method_index_expression"] ["method"] then some "entity.name.function"
  else if p.fills ["function_call"] ["name"] then some "support.function"
  else if p.within ["parameters", "variable_list"] then some "variable.declaration"
  else some "variable"

def goScope? (p : Place) : Option String :=
  if p.kind == "type_identifier" then some "class"
  else if p.kind == "package_identifier" then some "namespace"
  else if p.kind == "field_identifier" then
    some (if p.fills ["method_declaration"] ["name"] then "entity.name.function" else "property")
  else if p.kind != "identifier" then none
  else if p.fills ["function_declaration", "method_declaration"] ["name"] then
    some "entity.name.function"
  else if p.fills ["call_expression"] ["function"] then some "support.function"
  else if p.fills ["parameter_declaration", "short_var_declaration", "var_spec"] ["name"] then
    some "variable.declaration"
  else some "variable"

def languageScope? : String → Place → Option String
  | "php", p => phpScope? p
  | "python", p => pythonScope? p
  | "java", p => javaScope? p
  | "lua", p => luaScope? p
  | "go", p => goScope? p
  | _, _ => none

def baseLanguage (language : String) : String :=
  if language == "php_only" then "php" else language

def scopeOf? (language : String) (p : Place) : Option String :=
  if p.text == "" then none
  else if commentKinds.contains p.kind then some "comment"
  else if ["escape_sequence", "escape"].contains p.kind then some "constant.character.escape"
  else if stringKinds.contains p.kind then some "string"
  else if numberKinds.contains p.kind || Text.contains p.kind "number" then some "constant.numeric"
  else if p.kind == "php_tag" then some "punctuation.definition.tag"
  else if ["->", "::"].contains p.text then some "punctuation.accessor"
  else if operatorKinds.contains p.kind then some "operator"
  else if punctuation.contains p.text then some "punctuation"
  else
    match keywordScope? (baseLanguage language) p.text with
    | some scope => some scope
    | none => languageScope? (baseLanguage language) p

/-! ### Spans -/

/-- The bytes from `start` up to `stop` have a scope. -/
structure Span where
  start : Nat
  stop : Nat
  scope : String
deriving DecidableEq, Repr, Inhabited

def wholeKinds : List String :=
  ["comment", "line_comment", "block_comment", "string_content", "heredoc_start", "heredoc_end",
    "escape_sequence"]

/-- The span of a node that is shown as one: it has a scope and a range, and no parts that are shown
by themselves. -/
def ownSpan? (language : String) (p : Place) (isLeaf : Bool) : Option Span :=
  match scopeOf? language p with
  | some scope =>
    if p.part.start < p.part.stop && (isLeaf || wholeKinds.contains p.kind) then
      some ⟨p.part.start, p.part.stop, scope⟩
    else none
  | none => none

mutual

def spans (language : String) : Tree Place → List Span
  | .node p cs =>
    match ownSpan? language p cs.isEmpty with
    | some s => [s]
    | none => spansOfAll language cs

def spansOfAll (language : String) : List (Tree Place) → List Span
  | [] => []
  | c :: cs => spans language c ++ spansOfAll language cs

end

/-- One span comes before another: it starts earlier, or at the same place and is longer. -/
def Span.before (a b : Span) : Bool :=
  a.start < b.start ||
    (a.start == b.start && ((b.stop : Int) - b.start ≤ (a.stop : Int) - a.start))

def textOf (source : Array UInt8) (start stop : Nat) : String :=
  Utf8.decode (source.extract start stop).toList

/-- The pieces of the bytes from `position` on, for spans in order. -/
def piecesFrom (source : Array UInt8) (position : Nat) : List Span → List Piece
  | [] => if position < source.size then [.plain (textOf source position source.size)] else []
  | s :: rest =>
    if s.start < position then piecesFrom source position rest
    else
      (if position < s.start then [.plain (textOf source position s.start)] else []) ++
        ⟨textOf source s.start s.stop, some s.scope⟩ :: piecesFrom source s.stop rest

def piecesOf (source : Array UInt8) (ss : List Span) : List Piece :=
  piecesFrom source 0 (ss.mergeSort Span.before)

def treePieces (language : String) (source : Array UInt8) (t : Tree Range) : List Piece :=
  piecesOf source (spans language (place [] (Syntax.read source t)))

/-! ### Documents -/

def sourcePieces (grammar : Grammar) (language : String) (content : List Char) : List Piece :=
  let text := String.ofList content
  treePieces language (Utf8.encode text).toArray (grammar language text)

/-- The length of the opening or closing tag at the start of a text, and whether PHP follows it. -/
def tagAt? : List Char → Option (Nat × Bool)
  | '?' :: '>' :: _ => some (2, false)
  | cs => (Php.tagLength? cs).map fun n => (n, true)

/-- The tags of a text from `pos` on: where they start and end, and whether PHP follows. -/
def tagsFrom (pos : Nat) : (skip : Nat) → List Char → List (Nat × Nat × Bool)
  | _, [] => []
  | skip + 1, _ :: cs => tagsFrom (pos + 1) skip cs
  | 0, c :: cs =>
    match tagAt? (c :: cs) with
    | none => tagsFrom (pos + 1) 0 cs
    | some (n, opens) => (pos, pos + n, opens) :: tagsFrom (pos + 1) (n - 1) cs

def betweenPieces (grammar : Grammar) (inPhp : Bool) (content : List Char) : List Piece :=
  if inPhp then sourcePieces grammar "php_only" content else pagePieces content

/-- The pieces of a PHP file from `position` on, for its tags in order. -/
def phpPiecesFrom (grammar : Grammar) (text : Array Char) (position : Nat) (inPhp : Bool) :
    List (Nat × Nat × Bool) → List Piece
  | [] =>
    if position < text.size then betweenPieces grammar inPhp (Pattern.cut text position text.size)
    else []
  | (start, stop, opens) :: rest =>
    (if position < start then betweenPieces grammar inPhp (Pattern.cut text position start) else []) ++
      ⟨String.ofList (Pattern.cut text start stop), some "punctuation.definition.tag"⟩ ::
        phpPiecesFrom grammar text stop opens rest

/-- The pieces of a PHP file; one without tags is PHP all through. -/
def phpPieces (grammar : Grammar) (content : List Char) : List Piece :=
  match tagsFrom 0 0 content with
  | [] => sourcePieces grammar "php_only" content
  | tags => phpPiecesFrom grammar content.toArray 0 false tags

def pieces (grammar : Grammar) (content path : String) : List Piece :=
  let cs := content.toList
  match Text.lower (Path.ofString path).suffix with
  | ".php" => phpPieces grammar cs
  | ".py" => sourcePieces grammar "python" cs
  | ".java" => sourcePieces grammar "java" cs
  | ".lua" => sourcePieces grammar "lua" cs
  | ".go" => sourcePieces grammar "go" cs
  | ".html" | ".htm" => pagePieces cs
  | ".css" => tokenPieces styleTokens cs
  | ".js" | ".ts" => tokenPieces scriptTokens cs
  | _ => [.plain content]

def highlight (grammar : Grammar) (content path : String) : String :=
  renderAll (pieces grammar content path)

end SourceAudit.Highlight
