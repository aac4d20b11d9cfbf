/-
# Text in HTML

The characters that mean something in HTML are written as references.
-/
import SourceAudit.Text.Basic

namespace SourceAudit.Html

/-- A character as it is written in HTML, inside quotes too. -/
def escapeChar (c : Char) : List Char :=
  if c == '&' then "&amp;".toList
  else if c == '<' then "&lt;".toList
  else if c == '>' then "&gt;".toList
  else if c == '"' then "&quot;".toList
  else if c == '\'' then "&#x27;".toList
  else [c]

def escape (s : String) : String :=
  String.ofList (s.toList.flatMap escapeChar)

/-- A character of a text whose layout is kept: blanks do not fold and line feeds break the line. -/
def preserveChar (c : Char) : List Char :=
  if c == ' ' then "&nbsp;".toList
  else if c == '\t' then "&nbsp;&nbsp;&nbsp;&nbsp;".toList
  else if c == '\n' then "<br>".toList
  else escapeChar c

def preserve (s : String) : String :=
  String.ofList (s.toList.flatMap preserveChar)

end SourceAudit.Html
