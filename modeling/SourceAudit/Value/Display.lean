/-
# The shown form of a value

How a value appears inside a message or a report: a text as it is, the absence
of a value as `None`, truth values capitalised, and lists and objects with their
parts in quotes.
-/
import SourceAudit.Text.Basic
import SourceAudit.Value.Basic

namespace SourceAudit

namespace Text

/-- A number in base 16 with at least `width` digits, in lower case. -/
def hex (width n : Nat) : List Char :=
  let digits := Nat.toDigits 16 n
  List.replicate (width - digits.length) '0' ++ digits

def quoteChar (mark c : Char) : List Char :=
  if c == mark || c == '\\' then ['\\', c]
  else if c == '\t' then ['\\', 't']
  else if c == '\n' then ['\\', 'n']
  else if c == '\r' then ['\\', 'r']
  else if isPrintable c then [c]
  else if c.toNat < 0x100 then '\\' :: 'x' :: hex 2 c.toNat
  else if c.toNat < 0x10000 then '\\' :: 'u' :: hex 4 c.toNat
  else '\\' :: 'U' :: hex 8 c.toNat

/-- A text in single quotes, or in double quotes if it holds a single and no double one. -/
def quoted (s : String) : String :=
  let cs := s.toList
  let mark := if cs.contains '\x27' && !cs.contains '"' then '"' else '\x27'
  String.ofList (mark :: cs.flatMap (quoteChar mark) ++ [mark])

end Text

namespace Value

mutual

/-- The form of a value inside another: a text is quoted. -/
def inner : Value → String
  | .null => "None"
  | .bool b => if b then "True" else "False"
  | .int i => toString i
  | .real d => d.text "inf" "nan"
  | .str s => Text.quoted s
  | .list items => "[" ++ Text.join ", " (innerItems items) ++ "]"
  | .object fields => "\x7b" ++ Text.join ", " (innerFields fields) ++ "\x7d"

def innerItems : List Value → List String
  | [] => []
  | v :: rest => inner v :: innerItems rest

def innerFields : List (String × Value) → List String
  | [] => []
  | (n, v) :: rest => (Text.quoted n ++ ": " ++ inner v) :: innerFields rest

end

def display : Value → String
  | .str s => s
  | v => inner v

/-- The shown form of a field, nothing at all if the field is missing or counts as nothing. -/
def displayOr (v : Value) (other : String) : String :=
  if v.truthy then v.display else other

end Value

end SourceAudit
