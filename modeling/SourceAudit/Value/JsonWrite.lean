/-
# Writing JSON

The two layouts in use: on one line with a blank after each comma and colon, and
over several lines with two blanks for each level. Characters outside ASCII are
written as they are, or escaped where a text is to be sorted by its written
form.
-/
import SourceAudit.Value.Display

namespace SourceAudit.Json

/-- The escape of a character as code units in base 16. -/
def unitEscape (c : Char) : List Char :=
  let unit (n : Nat) : List Char := '\\' :: 'u' :: Text.hex 4 n
  if c.toNat < 0x10000 then unit c.toNat
  else
    let n := c.toNat - 0x10000
    unit (0xd800 + n / 1024) ++ unit (0xdc00 + n % 1024)

def stringChar (asciiOnly : Bool) (c : Char) : List Char :=
  if c == '"' || c == '\\' then ['\\', c]
  else if c == '\n' then ['\\', 'n']
  else if c == '\r' then ['\\', 'r']
  else if c == '\t' then ['\\', 't']
  else if c == '\x08' then ['\\', 'b']
  else if c == '\x0c' then ['\\', 'f']
  else if c.toNat < 32 || (asciiOnly && 126 < c.toNat) then unitEscape c
  else [c]

def writeString (asciiOnly : Bool) (s : String) : String :=
  String.ofList ('"' :: s.toList.flatMap (stringChar asciiOnly) ++ ['"'])

def writeScalar (asciiOnly : Bool) : Value → String
  | .null => "null"
  | .bool b => if b then "true" else "false"
  | .int i => toString i
  | .real d => d.text "Infinity" "NaN"
  | .str s => writeString asciiOnly s
  | .list _ | .object _ => ""

mutual

def writeLine (asciiOnly : Bool) : Value → String
  | .list items => "[" ++ Text.join ", " (lineItems asciiOnly items) ++ "]"
  | .object fields => "\x7b" ++ Text.join ", " (lineFields asciiOnly fields) ++ "\x7d"
  | v => writeScalar asciiOnly v

def lineItems (asciiOnly : Bool) : List Value → List String
  | [] => []
  | v :: rest => writeLine asciiOnly v :: lineItems asciiOnly rest

def lineFields (asciiOnly : Bool) : List (String × Value) → List String
  | [] => []
  | (n, v) :: rest =>
    (writeString asciiOnly n ++ ": " ++ writeLine asciiOnly v) :: lineFields asciiOnly rest

end

def newline (level : Nat) : String :=
  "\n" ++ String.ofList (List.replicate (2 * level) ' ')

mutual

def writeLayout (level : Nat) : Value → String
  | .list [] => "[]"
  | .object [] => "\x7b\x7d"
  | .list items =>
    "[" ++ newline (level + 1) ++ Text.join ("," ++ newline (level + 1)) (layoutItems (level + 1) items) ++
      newline level ++ "]"
  | .object fields =>
    "\x7b" ++ newline (level + 1) ++
      Text.join ("," ++ newline (level + 1)) (layoutFields (level + 1) fields) ++ newline level ++ "\x7d"
  | v => writeScalar false v

def layoutItems (level : Nat) : List Value → List String
  | [] => []
  | v :: rest => writeLayout level v :: layoutItems level rest

def layoutFields (level : Nat) : List (String × Value) → List String
  | [] => []
  | (n, v) :: rest => (writeString false n ++ ": " ++ writeLayout level v) :: layoutFields level rest

end

def write (v : Value) : String :=
  writeLine false v

def writePretty (v : Value) : String :=
  writeLayout 0 v

mutual

/-- The value with the fields of every object in the order of their names. -/
def sortFields : Value → Value
  | .list items => .list (sortItems items)
  | .object fields => .object ((sortEach fields).mergeSort fun a b => !(b.1 < a.1))
  | v => v

def sortItems : List Value → List Value
  | [] => []
  | v :: rest => sortFields v :: sortItems rest

def sortEach : List (String × Value) → List (String × Value)
  | [] => []
  | (n, v) :: rest => (n, sortFields v) :: sortEach rest

end

end SourceAudit.Json
