/-
# Hexadecimal, percent and rotated texts

Three small encodings of texts as texts: bytes as pairs of hexadecimal
digits, percent escapes, and the alphabet rotated by half its length.
-/
import SourceAudit.Text.Utf8
import SourceAudit.Value.JsonRead

namespace SourceAudit.Codec

def hexByte? (a b : Char) : Option UInt8 :=
  match Json.hexValue? a, Json.hexValue? b with
  | some x, some y => some (x * 16 + y).toUInt8
  | _, _ => none

/-- Decodes pairs of hexadecimal digits; ASCII blanks may stand between the pairs. -/
def hexFrom (done : List UInt8) : List Char → Option (List UInt8)
  | [] => some done.reverse
  | [c] => if c == ' ' || (9 ≤ c.toNat && c.toNat ≤ 13) then some done.reverse else none
  | a :: b :: rest =>
    if a == ' ' || (9 ≤ a.toNat && a.toNat ≤ 13) then hexFrom done (b :: rest)
    else
      match hexByte? a b with
      | some x => hexFrom (x :: done) rest
      | none => none

def hexDecode? (cs : List Char) : Option (List UInt8) :=
  hexFrom [] cs

/-- The bytes of an ASCII text with its percent escapes resolved. A percent sign that opens no escape
stands for itself. -/
def percentBytes (done : List UInt8) : List Char → List UInt8
  | [] => done.reverse
  | '%' :: a :: b :: rest =>
    match hexByte? a b with
    | some x => percentBytes (x :: done) rest
    | none => percentBytes (37 :: done) (a :: b :: rest)
  | c :: rest => percentBytes (c.toNat.toUInt8 :: done) rest

/-- Decodes each stretch of ASCII characters by itself; `run` is the stretch being read and `done`
the text before it, both backwards. -/
def percentFrom (run done : List Char) : List Char → List Char
  | [] => ((Utf8.decode (percentBytes [] run.reverse)).toList.reverse ++ done).reverse
  | c :: rest =>
    if c.toNat < 128 then percentFrom (c :: run) done rest
    else
      let decoded := (Utf8.decode (percentBytes [] run.reverse)).toList
      percentFrom [] (c :: (decoded.reverse ++ done)) rest

def percentDecode (s : String) : String :=
  String.ofList (percentFrom [] [] s.toList)

def rotateChar (c : Char) : Char :=
  if ('a' ≤ c && c ≤ 'm') || ('A' ≤ c && c ≤ 'M') then Char.ofNat (c.toNat + 13)
  else if ('n' ≤ c && c ≤ 'z') || ('N' ≤ c && c ≤ 'Z') then Char.ofNat (c.toNat - 13)
  else c

def rotate (s : String) : String :=
  s.map rotateChar

end SourceAudit.Codec
