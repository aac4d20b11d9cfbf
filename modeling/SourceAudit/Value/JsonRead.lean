/-
# Reading JSON

A reader for JSON texts that reports what it expected and where. It also takes
the three words `NaN`, `Infinity` and `-Infinity`. A fault is placed by the
number of characters that were left, from which line and column follow.
-/
import SourceAudit.Text.Basic
import SourceAudit.Value.Basic

namespace SourceAudit.Json

inductive Fault where
  | expectingValue
  | expectingName
  | expectingColon
  | expectingComma
  | unterminated
  | control
  | escape
  | unicodeEscape
  | extraData
  | byteOrderMark
deriving DecidableEq, Repr

def Fault.wording : Fault → String
  | .expectingValue => "Expecting value"
  | .expectingName => "Expecting property name enclosed in double quotes"
  | .expectingColon => "Expecting ':' delimiter"
  | .expectingComma => "Expecting ',' delimiter"
  | .unterminated => "Unterminated string starting at"
  | .control => "Invalid control character at"
  | .escape => "Invalid \\escape"
  | .unicodeEscape => "Invalid \\uXXXX escape"
  | .extraData => "Extra data"
  | .byteOrderMark => "Unexpected UTF-8 BOM (decode using utf-8-sig)"

/-- A fault with the number of characters left in the text where it was found. -/
structure Failure where
  fault : Fault
  left : Nat
deriving DecidableEq, Repr

abbrev Reader (α : Type) := List Char → Except Failure (α × List Char)

def isSpace (c : Char) : Bool :=
  c == ' ' || c == '\t' || c == '\n' || c == '\r'

def skipSpace (cs : List Char) : List Char :=
  cs.dropWhile isSpace

def hexValue? (c : Char) : Option Nat :=
  if '0' ≤ c && c ≤ '9' then some (c.toNat - 48)
  else if 'a' ≤ c && c ≤ 'f' then some (c.toNat - 87)
  else if 'A' ≤ c && c ≤ 'F' then some (c.toNat - 55)
  else none

def hexUnit? (a b c d : Char) : Option Nat := do
  let a ← hexValue? a
  let b ← hexValue? b
  let c ← hexValue? c
  let d ← hexValue? d
  return ((a * 16 + b) * 16 + c) * 16 + d

/-- The character of a code unit; half of a pair that stands alone gives the replacement
character. -/
def unitChar (n : Nat) : Char :=
  if 0xd800 ≤ n && n ≤ 0xdfff then '\ufffd' else Char.ofNat n

/-- The second half of a pair: the six characters after a first half, provided that another character
follows them. -/
def secondHalf? : List Char → Option (Option Nat)
  | '\\' :: 'u' :: a :: b :: c :: d :: _ :: _ => some (hexUnit? a b c d)
  | _ => none

/-- Reads the digits after `\u`: the character and how many characters were used. -/
def unicodeEscape : List Char → Except Failure (Char × Nat)
  | a :: b :: c :: d :: e :: rest =>
    let left := rest.length + 6
    match hexUnit? a b c d with
    | none => .error ⟨.unicodeEscape, left⟩
    | some high =>
      if 0xd800 ≤ high && high ≤ 0xdbff then
        match secondHalf? (e :: rest) with
        | none => .ok (unitChar high, 4)
        | some none => .error ⟨.unicodeEscape, left - 6⟩
        | some (some low) =>
          if 0xdc00 ≤ low && low ≤ 0xdfff then
            .ok (Char.ofNat (0x10000 + (high - 0xd800) * 1024 + (low - 0xdc00)), 10)
          else .ok (unitChar high, 4)
      else .ok (unitChar high, 4)
  | cs => .error ⟨.unicodeEscape, cs.length + 1⟩

def simpleEscape? : Char → Option Char
  | '"' => some '"'
  | '\\' => some '\\'
  | '/' => some '/'
  | 'b' => some '\x08'
  | 'f' => some '\x0c'
  | 'n' => some '\n'
  | 'r' => some '\r'
  | 't' => some '\t'
  | _ => none

/-- Reads a string up to its closing quote. `start` characters were left at the opening quote, and
`skip` characters of an escape are still to be passed over. -/
def stringFrom (start : Nat) (done : List Char) : (skip : Nat) → Reader String
  | _, [] => .error ⟨.unterminated, start⟩
  | skip + 1, _ :: cs => stringFrom start done skip cs
  | 0, c :: cs =>
    if c == '"' then .ok (String.ofList done.reverse, cs)
    else if c == '\\' then
      match cs with
      | [] => .error ⟨.unterminated, start⟩
      | 'u' :: digits =>
        match unicodeEscape digits with
        | .error e => .error e
        | .ok (d, used) => stringFrom start (d :: done) (used + 1) cs
      | e :: rest =>
        match simpleEscape? e with
        | none => .error ⟨.escape, rest.length + 2⟩
        | some d => stringFrom start (d :: done) 1 cs
    else if c.toNat < 32 then .error ⟨.control, cs.length + 1⟩
    else stringFrom start (c :: done) 0 cs

def natOf (digits : List Char) : Nat :=
  digits.foldl (fun n c => n * 10 + (c.toNat - 48)) 0

/-- The part of a number after the point: the digits, or nothing if there are none. -/
def fraction (cs : List Char) : List Char × List Char :=
  match cs with
  | '.' :: rest =>
    let digits := rest.takeWhile Char.isDigit
    if digits.isEmpty then ([], cs) else (digits, rest.dropWhile Char.isDigit)
  | _ => ([], cs)

def exponent (cs : List Char) : Option Int × List Char :=
  match cs with
  | c :: rest =>
    if c == 'e' || c == 'E' then
      let (negative, rest) : Bool × List Char :=
        match rest with
        | '-' :: r => (true, r)
        | '+' :: r => (false, r)
        | r => (false, r)
      let digits := rest.takeWhile Char.isDigit
      if digits.isEmpty then (none, cs)
      else
        let n : Int := natOf digits
        (some (if negative then -n else n), rest.dropWhile Char.isDigit)
    else (none, cs)
  | [] => (none, cs)

/-- Reads a number. One with a point or an exponent is a binary fraction, any other an integer. -/
def number? (cs : List Char) : Option (Value × List Char) :=
  let (negative, body) : Bool × List Char :=
    match cs with
    | '-' :: rest => (true, rest)
    | rest => (false, rest)
  let digits : List Char :=
    match body with
    | '0' :: _ => ['0']
    | _ => body.takeWhile Char.isDigit
  if digits.isEmpty then none
  else
    let rest := body.drop digits.length
    let (decimals, rest) := fraction rest
    let (power, rest) := exponent rest
    if decimals.isEmpty && power.isNone then
      let n : Int := natOf digits
      some (.int (if negative then -n else n), rest)
    else
      let scale : Int := power.getD 0 - (decimals.length : Int)
      some (.real (.ofDecimal negative (natOf (digits ++ decimals)) scale), rest)

def wordValues : List (List Char × Value) :=
  [("null".toList, .null), ("true".toList, .bool true), ("false".toList, .bool false),
   ("NaN".toList, .real .undefined), ("Infinity".toList, .real (.infinite false)),
   ("-Infinity".toList, .real (.infinite true))]

def scalar : Reader Value := fun cs =>
  match wordValues.find? (fun w => w.1.isPrefixOf cs) with
  | some (word, v) => .ok (v, cs.drop word.length)
  | none =>
    match number? cs with
    | some r => .ok r
    | none => .error ⟨.expectingValue, cs.length⟩

mutual

/-- Reads a value; `fuel` bounds the number of steps. -/
def value : (fuel : Nat) → Reader Value
  | 0, cs => .error ⟨.expectingValue, cs.length⟩
  | fuel + 1, cs =>
    match cs with
    | '"' :: rest => (stringFrom cs.length [] 0 rest).map fun r => (.str r.1, r.2)
    | '[' :: rest =>
      match skipSpace rest with
      | ']' :: after => .ok (.list [], after)
      | inside => listItems fuel [] inside
    | '\x7b' :: rest =>
      match skipSpace rest with
      | '\x7d' :: after => .ok (.object [], after)
      | inside => objectFields fuel [] inside
    | _ => scalar cs

/-- Reads the items of a list up to its end; `done` holds the items so far, backwards. -/
def listItems : (fuel : Nat) → List Value → Reader Value
  | 0, _, cs => .error ⟨.expectingValue, cs.length⟩
  | fuel + 1, done, cs =>
    match value fuel cs with
    | .error e => .error e
    | .ok (v, rest) =>
      match skipSpace rest with
      | ']' :: after => .ok (.list (v :: done).reverse, after)
      | ',' :: after => listItems fuel (v :: done) (skipSpace after)
      | other => .error ⟨.expectingComma, other.length⟩

/-- Reads the fields of an object up to its end; `done` holds the fields so far, backwards. -/
def objectFields : (fuel : Nat) → List (String × Value) → Reader Value
  | 0, _, cs => .error ⟨.expectingValue, cs.length⟩
  | fuel + 1, done, cs =>
    match cs with
    | '"' :: rest =>
      match stringFrom cs.length [] 0 rest with
      | .error e => .error e
      | .ok (name, rest) =>
        match skipSpace rest with
        | ':' :: rest =>
          match value fuel (skipSpace rest) with
          | .error e => .error e
          | .ok (v, rest) =>
            match skipSpace rest with
            | '\x7d' :: after => .ok (.object (Fields.ofPairs ((name, v) :: done).reverse), after)
            | ',' :: after => objectFields fuel ((name, v) :: done) (skipSpace after)
            | other => .error ⟨.expectingComma, other.length⟩
        | other => .error ⟨.expectingColon, other.length⟩
    | _ => .error ⟨.expectingName, cs.length⟩

end

def readChars (cs : List Char) : Except Failure Value :=
  if cs.head? == some '\ufeff' then .error ⟨.byteOrderMark, cs.length⟩
  else
    match value (2 * cs.length + 4) (skipSpace cs) with
    | .error e => .error e
    | .ok (v, rest) =>
      match skipSpace rest with
      | [] => .ok v
      | other => .error ⟨.extraData, other.length⟩

/-- The wording of a failure in the text `cs`, with line, column and position. -/
def Failure.message (cs : List Char) (e : Failure) : String :=
  let position := cs.length - e.left
  let before := cs.take position
  let line := Text.count '\n' before + 1
  let column := (before.reverse.takeWhile (· != '\n')).length + 1
  s!"{e.fault.wording}: line {line} column {column} (char {position})"

/-- Reads a text as JSON; a failure comes with its wording. -/
def read (s : String) : Except String Value :=
  match readChars s.toList with
  | .ok v => .ok v
  | .error e => .error (e.message s.toList)

end SourceAudit.Json
