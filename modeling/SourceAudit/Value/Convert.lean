/-
# Numbers from texts and values

The lenient reading that settings and findings get: white space around the
number is ignored, digits of any script count, and single underscores may stand
between digits. An integer has at most 4300 digits. Where a value has to be an integer,
numbers with decimals are cut.
-/
import SourceAudit.Fault

namespace SourceAudit.Text

/-- Digits with single underscores between them: their values, or nothing if the text is not so. -/
def groupedDigits? (cs : List Char) : Option (List Nat) :=
  let rec go (afterDigit : Bool) (done : List Nat) : List Char → Option (List Nat)
    | [] => if afterDigit then some done.reverse else none
    | c :: rest =>
      if isDigit c then go true (digitValue c :: done) rest
      else if c == '_' && afterDigit then go false done rest
      else none
  go false [] cs

def ofDigits (ds : List Nat) : Nat :=
  ds.foldl (fun n d => n * 10 + d) 0

/-- A sign in front, if there is one, and the rest. -/
def signed (cs : List Char) : Bool × List Char :=
  match cs with
  | '-' :: rest => (true, rest)
  | '+' :: rest => (false, rest)
  | _ => (false, cs)

/-- White space that may stand around a number: the four separators of ASCII are none. -/
def isMargin (c : Char) : Bool :=
  isBlank c && !(0x1c ≤ c.toNat && c.toNat ≤ 0x1f)

def maxDigits : Nat := 4300

def toInt? (s : String) : Option Int :=
  let (negative, body) := signed (trimBy isMargin s.toList)
  match groupedDigits? body with
  | none => none
  | some ds =>
    let n : Int := ofDigits ds
    if maxDigits < ds.length then none else some (if negative then -n else n)

def exponentOf? (cs : List Char) : Option Int :=
  let (negative, body) := signed cs
  (groupedDigits? body).map fun ds =>
    let n : Int := ofDigits ds
    if negative then -n else n

/-- Decimals before the exponent: the values of all digits, and how many stand after the point. -/
def mantissa? (cs : List Char) : Option (List Nat × Nat) :=
  let whole := cs.takeWhile (· != '.')
  match cs.drop whole.length with
  | [] => (groupedDigits? whole).map (·, 0)
  | _ :: [] => (groupedDigits? whole).map (·, 0)
  | _ :: decimals =>
    if whole.isEmpty then (groupedDigits? decimals).map fun ds => (ds, ds.length)
    else
      match groupedDigits? whole, groupedDigits? decimals with
      | some ws, some ds => some (ws ++ ds, ds.length)
      | _, _ => none

def toDouble? (s : String) : Option Double :=
  let (negative, body) := signed (trimBy isMargin s.toList)
  let word := lower (String.ofList body)
  let magnitude : Option Double :=
    if word == "inf" || word == "infinity" then some (.infinite false)
    else if word == "nan" then some .undefined
    else
      let isMark := fun c => c == 'e' || c == 'E'
      let head := body.takeWhile (!isMark ·)
      let power : Option Int :=
        match body.drop head.length with
        | [] => some 0
        | _ :: rest => exponentOf? rest
      match mantissa? head, power with
      | some (ds, places), some e => some (.ofDecimal false (ofDigits ds) (e - places))
      | _, _ => none
  if negative then magnitude.map Double.neg else magnitude

end SourceAudit.Text

namespace SourceAudit.Value

def wholePart (q : Rat) : Int :=
  Int.tdiv q.num q.den

def toInt : Value → Except Fault Int
  | .int i => .ok i
  | .bool b => .ok (if b then 1 else 0)
  | .real d =>
    match d with
    | .infinite _ => .error .tooLarge
    | d =>
      match d.toRat? with
      | some q => .ok (wholePart q)
      | none => .error .badValue
  | .str s =>
    match Text.toInt? s with
    | some i => .ok i
    | none => .error .badValue
  | .null | .list _ | .object _ => .error .wrongKind

def toDouble : Value → Except Fault Double
  | .int i =>
    match Double.ofInt i with
    | .infinite _ => .error .tooLarge
    | d => .ok d
  | .bool b => .ok (.ofInt (if b then 1 else 0))
  | .real d => .ok d
  | .str s =>
    match Text.toDouble? s with
    | some d => .ok d
    | none => .error .badValue
  | .null | .list _ | .object _ => .error .wrongKind

end SourceAudit.Value
