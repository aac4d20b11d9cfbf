/-
# Numbers of the 64-bit binary format

A finite number is its exact value, so that arithmetic is arithmetic of
fractions followed by one rounding to the nearest number of the format, a tie
going to the even one. The text of a number has the fewest digits that read back
as that number.
-/

namespace SourceAudit

/-- A number of the 64-bit binary floating-point format. -/
inductive Double where
  | finite (value : Rat)
  | negZero
  | infinite (negative : Bool)
  | undefined
deriving DecidableEq, Inhabited

namespace Double

def pow2 (e : Int) : Rat :=
  if 0 ≤ e then (Nat.pow 2 e.toNat : Rat) else 1 / (Nat.pow 2 (-e).toNat : Rat)

def pow10 (e : Int) : Rat :=
  if 0 ≤ e then (Nat.pow 10 e.toNat : Rat) else 1 / (Nat.pow 10 (-e).toNat : Rat)

/-- The integer nearest to `q`, a tie going to the even one. -/
def roundEven (q : Rat) : Int :=
  let low := q.floor
  let part := q - low
  if part < 1/2 then low else if 1/2 < part then low + 1 else if low % 2 = 0 then low else low + 1

/-- The exponent `e` of the last place of a positive number: `2^52 ≤ q / 2^e < 2^53`, but not below
the least exponent of the format. -/
def lastPlace (q : Rat) : Int :=
  let guess : Int := (q.num.toNat.log2 : Int) - (q.den.log2 : Int) - 53
  let e := if q / pow2 guess < pow2 53 then guess else guess + 1
  if e < -1074 then -1074 else e

/-- The nearest number of the format to a fraction that is not negative. -/
def ofNonneg (q : Rat) : Double :=
  if q = 0 then .finite 0
  else
    let e := lastPlace q
    let r := (roundEven (q / pow2 e) : Rat) * pow2 e
    if pow2 1024 ≤ r then .infinite false else .finite r

def neg : Double → Double
  | .finite v => if v = 0 then .negZero else .finite (-v)
  | .negZero => .finite 0
  | .infinite n => .infinite (!n)
  | .undefined => .undefined

def ofRat (q : Rat) : Double :=
  if q < 0 then (ofNonneg (-q)).neg else ofNonneg q

def ofInt (i : Int) : Double :=
  ofRat i

/-- `digits · 10 ^ exponent`, rounded. Exponents far outside the format are decided without
computing the power. -/
def ofDecimal (negative : Bool) (digits : Nat) (exponent : Int) : Double :=
  let size : Int := (Nat.toDigits 10 digits).length + exponent
  let d :=
    if digits = 0 then .finite 0
    else if 400 < size then .infinite false
    else if size < -400 then .finite 0
    else ofNonneg ((digits : Rat) * pow10 exponent)
  if negative then d.neg else d

def toRat? : Double → Option Rat
  | .finite v => some v
  | .negZero => some 0
  | _ => none

/-- Less than; nothing is less or greater than the undefined number. -/
def lt (a b : Double) : Bool :=
  match a, b with
  | .undefined, _ | _, .undefined => false
  | .infinite n, .infinite m => n && !m
  | .infinite n, _ => n
  | _, .infinite m => !m
  | a, b => (a.toRat?.getD 0) < (b.toRat?.getD 0)

/-- Equality of numbers: the two zeros are equal, the undefined number equals nothing. -/
def same (a b : Double) : Bool :=
  match a, b with
  | .undefined, _ | _, .undefined => false
  | .infinite n, .infinite m => n == m
  | .infinite _, _ | _, .infinite _ => false
  | a, b => a.toRat? == b.toRat?

def isZero (d : Double) : Bool :=
  d.toRat? == some 0

def sub (a b : Double) : Double :=
  match a, b with
  | .undefined, _ | _, .undefined => .undefined
  | .infinite n, .infinite m => if n == m then .undefined else .infinite n
  | .infinite n, _ => .infinite n
  | _, .infinite m => .infinite (!m)
  | a, b => ofRat (a.toRat?.getD 0 - b.toRat?.getD 0)

def add (a b : Double) : Double :=
  a.sub b.neg

def scale (n : Int) : Double → Double
  | .finite v => ofRat (n * v)
  | .negZero => ofRat 0
  | d => d

/-- The greatest integer that is not above the quotient of two finite numbers. -/
def floorDiv (a b : Double) : Int :=
  (a.toRat?.getD 0 / b.toRat?.getD 0).floor

/-- The exponent of the first digit: `10 ^ e ≤ q < 10 ^ (e + 1)` for a positive `q`, found from a
start within two of it. -/
def leadingExponent (q : Rat) : Int :=
  let digits (n : Nat) : Int := (Nat.toDigits 10 n).length
  let guess := digits q.num.toNat - digits q.den
  if pow10 guess ≤ q then (if q < pow10 (guess + 1) then guess else guess + 1)
  else guess - 1

/-- Of the two decimals with `n` digits next to `q`, the nearer one that reads back as `q`; of two
equally near ones the even one. -/
def shortCandidate? (q : Rat) (lead : Int) (n : Nat) : Option Nat :=
  let unit := pow10 (lead - (n : Int) + 1)
  let low := (q / unit).floor.toNat
  let reads (m : Nat) : Bool := ofNonneg ((m : Rat) * unit) == .finite q
  let below := q - (low : Rat) * unit
  let above := ((low + 1 : Nat) : Rat) * unit - q
  let lowFirst := if below = above then low % 2 = 0 else below < above
  if lowFirst then
    (if reads low then some low else if reads (low + 1) then some (low + 1) else none)
  else (if reads (low + 1) then some (low + 1) else if reads low then some low else none)

/-- The digits and the exponent of the first digit of a positive number, with the fewest digits that
read back; seventeen always do. -/
def shortest (q : Rat) : List Char × Int :=
  let lead := leadingExponent q
  let found := (List.range 17).findSome? fun k => shortCandidate? q lead (k + 1)
  let digits := Nat.toDigits 10 (found.getD 0)
  let kept := (digits.reverse.dropWhile (· == '0')).reverse
  -- a candidate that was rounded up to the next power of ten starts one place further left
  let grid := (List.range 17).findIdx fun k => (shortCandidate? q lead (k + 1)).isSome
  (kept, lead + ((digits.length : Int) - (grid + 1 : Nat)))

/-- The text of a positive number: positional for exponents from -4 to 15, else with an exponent of at
least two digits. -/
def positiveText (q : Rat) : String :=
  let (digits, e) := shortest q
  let n : Int := digits.length
  let chars : List Char :=
    if e < -4 ∨ 16 ≤ e then
      let head := digits.take 1
      let tail := digits.drop 1
      let size := toString e.natAbs
      head ++ (if tail.isEmpty then [] else '.' :: tail) ++ ['e', if e < 0 then '-' else '+'] ++
        (if size.length < 2 then '0' :: size.toList else size.toList)
    else if e < 0 then
      ['0', '.'] ++ List.replicate (-e - 1).toNat '0' ++ digits
    else if n ≤ e + 1 then
      digits ++ List.replicate (e + 1 - n).toNat '0' ++ ['.', '0']
    else digits.take (e + 1).toNat ++ '.' :: digits.drop (e + 1).toNat
  String.ofList chars

/-- The text of a number, with the given words for the two infinities and the undefined number. -/
def text (d : Double) (infinity undefined : String) : String :=
  match d with
  | .finite v =>
    if v = 0 then "0.0" else if v < 0 then "-" ++ positiveText (-v) else positiveText v
  | .negZero => "-0.0"
  | .infinite n => if n then "-" ++ infinity else infinity
  | .undefined => undefined

end Double

end SourceAudit
