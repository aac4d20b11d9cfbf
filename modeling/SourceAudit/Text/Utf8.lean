/-
# UTF-8

Texts as bytes and back. Bytes that are no UTF-8 are cut into the longest
pieces that a valid sequence could start with, and each such piece is either
replaced by one replacement character, left out, or makes the whole decoding
fail.
-/
import SourceAudit.Text.Basic

namespace SourceAudit.Utf8

def encodeChar (c : Char) : List UInt8 :=
  let n := c.toNat
  let tail (k : Nat) : UInt8 := (0x80 + n / Nat.pow 64 k % 64).toUInt8
  if n < 0x80 then [n.toUInt8]
  else if n < 0x800 then [(0xc0 + n / 64).toUInt8, tail 0]
  else if n < 0x10000 then [(0xe0 + n / 4096).toUInt8, tail 1, tail 0]
  else [(0xf0 + n / 262144).toUInt8, tail 2, tail 1, tail 0]

def encode (s : String) : List UInt8 :=
  s.toList.flatMap encodeChar

/-- For a first byte: how many bytes follow it, and between which bounds the second one lies. -/
def lead (b : UInt8) : Option (Nat × UInt8 × UInt8) :=
  if b < 0x80 then some (0, 0, 0)
  else if b < 0xc2 then none
  else if b < 0xe0 then some (1, 0x80, 0xbf)
  else if b == 0xe0 then some (2, 0xa0, 0xbf)
  else if b == 0xed then some (2, 0x80, 0x9f)
  else if b < 0xf0 then some (2, 0x80, 0xbf)
  else if b == 0xf0 then some (3, 0x90, 0xbf)
  else if b < 0xf4 then some (3, 0x80, 0xbf)
  else if b == 0xf4 then some (3, 0x80, 0x8f)
  else none

/-- Takes `n` more bytes, of which the first lies between `lo` and `hi`: the code point, or how many
of them could be taken. -/
def tails (code : Nat) (lo hi : UInt8) : (n taken : Nat) → List UInt8 → Except Nat Nat
  | 0, _, _ => .ok code
  | _ + 1, taken, [] => .error taken
  | n + 1, taken, b :: bs =>
    if lo ≤ b && b ≤ hi then tails (code * 64 + (b.toNat - 0x80)) 0x80 0xbf n (taken + 1) bs
    else .error taken

/-- The first character of some bytes, or `none` for a piece that is no UTF-8, and the number of
bytes after the first that belong to it. -/
def next (b : UInt8) (bs : List UInt8) : Option Char × Nat :=
  match lead b with
  | none => (none, 0)
  | some (0, _, _) => (some (Char.ofNat b.toNat), 0)
  | some (n, lo, hi) =>
    let start := b.toNat - (if n = 1 then 0xc0 else if n = 2 then 0xe0 else 0xf0)
    match tails start lo hi n 0 bs with
    | .ok code => (some (Char.ofNat code), n)
    | .error taken => (none, taken)

/-- Decodes bytes to characters, `none` for each piece that is no UTF-8. `skip` bytes belong to the
piece before, and `done` is the result so far, backwards. -/
def piecesFrom (done : List (Option Char)) : (skip : Nat) → List UInt8 → List (Option Char)
  | _, [] => done.reverse
  | skip + 1, _ :: bs => piecesFrom done skip bs
  | 0, b :: bs =>
    let (c, more) := next b bs
    piecesFrom (c :: done) more bs

def pieces (bs : List UInt8) : List (Option Char) :=
  piecesFrom [] 0 bs

/-- The text of some bytes, with the replacement character for what is no UTF-8. -/
def decode (bs : List UInt8) : String :=
  String.ofList ((pieces bs).map (·.getD '�'))

def decodeValid (bs : List UInt8) : String :=
  String.ofList ((pieces bs).filterMap id)

/-- Decodes bytes up to a character that is not complete at the very end: the characters and the
bytes left, or nothing if other bytes are no UTF-8. -/
def partialFrom (done : List Char) : (skip : Nat) → List UInt8 → Option (List Char × List UInt8)
  | _, [] => some (done.reverse, [])
  | skip + 1, _ :: bs => partialFrom done skip bs
  | 0, b :: bs =>
    match next b bs with
    | (some c, more) => partialFrom (c :: done) more bs
    | (none, taken) =>
      if (lead b).isSome && taken = bs.length then some (done.reverse, b :: bs) else none

def decode? (bs : List UInt8) : Option String :=
  let ps := pieces bs
  if ps.all Option.isSome then some (String.ofList (ps.filterMap id)) else none

end SourceAudit.Utf8
