/-
# SHA-256

The digest of some bytes: they are filled up to blocks of 64 bytes with their
length at the end, and each block is mixed into eight words.
-/
import SourceAudit.Text.Utf8
import SourceAudit.Value.Display

namespace SourceAudit.Sha256

def roundWords : List UInt32 := [
  0x428a2f98, 0x71374491, 0xb5c0fbcf, 0xe9b5dba5, 0x3956c25b, 0x59f111f1, 0x923f82a4, 0xab1c5ed5,
  0xd807aa98, 0x12835b01, 0x243185be, 0x550c7dc3, 0x72be5d74, 0x80deb1fe, 0x9bdc06a7, 0xc19bf174,
  0xe49b69c1, 0xefbe4786, 0x0fc19dc6, 0x240ca1cc, 0x2de92c6f, 0x4a7484aa, 0x5cb0a9dc, 0x76f988da,
  0x983e5152, 0xa831c66d, 0xb00327c8, 0xbf597fc7, 0xc6e00bf3, 0xd5a79147, 0x06ca6351, 0x14292967,
  0x27b70a85, 0x2e1b2138, 0x4d2c6dfc, 0x53380d13, 0x650a7354, 0x766a0abb, 0x81c2c92e, 0x92722c85,
  0xa2bfe8a1, 0xa81a664b, 0xc24b8b70, 0xc76c51a3, 0xd192e819, 0xd6990624, 0xf40e3585, 0x106aa070,
  0x19a4c116, 0x1e376c08, 0x2748774c, 0x34b0bcb5, 0x391c0cb3, 0x4ed8aa4a, 0x5b9cca4f, 0x682e6ff3,
  0x748f82ee, 0x78a5636f, 0x84c87814, 0x8cc70208, 0x90befffa, 0xa4506ceb, 0xbef9a3f7, 0xc67178f2]

structure Registers where
  a : UInt32
  b : UInt32
  c : UInt32
  d : UInt32
  e : UInt32
  f : UInt32
  g : UInt32
  h : UInt32
deriving DecidableEq, Repr

def start : Registers :=
  ⟨0x6a09e667, 0xbb67ae85, 0x3c6ef372, 0xa54ff53a,
    0x510e527f, 0x9b05688c, 0x1f83d9ab, 0x5be0cd19⟩

def rotate (x : UInt32) (n : UInt32) : UInt32 :=
  (x >>> n) ||| (x <<< (32 - n))

/-- One round with the word of the round and that of the message. -/
def round (s : Registers) (k w : UInt32) : Registers :=
  let high := rotate s.e 6 ^^^ rotate s.e 11 ^^^ rotate s.e 25
  let choice := (s.e &&& s.f) ^^^ ((s.e ^^^ 0xffffffff) &&& s.g)
  let t := s.h + high + choice + k + w
  let low := rotate s.a 2 ^^^ rotate s.a 13 ^^^ rotate s.a 22
  let majority := (s.a &&& s.b) ^^^ (s.a &&& s.c) ^^^ (s.b &&& s.c)
  ⟨t + (low + majority), s.a, s.b, s.c, s.d + t, s.e, s.f, s.g⟩

def add (s t : Registers) : Registers :=
  ⟨s.a + t.a, s.b + t.b, s.c + t.c, s.d + t.d, s.e + t.e, s.f + t.f, s.g + t.g, s.h + t.h⟩

/-- The word after some words of the message, the latest of which come first. -/
def nextWord (latest : List UInt32) : UInt32 :=
  let back (n : Nat) : UInt32 := latest.getD (n - 1) 0
  let x := back 15
  let y := back 2
  back 16 + (rotate x 7 ^^^ rotate x 18 ^^^ (x >>> 3)) + back 7 +
    (rotate y 17 ^^^ rotate y 19 ^^^ (y >>> 10))

def extend : (n : Nat) → List UInt32 → List UInt32
  | 0, latest => latest
  | n + 1, latest => extend n (nextWord latest :: latest)

def wordsOf : List UInt8 → List UInt32
  | a :: b :: c :: d :: rest =>
    ((a.toUInt32 <<< 24) ||| (b.toUInt32 <<< 16) ||| (c.toUInt32 <<< 8) ||| d.toUInt32) :: wordsOf rest
  | _ => []

def mix (s : Registers) (block : List UInt32) : Registers :=
  let schedule := (extend 48 block.reverse).reverse
  add s ((roundWords.zip schedule).foldl (fun s p => round s p.1 p.2) s)

def lengthBytes (n : Nat) : List UInt8 :=
  (List.range 8).map fun k => (n * 8 / Nat.pow 256 (7 - k) % 256).toUInt8

def padded (bs : List UInt8) : List UInt8 :=
  let n := bs.length
  bs ++ 0x80 :: (List.replicate ((119 - n % 64) % 64) 0 ++ lengthBytes n)

def mixAll : (fuel : Nat) → Registers → List UInt32 → Registers
  | 0, s, _ => s
  | fuel + 1, s, ws => if ws.isEmpty then s else mixAll fuel (mix s (ws.take 16)) (ws.drop 16)

def digest (bs : List UInt8) : Registers :=
  let ws := wordsOf (padded bs)
  mixAll ws.length start ws

def hexDigest (s : String) : String :=
  let r := digest (Utf8.encode s)
  String.ofList ([r.a, r.b, r.c, r.d, r.e, r.f, r.g, r.h].flatMap fun w => Text.hex 8 w.toNat)

end SourceAudit.Sha256
