/-
# Base64

The standard alphabet. Decoding is lenient: characters outside the alphabet
are passed over, padding ends the text once a group has two characters, and
what comes after it is not read.
-/
import SourceAudit.Text.Basic

namespace SourceAudit.Base64

def alphabet : List Char :=
  "ABCDEFGHIJKLMNOPQRSTUVWXYZabcdefghijklmnopqrstuvwxyz0123456789+/".toList

def digit (n : Nat) : Char :=
  alphabet.getD n 'A'

def value? (c : Char) : Option Nat :=
  if 'A' ≤ c && c ≤ 'Z' then some (c.toNat - 65)
  else if 'a' ≤ c && c ≤ 'z' then some (c.toNat - 71)
  else if '0' ≤ c && c ≤ '9' then some (c.toNat + 4)
  else if c == '+' then some 62
  else if c == '/' then some 63
  else none

def encode : List UInt8 → List Char
  | a :: b :: c :: rest =>
    let n := (a.toNat * 256 + b.toNat) * 256 + c.toNat
    digit (n / 262144) :: digit (n / 4096 % 64) :: digit (n / 64 % 64) :: digit (n % 64) :: encode rest
  | [a, b] =>
    let n := (a.toNat * 256 + b.toNat) * 4
    [digit (n / 4096), digit (n / 64 % 64), digit (n % 64), '=']
  | [a] =>
    let n := a.toNat * 16
    [digit (n / 64), digit (n % 64), '=', '=']
  | [] => []

/-- Reads a group of digits, of which `filled` have been read, the last of which left `carry` unused
bits, with `pads` padding characters seen. `done` are the bytes so far, backwards. -/
def decodeFrom (done : List UInt8) (filled carry pads : Nat) : List Char → Option (List UInt8)
  | [] => if filled = 0 then some done.reverse else none
  | c :: cs =>
    if c == '=' then
      if 2 ≤ filled then
        if 4 ≤ filled + (pads + 1) then some done.reverse else decodeFrom done filled carry (pads + 1) cs
      else decodeFrom done filled carry pads cs
    else
      match value? c with
      | none => decodeFrom done filled carry pads cs
      | some v =>
        match filled with
        | 0 => decodeFrom done 1 v 0 cs
        | 1 => decodeFrom ((carry * 4 + v / 16).toUInt8 :: done) 2 (v % 16) 0 cs
        | 2 => decodeFrom ((carry * 16 + v / 4).toUInt8 :: done) 3 (v % 4) 0 cs
        | _ => decodeFrom ((carry * 64 + v).toUInt8 :: done) 0 0 0 cs

def decode? (cs : List Char) : Option (List UInt8) :=
  if cs.all (·.toNat < 128) then decodeFrom [] 0 0 0 cs else none

def padded (cs : List Char) : List Char :=
  cs ++ List.replicate ((4 - cs.length % 4) % 4) '='

end SourceAudit.Base64
