/-
# Operations on texts

Trimming, searching, replacing and cutting. Everything is defined on character
lists and carried over to `String`; positions and lengths count characters.
Functions that run through a whole file keep what they have built in an
accumulator.
-/
import SourceAudit.Text.Case

namespace SourceAudit.Text

/-- Drops the characters of class `p` at both ends. -/
def trimBy (p : Char → Bool) (cs : List Char) : List Char :=
  ((cs.dropWhile p).reverse.dropWhile p).reverse

def strip (s : String) : String :=
  String.ofList (trimBy isBlank s.toList)

def stripStartOf (c : Char) (s : String) : String :=
  String.ofList (s.toList.dropWhile (· == c))

def stripEndOf (c : Char) (s : String) : String :=
  String.ofList (s.toList.reverse.dropWhile (· == c)).reverse

def removeBlanks (s : String) : String :=
  String.ofList (s.toList.filter (!isBlank ·))

/-- Where `needle` first stands in the list, counted from `at'`. -/
def indexFrom (needle : List Char) (at' : Nat) : List Char → Option Nat
  | [] => if needle.isEmpty then some at' else none
  | c :: cs => if needle.isPrefixOf (c :: cs) then some at' else indexFrom needle (at' + 1) cs

def indexOf? (needle s : String) : Option Nat :=
  indexFrom needle.toList 0 s.toList

def contains (s needle : String) : Bool :=
  (indexOf? needle s).isSome

def startsWith (s head : String) : Bool :=
  head.toList.isPrefixOf s.toList

def endsWith (s tail : String) : Bool :=
  tail.toList.isSuffixOf s.toList

/-- Replaces the occurrences of `old` (not empty) by `new`, from left to right. `skip` characters of
an occurrence are still to be passed over, and `done` is the result so far, backwards. -/
def replaceFrom (old new : List Char) (done : List Char) : (skip : Nat) → List Char → List Char
  | _, [] => done.reverse
  | skip + 1, _ :: cs => replaceFrom old new done skip cs
  | 0, c :: cs =>
    if old.isPrefixOf (c :: cs) then
      replaceFrom old new (new.reverse ++ done) (old.length - 1) cs
    else replaceFrom old new (c :: done) 0 cs

/-- Replaces every occurrence of `old`, which is not empty, by `new`. -/
def replaceAll (s old new : String) : String :=
  String.ofList (replaceFrom old.toList new.toList [] 0 s.toList)

/-- Cuts the list at each occurrence of `sep` (not empty): `piece` is the piece being read and
`done` the pieces before it, both backwards. -/
def splitFrom (sep : List Char) (piece : List Char) (done : List (List Char)) :
    (skip : Nat) → List Char → List (List Char)
  | _, [] => (piece.reverse :: done).reverse
  | skip + 1, _ :: cs => splitFrom sep piece done skip cs
  | 0, c :: cs =>
    if sep.isPrefixOf (c :: cs) then splitFrom sep [] (piece.reverse :: done) (sep.length - 1) cs
    else splitFrom sep (c :: piece) done 0 cs

/-- The pieces of `s` between the occurrences of `sep`, which is not empty. -/
def split (s sep : String) : List String :=
  (splitFrom sep.toList [] [] 0 s.toList).map String.ofList

/-- Cuts at the first occurrence of `sep`: the text before it and, if there is one, after it. -/
def cutAt (s sep : String) : String × Option String :=
  match indexOf? sep s with
  | none => (s, none)
  | some i =>
    let cs := s.toList
    (String.ofList (cs.take i), some (String.ofList (cs.drop (i + sep.length))))

/-- The pieces of the text that lie between runs of white space. -/
def fields (s : String) : List String :=
  let step (acc : List (List Char) × List Char) (c : Char) : List (List Char) × List Char :=
    if isBlank c then (if acc.2.isEmpty then acc else (acc.2.reverse :: acc.1, []))
    else (acc.1, c :: acc.2)
  let (done, last) := s.toList.foldl step ([], [])
  ((if last.isEmpty then done else last.reverse :: done).reverse).map String.ofList

def isHexDigit (c : Char) : Bool :=
  isAsciiDigit c || ('a' ≤ c && c ≤ 'f') || ('A' ≤ c && c ≤ 'F')

/-- The value of digits in a base up to 16. -/
def numberIn (base : Nat) (digits : List Char) : Nat :=
  digits.foldl (fun n c =>
    let d := if c ≤ '9' then c.toNat - 48 else if 'a' ≤ c then c.toNat - 87 else c.toNat - 55
    n * base + d) 0

def count (c : Char) (cs : List Char) : Nat :=
  cs.foldl (fun n d => if d == c then n + 1 else n) 0

def padStart (width : Nat) (s : String) : String :=
  String.ofList (List.replicate (width - s.length) ' ') ++ s

def padZero (width : Nat) (s : String) : String :=
  String.ofList (List.replicate (width - s.length) '0') ++ s

def join (sep : String) (pieces : List String) : String :=
  sep.intercalate pieces

end SourceAudit.Text
