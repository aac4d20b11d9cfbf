/-
# Matching

In a pattern every test on a character says by itself what it accepts, whatever flags
stood around it when it was written. A backtracking matcher: `Regex.run r k c` matches
`r` at the place `c` and hands each place where `r` can end to `k`, in order of
preference, until `k` accepts one. It recurses on the expression; a repetition runs a
loop whose number of rounds is bounded by the length of the text, since a round beyond
the least number that matches nothing is the last one.

`Pattern.findAll` gives the matches of a pattern from left to right. They do
not overlap; an empty match is followed by a longer one at the same place if
there is one.
-/
import SourceAudit.Text.Case

namespace SourceAudit.Pattern

inductive CharClass where
  | digit
  | blank
  | word
deriving DecidableEq, Repr, Inhabited

def CharClass.holdsAscii (k : CharClass) (c : Char) : Bool :=
  match k with
  | .digit => Text.isAsciiDigit c
  | .blank => c == ' ' || (9 ≤ c.toNat && c.toNat ≤ 13)
  | .word => Text.isAsciiLetter c || Text.isAsciiDigit c || c == '_'

def CharClass.holds (k : CharClass) (ascii : Bool) (c : Char) : Bool :=
  if ascii then k.holdsAscii c
  else
    match k with
    | .digit => Text.isDigit c
    | .blank => Text.isBlank c
    | .word => Text.isWord c

/-- How case counts: not at all, in ASCII only, or in every script. -/
inductive Casing where
  | exact
  | ascii
  | full
deriving DecidableEq, Repr, Inhabited

def Casing.forms (k : Casing) (c : Char) : List Char :=
  match k with
  | .exact => [c]
  | .ascii =>
    if Text.isAsciiLetter c then [c, Text.lowerChar c, Text.upperChar c] else [c]
  | .full => Text.caseClass c

/-- Equality of two characters by their lower case, as a back reference compares them. -/
def Casing.same (k : Casing) (c d : Char) : Bool :=
  match k with
  | .exact => c == d
  | .ascii => c == d || (c.toNat < 128 && d.toNat < 128 && Text.lowerChar c == Text.lowerChar d)
  | .full => Text.lowerChar c == Text.lowerChar d

/-- A member of a character set. Code points that are no characters may be written but never match. -/
inductive SetItem where
  | range (lo hi : Nat)
  | named (k : CharClass) (ascii negated : Bool)
deriving DecidableEq, Repr, Inhabited

def SetItem.holds (casing : Casing) (c : Char) : SetItem → Bool
  | .range lo hi => (casing.forms c).any fun d => lo ≤ d.toNat && d.toNat ≤ hi
  | .named k ascii negated => k.holds ascii c != negated

inductive CharTest where
  | any
  | notNewline
  /-- One of some code points: a written character with its case variants. -/
  | oneOf (codes : List Nat)
  | set (casing : Casing) (negated : Bool) (items : List SetItem)
deriving DecidableEq, Repr, Inhabited

def CharTest.holds (t : CharTest) (c : Char) : Bool :=
  match t with
  | .any => true
  | .notNewline => c != '\n'
  | .oneOf codes => codes.contains c.toNat
  | .set casing negated items => (items.any (·.holds casing c)) != negated

def CharTest.literal (casing : Casing) (code : Nat) : CharTest :=
  if code.isValidChar then .oneOf ((casing.forms (Char.ofNat code)).map Char.toNat) else .oneOf []

inductive Anchor where
  | textStart
  | textEnd
  /-- The end of the text, or before a line feed that ends it. -/
  | lastLineEnd
  | lineStart
  | lineEnd
  | wordEdge (ascii : Bool)
  | notWordEdge (ascii : Bool)
deriving DecidableEq, Repr, Inhabited

/-- In which order the numbers of repetitions are tried. -/
inductive Greed where
  /-- As many as possible first. -/
  | greedy
  /-- As few as possible first. -/
  | lazy
  /-- As many as possible, and no other number. -/
  | possessive
deriving DecidableEq, Repr, Inhabited

inductive Regex where
  | empty
  | char (t : CharTest)
  | anchor (a : Anchor)
  | seq (first second : Regex)
  | alt (first second : Regex)
  | rep (greed : Greed) (min : Nat) (max : Option Nat) (body : Regex)
  | group (index : Nat) (body : Regex)
  | back (casing : Casing) (index : Nat)
  | ahead (negated : Bool) (body : Regex)
  /-- What stands before, with the least and greatest width of the body. -/
  | behind (negated : Bool) (lo hi : Nat) (body : Regex)
  | cond (index : Nat) (yes no : Regex)
  /-- The first match of the body, and no other. -/
  | atomic (body : Regex)
deriving DecidableEq, Repr, Inhabited

namespace Regex

def ofList : List Regex → Regex
  | [] => .empty
  | [r] => r
  | r :: rest => .seq r (ofList rest)

def choice : List Regex → Regex
  | [] => .empty
  | [r] => r
  | r :: rest => .alt r (choice rest)

def widthCap : Nat := 0x10000000000000000

def repeatCap : Nat := 0xffffffff

/-- The least and greatest number of characters matched, given those of the groups. -/
def width (groupWidth : Nat → Nat × Nat) : Regex → Nat × Nat
  | .empty | .anchor _ | .ahead _ _ | .behind _ _ _ _ => (0, 0)
  | .char _ => (1, 1)
  | .seq a b =>
    let (i, j) := a.width groupWidth
    let (l, h) := b.width groupWidth
    (Nat.min (i + l) widthCap, Nat.min (j + h) widthCap)
  | .alt a b =>
    let (i, j) := a.width groupWidth
    let (l, h) := b.width groupWidth
    (Nat.min i l, Nat.max j h)
  | .rep _ min max body =>
    let (i, j) := body.width groupWidth
    let high := match max with
      | some m => j * m
      | none => if j = 0 then 0 else widthCap
    (Nat.min (i * min) widthCap, Nat.min high widthCap)
  | .group _ body | .atomic body => body.width groupWidth
  | .back _ index => groupWidth index
  | .cond _ yes no =>
    let (i, j) := yes.width groupWidth
    let (l, h) := no.width groupWidth
    (Nat.min i l, Nat.max j h)

end Regex

/-! ### The matcher -/

/-- A place in the text with what the groups have matched so far, latest first, and the number of the
group that was closed last. -/
structure Cursor where
  pos : Nat
  groups : List (Nat × Nat × Nat)
  last : Option Nat
deriving DecidableEq, Repr, Inhabited

def Cursor.span? (c : Cursor) (index : Nat) : Option (Nat × Nat) :=
  (c.groups.find? (·.1 == index)).map (·.2)

abbrev Cont := Cursor → Option Cursor

def classAt (text : Array Char) (ascii : Bool) (i : Nat) : Bool :=
  (text[i]?).any (CharClass.word.holds ascii)

def edgeAt (text : Array Char) (ascii : Bool) (pos : Nat) : Bool :=
  (0 < pos && classAt text ascii (pos - 1)) != classAt text ascii pos

/-- The condition on the place holds. In an empty text there is no place inside or at the edge of
a word. -/
def Anchor.holds (text : Array Char) (pos : Nat) : Anchor → Bool
  | .textStart => pos == 0
  | .textEnd => pos == text.size
  | .lastLineEnd => pos == text.size || (pos + 1 == text.size && text[pos]? == some '\n')
  | .lineStart => pos == 0 || text[pos - 1]? == some '\n'
  | .lineEnd => pos == text.size || text[pos]? == some '\n'
  | .wordEdge ascii => text.size != 0 && edgeAt text ascii pos
  | .notWordEdge ascii => text.size != 0 && !edgeAt text ascii pos

/-- How many characters from `pos` on pass the test, but at most `fuel`. -/
def runLength (text : Array Char) (t : CharTest) : (fuel pos : Nat) → Nat → Nat
  | 0, _, n => n
  | fuel + 1, pos, n =>
    match text[pos]? with
    | some c => if t.holds c then runLength text t fuel (pos + 1) (n + 1) else n
    | none => n

/-- Tries `k` after `least + n`, …, `least` characters. -/
def tryDown (k : Cont) (c : Cursor) (least : Nat) : (n : Nat) → Option Cursor
  | 0 => k { c with pos := c.pos + least }
  | n + 1 =>
    match k { c with pos := c.pos + least + (n + 1) } with
    | some r => some r
    | none => tryDown k c least n

/-- Tries `k` after `n` characters, then after one more, up to `fuel` more. -/
def tryUp (k : Cont) (c : Cursor) : (fuel n : Nat) → Option Cursor
  | 0, n => k { c with pos := c.pos + n }
  | fuel + 1, n =>
    match k { c with pos := c.pos + n } with
    | some r => some r
    | none => tryUp k c fuel (n + 1)

def repeatChar (text : Array Char) (greed : Greed) (min : Nat) (max : Option Nat) (t : CharTest)
    (k : Cont) (c : Cursor) : Option Cursor :=
  let room := text.size - c.pos
  let n := runLength text t (match max with | some m => Nat.min m room | none => room) c.pos 0
  if n < min then none
  else
    match greed with
    | .greedy => tryDown k c min (n - min)
    | .lazy => tryUp k c (n - min) min
    | .possessive => k { c with pos := c.pos + n }

def belowMax (count : Nat) : Option Nat → Bool
  | some m => count < m
  | none => true

/-- Repetition, as many rounds as possible first. A round that has not moved from `last`, where the
latest optional round began, ends the repetition. -/
def repeatGreedy (body : Cont → Cursor → Option Cursor) (min : Nat) (max : Option Nat) (k : Cont) :
    (fuel count : Nat) → (last : Option Nat) → Cursor → Option Cursor
  | 0, _, _, _ => none
  | fuel + 1, count, last, c =>
    if count < min then body (repeatGreedy body min max k fuel (count + 1) last) c
    else if belowMax count max && last != some c.pos then
      match body (repeatGreedy body min max k fuel (count + 1) (some c.pos)) c with
      | some r => some r
      | none => k c
    else k c

def repeatLazy (body : Cont → Cursor → Option Cursor) (min : Nat) (max : Option Nat) (k : Cont) :
    (fuel count : Nat) → (last : Option Nat) → Cursor → Option Cursor
  | 0, _, _, _ => none
  | fuel + 1, count, last, c =>
    if count < min then body (repeatLazy body min max k fuel (count + 1) last) c
    else
      match k c with
      | some r => some r
      | none =>
        if belowMax count max && last != some c.pos then
          body (repeatLazy body min max k fuel (count + 1) (some c.pos)) c
        else none

/-- Repetition without giving back: the place after the greatest number of rounds. -/
def repeatPossessive (body : Cursor → Option Cursor) (min : Nat) (max : Option Nat) :
    (fuel count : Nat) → (last : Option Nat) → Cursor → Option Cursor
  | 0, _, _, _ => none
  | fuel + 1, count, last, c =>
    if count < min then (body c).bind (repeatPossessive body min max fuel (count + 1) last)
    else if belowMax count max && last != some c.pos then
      match body c with
      | some d => repeatPossessive body min max fuel (count + 1) (some c.pos) d
      | none => some c
    else some c

/-- The text at `pos` repeats the `n` characters from `start` on. -/
def repeats (text : Array Char) (casing : Casing) (start pos : Nat) : (n : Nat) → Bool
  | 0 => true
  | n + 1 =>
    match text[start]?, text[pos]? with
    | some c, some d => casing.same c d && repeats text casing (start + 1) (pos + 1) n
    | _, _ => false

/-- Matches the expression at the cursor and goes on with `k`. -/
def Regex.run (text : Array Char) : Regex → Cont → Cursor → Option Cursor
  | .empty, k, c => k c
  | .char t, k, c =>
    match text[c.pos]? with
    | some ch => if t.holds ch then k { c with pos := c.pos + 1 } else none
    | none => none
  | .anchor a, k, c => if a.holds text c.pos then k c else none
  | .seq a b, k, c => a.run text (b.run text k) c
  | .alt a b, k, c =>
    match a.run text k c with
    | some r => some r
    | none => b.run text k c
  | .rep greed min max body, k, c =>
    match body with
    | .char t => repeatChar text greed min max t k c
    | _ =>
      let fuel := min + text.size + 2
      match greed with
      | .greedy => repeatGreedy (body.run text) min max k fuel 0 none c
      | .lazy => repeatLazy (body.run text) min max k fuel 0 none c
      | .possessive => (repeatPossessive (body.run text some) min max fuel 0 none c).bind k
  | .group index body, k, c =>
    body.run text
      (fun d => k { d with groups := (index, c.pos, d.pos) :: d.groups, last := some index }) c
  | .back casing index, k, c =>
    match c.span? index with
    | none => none
    | some (start, stop) =>
      if repeats text casing start c.pos (stop - start) then k { c with pos := c.pos + (stop - start) }
      else none
  | .ahead negated body, k, c =>
    match body.run text some c with
    | some d => if negated then none else k { d with pos := c.pos }
    | none => if negated then k c else none
  | .behind negated lo _ body, k, c =>
    if c.pos < lo then (if negated then k c else none)
    else
      match body.run text some { c with pos := c.pos - lo } with
      | some d => if negated then none else k { d with pos := c.pos }
      | none => if negated then k c else none
  | .cond index yes no, k, c =>
    if (c.span? index).isSome then yes.run text k c else no.run text k c
  | .atomic body, k, c => (body.run text some c).bind k

end SourceAudit.Pattern

namespace SourceAudit

/-- A pattern: its expression, and the names of its groups with their numbers. -/
structure Pattern where
  regex : Pattern.Regex
  names : List (String × Nat)
deriving DecidableEq, Inhabited

namespace Pattern

/-- A match: where it starts and ends, and the spans of the groups. -/
structure Match where
  start : Nat
  stop : Nat
  groups : List (Nat × Nat × Nat)
  last : Option Nat
deriving DecidableEq, Repr, Inhabited

/-- The match that starts at `pos`. With `moving` an empty match does not count. -/
def matchAt? (p : Pattern) (text : Array Char) (pos : Nat) (moving : Bool) : Option Match :=
  let accept : Cont := fun c => if moving && c.pos == pos then none else some c
  (p.regex.run text accept ⟨pos, [], none⟩).map fun c => ⟨pos, c.pos, c.groups, c.last⟩

/-- The first match at one of the `fuel` places from `pos` on. Only the match at `pos` itself may be
asked to be not empty. -/
def searchFrom? (p : Pattern) (text : Array Char) : (fuel pos : Nat) → (moving : Bool) → Option Match
  | 0, _, _ => none
  | fuel + 1, pos, moving =>
    match p.matchAt? text pos moving with
    | some m => some m
    | none => searchFrom? p text fuel (pos + 1) false

def search? (p : Pattern) (text : Array Char) (pos : Nat) (moving : Bool) : Option Match :=
  searchFrom? p text (text.size + 1 - pos) pos moving

/-- The matches from `pos` on, in order; `done` are the ones before, backwards. -/
def findFrom (p : Pattern) (text : Array Char) : (fuel pos : Nat) → (moving : Bool) → List Match → List Match
  | 0, _, _, done => done.reverse
  | fuel + 1, pos, moving, done =>
    match p.search? text pos moving with
    | none => done.reverse
    | some m => findFrom p text fuel m.stop (m.start == m.stop) (m :: done)

/-- All matches from left to right. Each one starts where the one before ended or later. -/
def findAll (p : Pattern) (text : Array Char) : List Match :=
  findFrom p text (2 * text.size + 3) 0 false []

def occursIn (p : Pattern) (s : String) : Bool :=
  (p.search? s.toList.toArray 0 false).isSome

def cut (text : Array Char) (from' to' : Nat) : List Char :=
  (text.extract from' to').toList

def Match.chars (m : Match) (text : Array Char) : List Char :=
  cut text m.start m.stop

def Match.span? (m : Match) (index : Nat) : Option (Nat × Nat) :=
  (m.groups.find? (·.1 == index)).map (·.2)

def Match.group? (m : Match) (text : Array Char) (index : Nat) : Option String :=
  (m.span? index).map fun s => String.ofList (cut text s.1 s.2)

def indexOf (p : Pattern) (name : String) : Nat :=
  ((p.names.find? (·.1 == name)).map (·.2)).getD 0

def Match.named? (m : Match) (p : Pattern) (text : Array Char) (name : String) : Option String :=
  m.group? text (p.indexOf name)

def Match.lastName? (m : Match) (p : Pattern) : Option String :=
  m.last.bind fun i => (p.names.find? (·.2 == i)).map (·.1)

end Pattern

end SourceAudit
