/-
# Reading patterns

A written pattern is first cut into marks: a character, or a backslash with
the character after it. The reader goes through the marks with one mark of
lookahead; a backslash that ends the pattern is a fault as soon as it comes
into view. Flags take effect while reading, since a flag for the whole pattern
may stand at its very start only. A fault found while reading has a place in the
pattern, and its message names the place.

Every reading function takes a bound on its steps; the length of the pattern
is enough.
-/
import SourceAudit.Value.Convert
import SourceAudit.Pattern.Match

namespace SourceAudit.Pattern

inductive Fault where
  | trailingBackslash
  | missing (what : String)
  | missingTerminator (terminator : String)
  | badGroupName (name : String)
  | unknownGroupName (name : String)
  | badGroupNumber
  | invalidReference (group : Nat)
  | openGroup
  | groupOfSameLookbehind
  | redefinition (name : String) (group first : Nat)
  | incompleteEscape (text : String)
  | badEscape (text : String)
  | octalRange (text : String)
  | undefinedName (name : String)
  | unterminatedSet
  | badRange (first last : String)
  | repeatBounds
  | nothingToRepeat
  | multipleRepeat
  | unexpectedEnd
  | unknownExtension (text : String)
  | unterminatedComment
  | unterminatedGroup
  | manyBranches
  | lateFlags
  | unknownFlag
  | localeFlag
  | incompatibleFlags
  | globalFlagOn
  | globalFlagOff
  | typeFlagOff
  | flagOnAndOff
  | unbalanced
  | variableLookbehind
  | tooFarBehind
  /-- A repetition under the flag that forbids them. -/
  | templateRepeat (greed : String)
deriving DecidableEq, Repr

def Fault.wording : Fault → String
  | .trailingBackslash => "bad escape (end of pattern)"
  | .missing what => s!"missing {what}"
  | .missingTerminator t => s!"missing {t}, unterminated name"
  | .badGroupName n => s!"bad character in group name {Text.quoted n}"
  | .unknownGroupName n => s!"unknown group name {Text.quoted n}"
  | .badGroupNumber => "bad group number"
  | .invalidReference g => s!"invalid group reference {g}"
  | .openGroup => "cannot refer to an open group"
  | .groupOfSameLookbehind => "cannot refer to group defined in the same lookbehind subpattern"
  | .redefinition n g f => s!"redefinition of group name {Text.quoted n} as group {g}; was group {f}"
  | .incompleteEscape t => s!"incomplete escape {t}"
  | .badEscape t => s!"bad escape {t}"
  | .octalRange t => s!"octal escape value {t} outside of range 0-0o377"
  | .undefinedName n => s!"undefined character name {Text.quoted n}"
  | .unterminatedSet => "unterminated character set"
  | .badRange a b => s!"bad character range {a}-{b}"
  | .repeatBounds => "min repeat greater than max repeat"
  | .nothingToRepeat => "nothing to repeat"
  | .multipleRepeat => "multiple repeat"
  | .unexpectedEnd => "unexpected end of pattern"
  | .unknownExtension t => s!"unknown extension {t}"
  | .unterminatedComment => "missing ), unterminated comment"
  | .unterminatedGroup => "missing ), unterminated subpattern"
  | .manyBranches => "conditional backref with more than two branches"
  | .lateFlags => "global flags not at the start of the expression"
  | .unknownFlag => "unknown flag"
  | .localeFlag => "bad inline flags: cannot use 'L' flag with a str pattern"
  | .incompatibleFlags => "bad inline flags: flags 'a', 'u' and 'L' are incompatible"
  | .globalFlagOn => "bad inline flags: cannot turn on global flag"
  | .globalFlagOff => "bad inline flags: cannot turn off global flag"
  | .typeFlagOff => "bad inline flags: cannot turn off flags 'a', 'u' and 'L'"
  | .flagOnAndOff => "bad inline flags: flag turned on and off"
  | .unbalanced => "unbalanced parenthesis"
  | .variableLookbehind => "look-behind requires fixed-width pattern"
  | .tooFarBehind => "looks too much behind"
  | .templateRepeat greed => s!"internal: unsupported template operator {greed}"

inductive Failure where
  | malformed (fault : Fault) (place : Option Nat)
  /-- A number of repetitions beyond what can be counted. -/
  | repetitionTooLarge
  /-- Both the ASCII and the Unicode flag are set for the whole pattern. -/
  | conflictingFlags
deriving DecidableEq, Repr

def Failure.message (cs : List Char) : Failure → String
  | .malformed fault none => fault.wording
  | .malformed fault (some place) =>
    let before := cs.take place
    let line := Text.count '\n' before + 1
    let column := (before.reverse.takeWhile (· != '\n')).length + 1
    let base := s!"{fault.wording} at position {place}"
    if cs.contains '\n' then s!"{base} (line {line}, column {column})" else base
  | .repetitionTooLarge => "the repetition number is too large"
  | .conflictingFlags => "ASCII and UNICODE flags are incompatible"

/-! ### The reader -/

structure Flags where
  ignoreCase : Bool
  multiline : Bool
  dotAll : Bool
  verbose : Bool
  ascii : Bool
  unicode : Bool
  template : Bool
deriving DecidableEq, Repr, Inhabited

namespace Flags

def none : Flags := ⟨false, false, false, false, false, false, false⟩

def ofLetter? : Char → Option Flags
  | 'i' => some { none with ignoreCase := true }
  | 'm' => some { none with multiline := true }
  | 's' => some { none with dotAll := true }
  | 'x' => some { none with verbose := true }
  | 'a' => some { none with ascii := true }
  | 'u' => some { none with unicode := true }
  | 't' => some { none with template := true }
  | _ => .none

/-- Combines two sets of flags, flag by flag. -/
def combine (op : Bool → Bool → Bool) (f g : Flags) : Flags :=
  ⟨op f.ignoreCase g.ignoreCase, op f.multiline g.multiline, op f.dotAll g.dotAll, op f.verbose g.verbose,
    op f.ascii g.ascii, op f.unicode g.unicode, op f.template g.template⟩

def union : Flags → Flags → Flags := combine or

def inter : Flags → Flags → Flags := combine and

def diff : Flags → Flags → Flags := combine fun a b => a && !b

/-- Switches flags on and off; a flag for the kind of text replaces the other one. -/
def switch (f on off : Flags) : Flags :=
  let f := if on.ascii || on.unicode then { f with ascii := false, unicode := false } else f
  (f.union on).diff off

def casing (f : Flags) : Casing :=
  if f.ignoreCase then (if f.ascii then .ascii else .full) else .exact

end Flags

inductive Mark where
  | plain (c : Char)
  | escaped (c : Char)
  | broken
deriving DecidableEq, Repr, Inhabited

def marks : List Char → List Mark
  | [] => []
  | ['\\'] => [.broken]
  | '\\' :: c :: rest => .escaped c :: marks rest
  | c :: rest => .plain c :: marks rest

def Mark.length : Mark → Nat
  | .plain _ | .broken => 1
  | .escaped _ => 2

def Mark.text : Mark → String
  | .plain c => String.singleton c
  | .escaped c => String.ofList ['\\', c]
  | .broken => "\\"

/-- What the reader knows: the marks ahead and their place, the flags of the whole pattern, and the
groups so far. -/
structure State where
  ahead : List Mark
  pos : Nat
  flags : Flags
  /-- The widths of the groups, from the latest to the first; an open group has none yet. -/
  widths : List (Option (Nat × Nat))
  names : List (String × Nat)
  /-- Inside a lookbehind, the number of groups at its start. -/
  lookbehind : Option Nat
  /-- Numbers used in conditions, with the place of the first use. -/
  conditions : List (Nat × Nat)

abbrev Read (α : Type) := State → Except Failure (α × State)

namespace Read

instance : Monad Read where
  pure a := fun s => .ok (a, s)
  bind x f := fun s =>
    match x s with
    | .error e => .error e
    | .ok (a, s) => f a s

end Read

/-- Fails at a place that lies `back` characters before the next mark. -/
def failBack {α : Type} (fault : Fault) (back : Nat) : Read α := fun s =>
  .error (.malformed fault (some (s.pos - back)))

def failAt {α : Type} (fault : Fault) (place : Nat) : Read α := fun _ =>
  .error (.malformed fault (some place))

def failWith {α : Type} (f : Failure) : Read α := fun _ => .error f

def peek : Read (Option Mark) := fun s => .ok (s.ahead.head?, s)

def place : Read Nat := fun s => .ok (s.pos, s)

def getState : Read State := fun s => .ok (s, s)

def setState (s : State) : Read Unit := fun _ => .ok ((), s)

/-- A broken mark may not come into view. -/
def checked (s : State) : Except Failure State :=
  match s.ahead with
  | .broken :: _ => .error (.malformed .trailingBackslash (some s.pos))
  | _ => .ok s

def take : Read (Option Mark) := fun s =>
  match s.ahead with
  | [] => .ok (none, s)
  | m :: rest =>
    match checked { s with ahead := rest, pos := s.pos + m.length } with
    | .error e => .error e
    | .ok s => .ok (some m, s)

def accept (c : Char) : Read Bool := do
  if (← peek) == some (.plain c) then
    let _ ← take
    return true
  else return false

def takeWhile (p : Char → Bool) : (n : Nat) → Read (List Char)
  | 0 => pure []
  | n + 1 => do
    match ← peek with
    | some (.plain c) =>
      if p c then
        let _ ← take
        let rest ← takeWhile p n
        return c :: rest
      else return []
    | _ => return []

/-- Takes the marks up to a terminator, which is taken too, as a text that must not be empty. -/
def takeUntil (terminator : Char) (what : String) : (fuel : Nat) → String → Read String
  | 0, _ => failBack (.missing what) 0
  | fuel + 1, done => do
    match ← take with
    | none =>
      if done.isEmpty then failBack (.missing what) 0
      else failBack (.missingTerminator (String.singleton terminator)) done.length
    | some m =>
      if m == .plain terminator then
        if done.isEmpty then failBack (.missing what) 1 else return done
      else takeUntil terminator what fuel (done ++ m.text)

def enough : Read Nat := fun s => .ok (s.ahead.length + 1, s)

def isOctalDigit (c : Char) : Bool :=
  '0' ≤ c && c ≤ '7'

/-- The control characters that a letter after a backslash stands for. -/
def controlEscape? : Char → Option Nat
  | 'a' => some 7
  | 'f' => some 12
  | 'n' => some 10
  | 'r' => some 13
  | 't' => some 9
  | 'v' => some 11
  | '\\' => some 92
  | _ => none

/-- The class of characters that a letter after a backslash stands for. -/
def classEscape? (ascii : Bool) : Char → Option SetItem
  | 'd' => some (.named .digit ascii false)
  | 'D' => some (.named .digit ascii true)
  | 's' => some (.named .blank ascii false)
  | 'S' => some (.named .blank ascii true)
  | 'w' => some (.named .word ascii false)
  | 'W' => some (.named .word ascii true)
  | _ => none

/-- An escape of exactly `n` digits in base 16 after `letter`. -/
def hexEscape (letter : Char) (n : Nat) : Read Nat := do
  let digits ← takeWhile Text.isHexDigit n
  let text := String.ofList ('\\' :: letter :: digits)
  if digits.length != n then failBack (.incompleteEscape text) text.length
  else
    let code := Text.numberIn 16 digits
    if 0x10ffff < code then failBack (.badEscape text) text.length else return code

/-- An escape by the name of a character. No name is known. -/
def namedEscape : Read Nat := do
  if !(← accept '\x7b') then failBack (.missing "\x7b") 0
  else
    let name ← takeUntil '\x7d' "character name" (← enough) ""
    failBack (.undefinedName name) (name.length + 4)

/-- The escapes that are the same inside and outside a set. -/
def commonEscape (c : Char) : Read Nat := do
  if c == 'x' then hexEscape 'x' 2
  else if c == 'u' then hexEscape 'u' 4
  else if c == 'U' then hexEscape 'U' 8
  else if c == 'N' then namedEscape
  else if Text.isAsciiLetter c || Text.isAsciiDigit c then
    failBack (.badEscape (String.ofList ['\\', c])) 2
  else return c.toNat

/-- A member of a set that is being read: one code point or a class. -/
inductive Member where
  | code (n : Nat)
  | item (i : SetItem)

def setEscape (ascii : Bool) (c : Char) : Read Member := do
  match controlEscape? c with
  | some n => return .code n
  | none =>
    if c == 'b' then return .code 8
    match classEscape? ascii c with
    | some i => return .item i
    | none =>
      if isOctalDigit c then
        let digits ← takeWhile isOctalDigit 2
        let code := Text.numberIn 8 (c :: digits)
        let text := String.ofList ('\\' :: c :: digits)
        if 0o377 < code then failBack (.octalRange text) text.length else return .code code
      else return .code (← commonEscape c)

def member (ascii : Bool) : Mark → Read Member
  | .escaped c => setEscape ascii c
  | .plain c => pure (.code c.toNat)
  | .broken => pure (.code 92)

def Member.toItem : Member → SetItem
  | .code n => .range n n
  | .item i => i

/-- Reads the members of a set up to its end. `start` is the place of the opening bracket. -/
def setMembers (ascii : Bool) (start : Nat) : (fuel : Nat) → List SetItem → Read (List SetItem)
  | 0, _ => failAt .unterminatedSet start
  | fuel + 1, done => do
    match ← take with
    | none => failAt .unterminatedSet start
    | some this =>
      if this == .plain ']' && !done.isEmpty then return done.reverse
      let first ← member ascii this
      if ← accept '-' then
        match ← take with
        | none => failAt .unterminatedSet start
        | some that =>
          if that == .plain ']' then return (.range 45 45 :: first.toItem :: done).reverse
          let second ← member ascii that
          match first, second with
          | .code lo, .code hi =>
            if hi < lo then
              failBack (.badRange this.text that.text) (this.length + 1 + that.length)
            else setMembers ascii start fuel (.range lo hi :: done)
          | _, _ => failBack (.badRange this.text that.text) (this.length + 1 + that.length)
      else setMembers ascii start fuel (first.toItem :: done)

def State.groups (s : State) : Nat :=
  s.widths.length + 1

def State.width? (s : State) (index : Nat) : Option (Nat × Nat) :=
  if index = 0 then none else (s.widths.reverse[index - 1]?).join

/-- Inside a lookbehind only groups that were closed before it can be referred to. -/
def checkLookbehind (index : Nat) : Read Unit := do
  let s ← getState
  match s.lookbehind with
  | none => return ()
  | some before =>
    if (s.width? index).isNone then failBack .openGroup 0
    else if before ≤ index then failBack .groupOfSameLookbehind 0
    else return ()

/-- A reference to a group by number, written by the digits `text` after the backslash. -/
def reference (flags : Flags) (digits : List Char) : Read Regex := do
  let index := Text.numberIn 10 digits
  let s ← getState
  if index < s.groups then
    if (s.width? index).isNone then failBack .openGroup (digits.length + 1)
    else
      checkLookbehind index
      return .back flags.casing index
  else failBack (.invalidReference index) digits.length

inductive Kind where
  | anchor
  | repetition
  | other
deriving DecidableEq

/-- A part of a sequence, and what it is to a repetition that follows. -/
structure Item where
  regex : Regex
  kind : Kind

def Item.char (flags : Flags) (code : Nat) : Item :=
  ⟨.char (.literal flags.casing code), .other⟩

def Item.anchor (a : Anchor) : Item :=
  ⟨.anchor a, .anchor⟩

def widthOf (r : Regex) : Read (Nat × Nat) := fun s =>
  .ok (r.width fun i => (s.width? i).getD (0, 0), s)

def escape (flags : Flags) (c : Char) : Read Item := do
  let ascii := flags.ascii
  match c with
  | 'A' => return .anchor .textStart
  | 'Z' => return .anchor .textEnd
  | 'b' => return .anchor (.wordEdge ascii)
  | 'B' => return .anchor (.notWordEdge ascii)
  | _ =>
    match classEscape? ascii c with
    | some i => return ⟨.char (.set .exact false [i]), .other⟩
    | none =>
      match controlEscape? c with
      | some n => return .char flags n
      | none =>
        if c == '0' then
          let digits ← takeWhile isOctalDigit 2
          return .char flags (Text.numberIn 8 (c :: digits))
        else if Text.isAsciiDigit c then
          match ← takeWhile Text.isAsciiDigit 1 with
          | [] => return ⟨← reference flags [c], .other⟩
          | d :: _ =>
            if isOctalDigit c && isOctalDigit d then
              match ← takeWhile isOctalDigit 1 with
              | e :: _ =>
                let code := Text.numberIn 8 [c, d, e]
                if 0o377 < code then failBack (.octalRange (String.ofList ['\\', c, d, e])) 4
                else return .char flags code
              | [] => return ⟨← reference flags [c, d], .other⟩
            else return ⟨← reference flags [c, d], .other⟩
        else return .char flags (← commonEscape c)

/-- The bounds of a counted repetition, or `none` if the brace does not open one. The opening brace
has been taken. -/
def bounds : Read (Option (Nat × Option Nat)) := do
  let saved ← getState
  if (← peek) == some (.plain '\x7d') then return none
  let lo ← takeWhile Text.isAsciiDigit (← enough)
  let open' ← accept ','
  let fuel ← enough
  let hi ← if open' then takeWhile Text.isAsciiDigit fuel else pure lo
  if !(← accept '\x7d') then
    setState saved
    return none
  let least := Text.numberIn 10 lo
  let most := Text.numberIn 10 hi
  if !lo.isEmpty && Regex.repeatCap ≤ least then failWith .repetitionTooLarge
  else if !hi.isEmpty && Regex.repeatCap ≤ most then failWith .repetitionTooLarge
  else if !hi.isEmpty && most < least then failAt .repeatBounds saved.pos
  else return some (least, if hi.isEmpty then none else some most)

def groupName (terminator : Char) : Read String := do
  let name ← takeUntil terminator "group name" (← enough) ""
  if Text.isIdentifier name then return name
  else failBack (.badGroupName name) (name.length + 1)

def namedReference (flags : Flags) : Read Regex := do
  let name ← groupName ')'
  let s ← getState
  match s.names.find? (·.1 == name) with
  | none => failBack (.unknownGroupName name) (name.length + 1)
  | some (_, index) =>
    if (s.width? index).isNone then failBack .openGroup (name.length + 1)
    else
      checkLookbehind index
      return .back flags.casing index

def conditionGroup : Read Nat := do
  let name ← takeUntil ')' "group name" (← enough) ""
  let back := name.length + 1
  let s ← getState
  let index ←
    if Text.isIdentifier name then
      match s.names.find? (·.1 == name) with
      | none => failBack (.unknownGroupName name) back
      | some (_, index) => pure index
    else
      match Text.toInt? name with
      | none => failBack (.badGroupName name) back
      | some i =>
        if i < 0 then failBack (.badGroupName name) back
        else if i = 0 then failBack .badGroupNumber back
        else if 1073741823 ≤ i then failBack (.invalidReference i.toNat) back
        else
          let n := i.toNat
          if !(s.conditions.any (·.1 == n)) then
            setState { s with conditions := s.conditions ++ [(n, s.pos - back)] }
          pure n
  checkLookbehind index
  return index

/-- The letter of a flag, the locale flag included, by its mark. -/
def flagOf? : Mark → Option (Option Flags)
  | .plain 'L' => some none
  | .plain c => (Flags.ofLetter? c).map some
  | _ => none

/-- The fault of a mark that is no flag: an unknown letter, or something missing. -/
def flagFault (m : Mark) (what : String) : Fault :=
  match m with
  | .plain c => if Text.isLetter c then .unknownFlag else .missing what
  | _ => .missing what

/-- Reads flags to switch on, from the mark `m`: the flags and the mark after them. -/
def flagsOn : (fuel : Nat) → Mark → Flags → Read (Flags × Mark)
  | 0, _, _ => failBack .unexpectedEnd 0
  | fuel + 1, m, done => do
    match flagOf? m with
    | none => failBack .unexpectedEnd 0
    | some none => failBack .localeFlag 0
    | some (some f) =>
      let all := done.union f
      if (f.ascii || f.unicode) && all.ascii && all.unicode then failBack .incompatibleFlags 0
      else
        match ← take with
        | none => failBack (.missing "-, : or )") 0
        | some next =>
          if next == .plain ')' || next == .plain '-' || next == .plain ':' then return (all, next)
          else if (flagOf? next).isNone then failBack (flagFault next "-, : or )") next.length
          else flagsOn fuel next all

/-- Reads flags to switch off, from the mark `m`, up to the colon. -/
def flagsOff : (fuel : Nat) → Mark → Flags → Read Flags
  | 0, _, _ => failBack .unexpectedEnd 0
  | fuel + 1, m, done => do
    match flagOf? m with
    | none => failBack .unexpectedEnd 0
    | some none => failBack .typeFlagOff 0
    | some (some f) =>
      if f.ascii || f.unicode then failBack .typeFlagOff 0
      else
        let all := done.union f
        match ← take with
        | none => failBack (.missing ":") 0
        | some next =>
          if next == .plain ':' then return all
          else if (flagOf? next).isNone then failBack (flagFault next ":") next.length
          else flagsOff fuel next all

/-- Reads inline flags from their first mark: the flags for the whole pattern, or those to switch on
and off in a group. -/
def inlineFlags (m : Mark) : Read (Flags ⊕ (Flags × Flags)) := do
  let fuel ← enough
  let (on, stop) ← if m == .plain '-' then pure (Flags.none, m) else flagsOn (fuel + 1) m Flags.none
  if stop == .plain ')' then return .inl on
  if on.template then failBack .globalFlagOn 1
  else
    let off ←
      if stop == .plain '-' then do
        match ← take with
        | none => failBack (.missing "flag") 0
        | some next =>
          if (flagOf? next).isNone then failBack (flagFault next "flag") next.length
          else flagsOff (fuel + 1) next Flags.none
      else pure Flags.none
    if off.template then failBack .globalFlagOff 1
    else if on.inter off != Flags.none then failBack .flagOnAndOff 1
    else return .inr (on, off)

def openGroup (name : Option String) : Read Nat := do
  let s ← getState
  let index := s.groups
  match name with
  | none =>
    setState { s with widths := none :: s.widths }
    return index
  | some n =>
    match s.names.find? (·.1 == n) with
    | some (_, first) => failBack (.redefinition n index first) (n.length + 1)
    | none =>
      setState { s with widths := none :: s.widths, names := s.names ++ [(n, index)] }
      return index

def closeGroup (index : Nat) (width : Nat × Nat) : Read Unit := do
  let s ← getState
  setState { s with widths := s.widths.set (s.widths.length - index) (some width) }

def closing (start : Nat) : Read Unit := do
  if ← accept ')' then return ()
  else failAt .unterminatedGroup start

def skipComment (start : Nat) : (fuel : Nat) → Read Unit
  | 0 => failAt .unterminatedComment start
  | fuel + 1 => do
    match ← take with
    | none => failAt .unterminatedComment start
    | some m => if m == .plain ')' then return () else skipComment start fuel

def skipLine : (fuel : Nat) → Read Unit
  | 0 => pure ()
  | fuel + 1 => do
    match ← take with
    | none => return ()
    | some m => if m == .plain '\n' then return () else skipLine fuel

inductive Opening where
  /-- A group with a body: its flags, its name, and what to make of it. -/
  | capture (name : Option String)
  | plainGroup (on off : Flags)
  | atomicGroup
  | look (behind negated : Bool)
  | condition (index : Nat)
  /-- Nothing more to read: a comment, a reference or flags for the whole pattern. -/
  | finished (item : Option Regex)
  | globalFlags (flags : Flags)

def opening (flags : Flags) (start : Nat) : Read Opening := do
  if !(← accept '?') then return .capture none
  match ← take with
  | none => failBack .unexpectedEnd 0
  | some m =>
    match m with
    | .plain 'P' =>
      match ← take with
      | none => failBack .unexpectedEnd 0
      | some (.plain '<') => return .capture (some (← groupName '>'))
      | some (.plain '=') => return .finished (some (← namedReference flags))
      | some c => failBack (.unknownExtension ("?P" ++ c.text)) (c.length + 2)
    | .plain ':' => return .plainGroup .none .none
    | .plain '#' =>
      skipComment start ((← enough) + 1)
      return .finished none
    | .plain '=' => return .look false false
    | .plain '!' => return .look false true
    | .plain '<' =>
      match ← take with
      | none => failBack .unexpectedEnd 0
      | some (.plain '=') => return .look true false
      | some (.plain '!') => return .look true true
      | some c => failBack (.unknownExtension ("?<" ++ c.text)) (c.length + 2)
    | .plain '(' => return .condition (← conditionGroup)
    | .plain '>' => return .atomicGroup
    | _ =>
      if m == .plain '-' || (flagOf? m).isSome then
        match ← inlineFlags m with
        | .inl f => return .globalFlags f
        | .inr (on, off) => return .plainGroup on off
      else failBack (.unknownExtension ("?" ++ m.text)) (m.length + 1)

def isLayout : Mark → Bool
  | .plain c => c == ' ' || (9 ≤ c.toNat && c.toNat ≤ 13)
  | _ => false

/-- The repetition that a mark opens: its bounds, or `none` if the mark is a brace that stands for
itself. -/
def repetition (c : Char) : Read (Option (Nat × Option Nat)) := do
  match c with
  | '?' => return some (0, some 1)
  | '*' => return some (0, none)
  | '+' => return some (1, none)
  | _ => bounds

/-- Repeats the last item of a sequence (backwards), as a mark at the place `at'` says. -/
def repeatLast (at' min : Nat) (max : Option Nat) : List Item → Read (List Item)
  | [] => failAt .nothingToRepeat at'
  | item :: rest => do
    match item.kind with
    | .anchor => failAt .nothingToRepeat at'
    | .repetition => failAt .multipleRepeat at'
    | .other =>
      let few ← accept '?'
      let fixed ← if few then pure false else accept '+'
      let greed : Greed := if few then .lazy else if fixed then .possessive else .greedy
      return ⟨.rep greed min max item.regex, .repetition⟩ :: rest

/-- Whether whole-pattern flags may stand here: at the start of the first alternative. -/
structure Level where
  top : Bool
  first : Bool

mutual

def alternatives : (fuel : Nat) → (flags : Flags) → (top : Bool) → Read Regex
  | 0, _, _ => failBack .unexpectedEnd 0
  | fuel + 1, flags, top => do
    let (flags, first) ← sequence fuel flags ⟨top, true⟩ []
    let rest ← moreAlternatives fuel flags
    return Regex.choice (first :: rest)

def moreAlternatives : (fuel : Nat) → (flags : Flags) → Read (List Regex)
  | 0, _ => pure []
  | fuel + 1, flags => do
    if ← accept '|' then
      let (_, next) ← sequence fuel flags ⟨false, false⟩ []
      let rest ← moreAlternatives fuel flags
      return next :: rest
    else return []

/-- Reads a sequence; `done` are the items so far, backwards. Flags for the whole pattern are found
here and come back. -/
def sequence : (fuel : Nat) → (flags : Flags) → Level → List Item → Read (Flags × Regex)
  | 0, _, _, _ => failBack .unexpectedEnd 0
  | fuel + 1, flags, level, done => do
    match ← peek with
    | none => return (flags, Regex.ofList (done.reverse.map (·.regex)))
    | some m =>
      if m == .plain '|' || m == .plain ')' then
        return (flags, Regex.ofList (done.reverse.map (·.regex)))
      let start ← place
      let _ ← take
      if flags.verbose && isLayout m then sequence fuel flags level done
      else if flags.verbose && m == .plain '#' then
        skipLine (← enough)
        sequence fuel flags level done
      else
        match m with
        | .broken => failBack .trailingBackslash 1
        | .escaped c =>
          let item ← escape flags c
          sequence fuel flags level (item :: done)
        | .plain c =>
          if c == '[' then
            let negated ← accept '^'
            let items ← setMembers flags.ascii start ((← enough) + 1) []
            let item : Item := ⟨.char (.set flags.casing negated items), .other⟩
            sequence fuel flags level (item :: done)
          else if c == '?' || c == '*' || c == '+' || c == '\x7b' then
            match ← repetition c with
            | none => sequence fuel flags level (Item.char flags c.toNat :: done)
            | some (min, max) =>
              let done ← repeatLast start min max done
              sequence fuel flags level done
          else if c == '.' then
            let t := if flags.dotAll then CharTest.any else CharTest.notNewline
            sequence fuel flags level (⟨.char t, .other⟩ :: done)
          else if c == '^' then
            let a := if flags.multiline then Anchor.lineStart else Anchor.textStart
            sequence fuel flags level (Item.anchor a :: done)
          else if c == '$' then
            let a := if flags.multiline then Anchor.lineEnd else Anchor.lastLineEnd
            sequence fuel flags level (Item.anchor a :: done)
          else if c == '(' then
            match ← opening flags start with
            | .finished none => sequence fuel flags level done
            | .finished (some r) => sequence fuel flags level (⟨r, .other⟩ :: done)
            | .globalFlags f =>
              if level.top && level.first && done.isEmpty then
                let s ← getState
                setState { s with flags := s.flags.union f }
                sequence fuel (flags.union f) level done
              else failAt .lateFlags start
            | o =>
              let r ← groupBody fuel flags start o
              sequence fuel flags level (⟨r, .other⟩ :: done)
          else sequence fuel flags level (Item.char flags c.toNat :: done)

def groupBody : (fuel : Nat) → (flags : Flags) → (start : Nat) → Opening → Read Regex
  | 0, _, _, _ => failBack .unexpectedEnd 0
  | fuel + 1, flags, start, o => do
    match o with
    | .capture name =>
      let index ← openGroup name
      let body ← alternatives fuel flags false
      closing start
      closeGroup index (← widthOf body)
      return .group index body
    | .plainGroup on off =>
      let body ← alternatives fuel (flags.switch on off) false
      closing start
      return body
    | .atomicGroup =>
      let body ← alternatives fuel flags false
      closing start
      return .atomic body
    | .look false negated =>
      let body ← alternatives fuel flags false
      closing start
      return .ahead negated body
    | .look true negated =>
      let outer ← getState
      setState { outer with lookbehind := some (outer.lookbehind.getD outer.groups) }
      let body ← alternatives fuel flags false
      let s ← getState
      setState { s with lookbehind := outer.lookbehind }
      closing start
      let (lo, hi) ← widthOf body
      return .behind negated lo hi body
    | .condition index =>
      let (_, yes) ← sequence fuel flags ⟨false, false⟩ []
      let two ← accept '|'
      let (_, no) ← if two then sequence fuel flags ⟨false, false⟩ [] else pure (flags, .empty)
      let next ← peek
      if two && next == some (.plain '|') then failBack .manyBranches 0
      else
        closing start
        return .cond index yes no
    | .finished _ | .globalFlags _ => return .empty

end

/-- The checks that follow reading, in the order of the expression: lookbehinds have one width, and
nothing is repeated under the flag that forbids it. -/
def Regex.check (template : Bool) : Regex → Except Fault Unit
  | .empty | .char _ | .anchor _ | .back _ _ => .ok ()
  | .seq a b | .alt a b | .cond _ a b =>
    match a.check template with
    | .error e => .error e
    | .ok () => b.check template
  | .rep greed _ _ body =>
    if template then
      .error (.templateRepeat (match greed with
        | .greedy => "MAX_REPEAT"
        | .lazy => "MIN_REPEAT"
        | .possessive => "POSSESSIVE_REPEAT"))
    else body.check template
  | .group _ body | .ahead _ body | .atomic body => body.check template
  | .behind _ lo hi body =>
    if 4294967295 < lo then .error .tooFarBehind
    else if lo != hi then .error .variableLookbehind
    else body.check template

def readAll (flags : Flags) (cs : List Char) : Except Failure (Regex × State) :=
  let start : State := ⟨marks cs, 0, flags, [], [], none, []⟩
  match checked start with
  | .error e => .error e
  | .ok start =>
    match alternatives (4 * cs.length + 8) flags true start with
    | .error e => .error e
    | .ok (regex, s) =>
      match s.ahead with
      | _ :: _ => .error (.malformed .unbalanced (some s.pos))
      | [] =>
        if s.flags.ascii && s.flags.unicode then .error .conflictingFlags
        else
          match s.conditions.find? (fun g => s.groups ≤ g.1) with
          | some (g, at') => .error (.malformed (.invalidReference g) (some at'))
          | none =>
            match regex.check s.flags.template with
            | .error fault => .error (.malformed fault none)
            | .ok () => .ok (regex, s)

def compile (flags : Flags) (s : String) : Except Failure Pattern :=
  match readAll flags s.toList with
  | .error e => .error e
  | .ok (regex, s) => .ok ⟨regex, s.names⟩

def never : Pattern :=
  ⟨.char (.oneOf []), []⟩

/-- The pattern of a text that is known to be well formed. -/
def ofText (flags : Flags) (s : String) : Pattern :=
  match compile flags s with
  | .ok p => p
  | .error _ => never

end SourceAudit.Pattern
