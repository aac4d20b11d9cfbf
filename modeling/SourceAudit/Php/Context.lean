/-
# The lexical context of PHP text

A file is text with stretches of code in it. A stretch of code starts after an
opening tag (`<?`, `<?php` or `<?=`) and goes up to the next closing tag or the
end of the file. An opening tag inside code starts a stretch of its own. Within
a stretch, strings and comments are told apart from the rest.
-/
import SourceAudit.Text.Basic

namespace SourceAudit.Php

/-- What a place in the file can belong to, other than plain code. -/
inductive Context where
  | outside
  | string
  | comment
deriving DecidableEq, Repr, Inhabited

def Context.name : Context → String
  | .outside => "outside_php"
  | .string => "string"
  | .comment => "comment"

/-- The context of the places from `start` up to `stop`. -/
structure Span where
  start : Nat
  stop : Nat
  context : Context
deriving DecidableEq, Repr, Inhabited

def Span.covers (s : Span) (p : Nat) : Bool :=
  s.start ≤ p && p < s.stop

def isLetter (lower c : Char) : Bool :=
  c == lower || c == lower.toUpper

def tagLength? : List Char → Option Nat
  | '<' :: '?' :: p :: h :: q :: _ =>
    if isLetter 'p' p && isLetter 'h' h && isLetter 'p' q then some 5
    else if p == '=' then some 3 else some 2
  | '<' :: '?' :: '=' :: _ => some 3
  | '<' :: '?' :: _ => some 2
  | _ => none

theorem tagLength?_bounds {cs : List Char} {n : Nat} (h : tagLength? cs = some n) : 2 ≤ n ∧ n ≤ cs.length := by
  unfold tagLength? at h
  split at h
  · split at h
    · simp [← Option.some.inj h]
    · split at h <;> simp [← Option.some.inj h]
  · simp [← Option.some.inj h]
  · simp [← Option.some.inj h]
  · exact absurd h (by simp)

/-- The stretches of code that start in the text from `pos` on; `skip` characters belong to the
tag before. -/
def codeSpansFrom (pos : Nat) : (skip : Nat) → List Char → List (Nat × Nat)
  | _, [] => []
  | skip + 1, _ :: cs => codeSpansFrom (pos + 1) skip cs
  | 0, c :: cs =>
    match tagLength? (c :: cs) with
    | none => codeSpansFrom (pos + 1) 0 cs
    | some n =>
      let code := (c :: cs).drop n
      let stop := (Text.indexFrom ['?', '>'] (pos + n) code).getD (pos + n + code.length)
      (pos + n, stop) :: codeSpansFrom (pos + 1) (n - 1) cs

/-- The stretches of code in a file, in the order of their opening tags. -/
def codeSpans (content : List Char) : List (Nat × Nat) :=
  codeSpansFrom 0 0 content

/-- Where a reader of code is: in plain code, or in a string or comment since `start`. -/
inductive Reading where
  | plain
  | quoted (quote : Char) (start : Nat)
  | lineComment (start : Nat)
  | blockComment (start : Nat)
deriving DecidableEq, Repr

def isQuote (c : Char) : Bool :=
  c == '\'' || c == '"' || c.toNat == 96

/-- The strings and comments in code from `pos` on; `skip` characters are settled already. What is
not closed goes on to the end of the code. -/
def literalSpansFrom (pos : Nat) : Reading → (skip : Nat) → List Char → List Span
  | .plain, _, [] => []
  | .quoted _ start, _, [] => [⟨start, pos, .string⟩]
  | .lineComment start, _, [] => [⟨start, pos, .comment⟩]
  | .blockComment start, _, [] => [⟨start, pos, .comment⟩]
  | mode, skip + 1, _ :: cs => literalSpansFrom (pos + 1) mode skip cs
  | .plain, 0, c :: cs =>
    if isQuote c then literalSpansFrom (pos + 1) (.quoted c pos) 0 cs
    else if c == '/' && cs.head? == some '/' then literalSpansFrom (pos + 1) (.lineComment pos) 1 cs
    else if c == '#' then literalSpansFrom (pos + 1) (.lineComment pos) 0 cs
    else if c == '/' && cs.head? == some '*' then literalSpansFrom (pos + 1) (.blockComment pos) 1 cs
    else literalSpansFrom (pos + 1) .plain 0 cs
  | .quoted quote start, 0, c :: cs =>
    if c == '\\' then literalSpansFrom (pos + 1) (.quoted quote start) 1 cs
    else if c == quote then ⟨start, pos + 1, .string⟩ :: literalSpansFrom (pos + 1) .plain 0 cs
    else literalSpansFrom (pos + 1) (.quoted quote start) 0 cs
  | .lineComment start, 0, c :: cs =>
    if c == '\n' then ⟨start, pos, .comment⟩ :: literalSpansFrom (pos + 1) .plain 0 cs
    else literalSpansFrom (pos + 1) (.lineComment start) 0 cs
  | .blockComment start, 0, c :: cs =>
    if c == '*' && cs.head? == some '/' then
      ⟨start, pos + 2, .comment⟩ :: literalSpansFrom (pos + 1) .plain 1 cs
    else literalSpansFrom (pos + 1) (.blockComment start) 0 cs

def literalSpans (content : List Char) (code : Nat × Nat) : List Span :=
  literalSpansFrom code.1 .plain 0 ((content.drop code.1).take (code.2 - code.1))

/-- What lies between stretches of code, after `reached`, with the strings and comments in them. -/
def contextSpansFrom (content : List Char) (size reached : Nat) : List (Nat × Nat) → List Span
  | [] => if reached < size then [⟨reached, size, .outside⟩] else []
  | code :: rest =>
    (if reached < code.1 then [⟨reached, code.1, .outside⟩] else []) ++
      (literalSpans content code ++ contextSpansFrom content size code.2 rest)

/-- The spans of a file that are not plain code. A file without a tag is one span. -/
def contextSpans (content : List Char) : List Span :=
  match codeSpans content with
  | [] => [⟨0, content.length, .outside⟩]
  | codes => contextSpansFrom content content.length 0 codes

end SourceAudit.Php
