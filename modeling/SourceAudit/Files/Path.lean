/-
# Paths

A path is a list of names from the root or from the current directory. Empty
names and single dots are dropped when a path is read; double dots stay. A file
can also be named by its address.
-/
import SourceAudit.Text.Basic

namespace SourceAudit

/-- A path; the root is written as one slash, or as two where exactly two were read. -/
structure Path where
  root : String
  names : List String
deriving DecidableEq, Repr, Inhabited

namespace Path

def ofString (s : String) : Path :=
  let slashes := (s.toList.takeWhile (· == '/')).length
  let root := if slashes = 0 then "" else if slashes = 2 then "//" else "/"
  ⟨root, (Text.split s "/").filter fun n => n != "" && n != "."⟩

def toString (p : Path) : String :=
  if p.root == "" && p.names.isEmpty then "." else p.root ++ Text.join "/" p.names

instance : ToString Path := ⟨Path.toString⟩

def isAbsolute (p : Path) : Bool :=
  p.root != ""

def name (p : Path) : String :=
  p.names.getLast?.getD ""

def parent (p : Path) : Path :=
  { p with names := p.names.dropLast }

def parents (p : Path) : List Path :=
  (List.range p.names.length).map fun k => { p with names := p.names.take (p.names.length - 1 - k) }

def join (p q : Path) : Path :=
  if q.isAbsolute then q else { p with names := p.names ++ q.names }

def child (p : Path) (name : String) : Path :=
  p.join (ofString name)

/-- The place of the last dot in a name, if there is something before and after it. -/
def suffixAt? (name : String) : Option Nat :=
  let cs := name.toList
  let tail := cs.reverse.takeWhile (· != '.')
  let i := cs.length - tail.length - 1
  if cs.contains '.' && 0 < i && !tail.isEmpty then some i else none

def suffix (p : Path) : String :=
  match suffixAt? p.name with
  | some i => String.ofList (p.name.toList.drop i)
  | none => ""

def withSuffix (p : Path) (suffix : String) : Path :=
  let base := match suffixAt? p.name with
    | some i => String.ofList (p.name.toList.take i)
    | none => p.name
  { p with names := p.names.dropLast ++ [base ++ suffix] }

def relativeTo? (p dir : Path) : Option Path :=
  if p.root == dir.root && dir.names.isPrefixOf p.names then
    some ⟨"", p.names.drop dir.names.length⟩
  else none

def collapse (names : List String) : List String :=
  (names.foldl (fun done n => if n == ".." then done.drop 1 else n :: done) []).reverse

/-- The path from the root, with double dots resolved, seen from a current directory. -/
def absolute (cwd : List String) (p : Path) : Path :=
  if p.isAbsolute then ⟨p.root, collapse p.names⟩ else ⟨"/", collapse (cwd ++ p.names)⟩

end Path

/-- The extension of a file name as it stands in a path text: from the last dot of the last name on,
unless only dots stand before it. -/
def extensionOf (s : String) : String :=
  let name := (s.toList.reverse.takeWhile (· != '/')).reverse
  let tail := name.reverse.takeWhile (· != '.')
  let i := name.length - tail.length - 1
  if name.contains '.' && (name.take i).any (· != '.') then String.ofList (name.drop i) else ""

def fileUrl (path : String) : String :=
  if path.toList.head? == some '/' then "file://" ++ path else "file:" ++ path

/-- The path that a user names by itself or by its address. -/
def pathOfUrl (s : String) : String :=
  if Text.startsWith s "file://" then String.ofList (s.toList.drop 7)
  else if Text.startsWith s "file:" then String.ofList (s.toList.drop 5)
  else s

end SourceAudit
