/-
# The files that a program sees

A directory tree with a current directory. A path is followed name by name:
each name but the last must lead to a directory, a name has at most 255 bytes,
and a path with a null character leads nowhere. Listings are in the order of
the names.
-/
import SourceAudit.Fault
import SourceAudit.Files.Path
import SourceAudit.Text.Utf8

namespace SourceAudit

/-- A file with its bytes, or a directory with its entries in the order of their names. -/
inductive Entry where
  | file (content : List UInt8)
  | dir (entries : List (String × Entry))
deriving Inhabited

namespace Entry

def isDir : Entry → Bool
  | .dir _ => true
  | .file _ => false

def isFile : Entry → Bool
  | .dir _ => false
  | .file _ => true

def entries : Entry → List (String × Entry)
  | .dir es => es
  | .file _ => []

def child? (e : Entry) (name : String) : Option Entry :=
  (e.entries.find? (·.1 == name)).map (·.2)

def get? : Entry → List String → Option Entry
  | e, [] => some e
  | e, n :: ns => (e.child? n).bind (·.get? ns)

/-- Entries with one of them set, in the order of the names. -/
def setEntry (name : String) (e : Entry) : List (String × Entry) → List (String × Entry)
  | [] => [(name, e)]
  | (n, f) :: rest =>
    if n == name then (name, e) :: rest
    else if name < n then (name, e) :: (n, f) :: rest
    else (n, f) :: setEntry name e rest

/-- The tree with `new` where the names lead; directories on the way are made. -/
def put (new : Entry) : Entry → List String → Entry
  | _, [] => new
  | e, n :: ns => .dir (setEntry n (put new ((e.child? n).getD (.dir [])) ns) e.entries)

mutual

/-- Everything inside an entry, with the names that lead there, each before what is inside it. -/
def contents (names : List String) : Entry → List (List String × Entry)
  | .file _ => []
  | .dir es => contentsOfAll names es

/-- Everything inside the entries of a directory, and those entries. -/
def contentsOfAll (names : List String) : List (String × Entry) → List (List String × Entry)
  | [] => []
  | (n, e) :: rest =>
    (names ++ [n], e) :: (contents (names ++ [n]) e ++ contentsOfAll names rest)

end

end Entry

/-- All files, and the names that lead to the current directory. -/
structure Disk where
  root : Entry
  cwd : List String
deriving Inhabited

namespace Disk

def maxName : Nat := 255

/-- Follows names from the directory that `here` leads to (backwards): where they lead. -/
def follow (d : Disk) (shown : String) (here : List String) : List String → Except Fault (List String)
  | [] => .ok here
  | n :: ns =>
    match d.root.get? here.reverse with
    | some (.dir es) =>
      if n == ".." then d.follow shown (here.drop 1) ns
      else if maxName < (Utf8.encode n).length then .error (.nameTooLong shown)
      else if es.any (·.1 == n) then d.follow shown (n :: here) ns
      else .error (.missing shown)
    | some (.file _) => .error (.notDirectory shown)
    | none => .error (.missing shown)

/-- Where a path leads: the names from the root. -/
def locate (d : Disk) (p : Path) : Except Fault (List String) :=
  let shown := p.toString
  if shown.toList.contains '\x00' then .error .nulInPath
  else
    match d.follow shown (if p.isAbsolute then [] else d.cwd.reverse) p.names with
    | .ok here => .ok here.reverse
    | .error e => .error e

def find (d : Disk) (p : Path) : Except Fault Entry :=
  match d.locate p with
  | .error e => .error e
  | .ok names =>
    match d.root.get? names with
    | some e => .ok e
    | none => .error (.missing p.toString)

/-- What a path leads to, or nothing if it leads nowhere. A name that is too long is a fault. -/
def find? (d : Disk) (p : Path) : Except Fault (Option Entry) :=
  match d.find p with
  | .ok e => .ok (some e)
  | .error (.nameTooLong s) => .error (.nameTooLong s)
  | .error _ => .ok none

def holds (d : Disk) (p : Path) : Except Fault Bool :=
  (d.find? p).map Option.isSome

def isDir (d : Disk) (p : Path) : Except Fault Bool :=
  (d.find? p).map fun e => e.any Entry.isDir

def isFile (d : Disk) (p : Path) : Except Fault Bool :=
  (d.find? p).map fun e => e.any Entry.isFile

/-- The path leads to a directory; whatever stands in the way counts as no. -/
def holdsDir (d : Disk) (p : Path) : Bool :=
  match d.find p with
  | .ok e => e.isDir
  | .error _ => false

def bytes (d : Disk) (p : Path) : Except Fault (List UInt8) :=
  match d.find p with
  | .error e => .error e
  | .ok (.file content) => .ok content
  | .ok (.dir _) => .error (.isDirectory p.toString)

/-- Writes a file; its directory must be there. -/
def write (d : Disk) (p : Path) (content : List UInt8) : Except Fault Disk :=
  match d.locate p with
  | .ok names =>
    match d.root.get? names with
    | some (.dir _) => .error (.isDirectory p.toString)
    | _ => .ok { d with root := Entry.put (.file content) d.root names }
  | .error (.missing s) =>
    match d.locate p.parent with
    | .ok names =>
      match d.root.get? names with
      | some (.dir _) =>
        .ok { d with root := Entry.put (.file content) d.root (names ++ [p.name]) }
      | some (.file _) => .error (.notDirectory s)
      | none => .error (.missing s)
    | .error _ => .error (.missing s)
  | .error e => .error e

/-- Makes a directory in one that is there; it may be there already. -/
def makeOne (d : Disk) (p : Path) : Except Fault Disk :=
  match d.find p with
  | .ok (.dir _) => .ok d
  | .ok (.file _) => .error (.present p.toString)
  | .error (.missing s) =>
    match d.locate p.parent with
    | .ok names =>
      if (d.root.get? names).any Entry.isDir then
        .ok { d with root := Entry.put (.dir []) d.root (names ++ [p.name]) }
      else .error (.missing s)
    | .error _ => .error (.missing s)
  | .error e => .error e

/-- Makes the directory with the names given backwards, after those that lead to it. -/
def makeAll (d : Disk) (root : String) : List String → Except Fault Disk
  | [] => d.makeOne ⟨root, []⟩
  | n :: ns =>
    let p : Path := ⟨root, (n :: ns).reverse⟩
    match d.makeOne p with
    | .error (.missing _) =>
      match d.makeAll root ns with
      | .ok d => d.makeOne p
      | .error e => .error e
    | r => r

/-- Makes a directory with all that lead to it; it may be there already. -/
def makeDir (d : Disk) (p : Path) : Except Fault Disk :=
  d.makeAll p.root p.names.reverse

/-- The files after an attempt to make a directory, with the names given backwards: what could be made
on the way stays. -/
def tryAll (d : Disk) (root : String) : List String → Disk
  | [] => (orNothing (d.makeOne ⟨root, []⟩)).getD d
  | n :: ns =>
    let p : Path := ⟨root, (n :: ns).reverse⟩
    match d.makeOne p with
    | .ok d => d
    | .error (.missing _) =>
      match d.makeAll root ns with
      | .ok d => (orNothing (d.makeOne p)).getD d
      | .error _ => d.tryAll root ns
    | .error _ => d

/-- The files after an attempt to make a directory, whether it can be made or not. -/
def tryMakeDir (d : Disk) (p : Path) : Disk :=
  d.tryAll p.root p.names.reverse

/-- The entries of a directory, none if there is no such directory. -/
def list (d : Disk) (p : Path) : Except Fault (List (Path × Entry)) :=
  (d.find? p).map fun e =>
    match e with
    | some (.dir es) => es.map fun x => (p.join ⟨"", [x.1]⟩, x.2)
    | _ => []

/-- Everything below a directory in order, none if there is no such directory. -/
def walk (d : Disk) (p : Path) : Except Fault (List (Path × Entry)) :=
  (d.find? p).map fun e =>
    match e with
    | some e => (e.contents []).map fun x => (p.join ⟨"", x.1⟩, x.2)
    | none => []

end Disk

end SourceAudit
