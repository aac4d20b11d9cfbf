/-
# Text files

A text file is read in the first of some encodings that its bytes agree with,
and each of its line ends is then one line feed (`joinNewlines`). A text that is shown
line by line is also cut at other line ends (`lines`).
-/
import SourceAudit.Files.Disk
import SourceAudit.Text.Gbk

namespace SourceAudit.Text

/-- Turns `\r\n` and `\r` into `\n`; `done` is the result so far, backwards. -/
def joinNewlinesFrom (done : List Char) : List Char → List Char
  | [] => done.reverse
  | '\r' :: '\n' :: cs => joinNewlinesFrom ('\n' :: done) cs
  | '\r' :: cs => joinNewlinesFrom ('\n' :: done) cs
  | c :: cs => joinNewlinesFrom (c :: done) cs

def joinNewlines (s : String) : String :=
  if s.toList.contains '\r' then String.ofList (joinNewlinesFrom [] s.toList) else s

def isLineEnd (c : Char) : Bool :=
  (10 ≤ c.toNat && c.toNat ≤ 13) || (28 ≤ c.toNat && c.toNat ≤ 30) ||
    c.toNat == 0x85 || c.toNat == 0x2028 || c.toNat == 0x2029

/-- Cuts at line ends, `\r\n` being one; `line` is the line being read and `done` the lines before it,
both backwards. -/
def linesFrom (line : List Char) (done : List (List Char)) : List Char → List (List Char)
  | [] => (if line.isEmpty then done else line.reverse :: done).reverse
  | '\r' :: '\n' :: cs => linesFrom [] (line.reverse :: done) cs
  | c :: cs =>
    if isLineEnd c then linesFrom [] (line.reverse :: done) cs else linesFrom (c :: line) done cs

def lines (s : String) : List String :=
  (linesFrom [] [] s.toList).map String.ofList

end SourceAudit.Text

namespace SourceAudit

inductive Encoding where
  | utf8
  | gbk
  | latin1
deriving DecidableEq, Repr

namespace Encoding

def latin (bs : List UInt8) : List Char :=
  bs.map fun b => Char.ofNat b.toNat

def decode? : Encoding → List UInt8 → Option String
  | .utf8, bs => Utf8.decode? bs
  | .gbk, bs => Gbk.decode? bs
  | .latin1, bs => some (String.ofList (latin bs))

/-- The characters of some bytes, and the bytes at the end that are a part of a further one. -/
def decodePart? : Encoding → List UInt8 → Option (List Char × List UInt8)
  | .utf8, bs => Utf8.partialFrom [] 0 bs
  | .gbk, bs => Gbk.decodeFrom [] bs
  | .latin1, bs => some (latin bs, [])

end Encoding

def decodeFirst? (encodings : List Encoding) (bs : List UInt8) : Option String :=
  encodings.findSome? (·.decode? bs)

/-- A file as text in the first of the encodings that it agrees with. -/
def Disk.readText (d : Disk) (encodings : List Encoding) (p : Path) : Except Fault String :=
  match d.bytes p with
  | .error e => .error e
  | .ok bs =>
    match decodeFirst? encodings bs with
    | some s => .ok (Text.joinNewlines s)
    | none => .error .undecodable

def sourceEncodings : List Encoding :=
  [.utf8, .gbk, .latin1]

/-- A source file as text. Whatever keeps it from being read is one fault. -/
def Disk.readSource (d : Disk) (path : String) : Except Fault String :=
  let p := Path.ofString path
  match d.readText sourceEncodings p with
  | .ok s => .ok s
  | .error .nulInPath => .error .nulInPath
  | .error _ => .error (.unreadable p.toString)

/-- The files and directories below a directory whose name ends in `.php`. -/
def Disk.phpFiles (d : Disk) (path : String) : List String :=
  match d.walk (Path.ofString path) with
  | .ok found => (found.filter fun x => Text.endsWith x.1.name ".php").map fun x => x.1.toString
  | .error _ => []

end SourceAudit
