/-
# Reading in chunks

A text file given out in pieces of a fixed number of characters. The file is
taken in blocks; a character that a block cuts waits for the next block, and so
does a carriage return at the end of a block, since a line feed may follow it.
When a block shows that the file is no UTF-8, the file is given out as GBK from
its start, after the pieces that were given out already.
-/
import SourceAudit.Files.Encoding

namespace SourceAudit

structure Chunked where
  rest : List UInt8
  /-- The bytes of a character that is not complete. -/
  cut : List UInt8 := []
  carriage : Bool := false
  /-- The characters decoded and not yet given out. -/
  ready : List Char := []
  /-- The number of bytes to a character in the last block. -/
  width : Rat := 0

namespace Chunked

def blockSize : Nat := 8192

def scaled (width : Rat) (n : Nat) : Nat :=
  (((Double.ofRat (width * n)).toRat?.getD 0).floor).toNat

/-- Joins line ends in the characters of one block. A carriage return at the end waits, unless this is
the end of the file. -/
def joinLineEnds (waiting final : Bool) (cs : List Char) : List Char × Bool :=
  let cs := if waiting && (final || !cs.isEmpty) then '\r' :: cs else cs
  let waiting := waiting && !final && cs.isEmpty
  if !final && cs.getLast? == some '\r' then (Text.joinNewlinesFrom [] cs.dropLast, true)
  else (Text.joinNewlinesFrom [] cs, waiting)

/-- Takes a further block when `wanted` characters are needed: the file after it, and whether it had
something to give. -/
def refill (enc : Encoding) (wanted : Nat) (r : Chunked) : Option (Chunked × Bool) :=
  let size := max blockSize (scaled (if r.width < 1 then 1 else r.width) wanted)
  let block := r.rest.take size
  let final := block.isEmpty
  match enc.decodePart? (r.cut ++ block) with
  | none => none
  | some (cs, cut) =>
    if final && !cut.isEmpty then none
    else
      let (cs, carriage) := joinLineEnds r.carriage final cs
      let width := if cs.isEmpty then 0
        else (Double.ofRat ((block.length : Rat) / cs.length)).toRat?.getD 0
      some ({ rest := r.rest.drop size, cut, carriage, ready := cs, width }, !final || !cs.isEmpty)

/-- Gives out up to `wanted` characters, after those in `done` (backwards). -/
def take (enc : Encoding) : (fuel wanted : Nat) → (done : List Char) → Chunked →
    Option (List Char × Chunked)
  | 0, _, done, r => some (done.reverse, r)
  | fuel + 1, wanted, done, r =>
    let got := r.ready.take wanted
    let done := got.reverse ++ done
    let r := { r with ready := r.ready.drop wanted }
    let wanted := wanted - got.length
    if wanted = 0 then some (done.reverse, r)
    else
      match refill enc wanted r with
      | none => none
      | some (r, more) => if more then take enc fuel wanted done r else some (done.reverse, r)

/-- The pieces of `size` characters, after those in `done` (backwards), and whether the file was
read to its end. -/
def pieces (enc : Encoding) (size bound : Nat) : (fuel : Nat) → List String → Chunked →
    List String × Bool
  | 0, done, _ => (done.reverse, true)
  | fuel + 1, done, r =>
    match take enc bound size [] r with
    | none => (done.reverse, false)
    | some ([], _) => (done.reverse, true)
    | some (cs, r) => pieces enc size bound fuel (String.ofList cs :: done) r

/-- The pieces of some bytes; a negative size stands for one piece. -/
def ofBytes (enc : Encoding) (size : Int) (bs : List UInt8) : List String × Bool :=
  if size < 0 then
    match enc.decode? bs with
    | none => ([], false)
    | some "" => ([], true)
    | some s => ([Text.joinNewlines s], true)
  else pieces enc size.toNat (bs.length + 2) (bs.length + 2) [] { rest := bs }

end Chunked

/-- A file in pieces of `size` characters, as UTF-8 and if need be again as GBK. -/
def Disk.readChunks (d : Disk) (p : Path) (size : Int) : Except Fault (List String) :=
  match d.bytes p with
  | .error e => .error e
  | .ok bs =>
    match Chunked.ofBytes .utf8 size bs with
    | (given, true) => .ok given
    | (given, false) =>
      match Chunked.ofBytes .gbk size bs with
      | (more, true) => .ok (given ++ more)
      | (_, false) => .error .undecodable

end SourceAudit
