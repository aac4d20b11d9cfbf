/-
# Structured values

Rule files, findings, settings and cached analyses are documents whose fields
may hold anything, so they are carried as values. An object keeps its fields in
the order in which they were first set.
-/
import SourceAudit.Number.Double

namespace SourceAudit

inductive Value where
  | null
  | bool (b : Bool)
  | int (i : Int)
  | real (d : Double)
  | str (s : String)
  | list (items : List Value)
  | object (fields : List (String × Value))
deriving Inhabited

abbrev Fields := List (String × Value)

namespace Fields

def get? (fields : Fields) (name : String) : Option Value :=
  (fields.find? (·.1 == name)).map (·.2)

/-- Sets a field, in its place if there is one of that name and at the end otherwise. -/
def set (name : String) (v : Value) : Fields → Fields
  | [] => [(name, v)]
  | (n, w) :: rest => if n == name then (n, v) :: rest else (n, w) :: set name v rest

def erase (fields : Fields) (name : String) : Fields :=
  fields.filter (·.1 != name)

/-- The fields in the order of their first mention, each with its last value. -/
def ofPairs (pairs : List (String × Value)) : Fields :=
  pairs.foldl (fun fs p => set p.1 p.2 fs) []

end Fields

namespace Value

/-- Empty texts, lists and objects, zeros, `false` and `null` count as nothing. -/
def truthy : Value → Bool
  | .null => false
  | .bool b => b
  | .int i => i != 0
  | .real d => !d.isZero
  | .str s => s != ""
  | .list items => !items.isEmpty
  | .object fields => !fields.isEmpty

def field? (v : Value) (name : String) : Option Value :=
  match v with
  | .object fields => Fields.get? fields name
  | _ => none

def field (v : Value) (name : String) : Value :=
  (v.field? name).getD .null

def orElse (v other : Value) : Value :=
  if v.truthy then v else other

def isObject : Value → Bool
  | .object _ => true
  | _ => false

def isList : Value → Bool
  | .list _ => true
  | _ => false

def fields : Value → Fields
  | .object fs => fs
  | _ => []

def items : Value → List Value
  | .list xs => xs
  | _ => []

def number? : Value → Option Double
  | .bool b => some (.ofInt (if b then 1 else 0))
  | .int i => some (.ofInt i)
  | .real d => some d
  | _ => none

/-- The exact value of a number or a truth value, if it is finite. -/
def rational? : Value → Option Rat
  | .bool b => some (if b then 1 else 0)
  | .int i => some i
  | .real d => d.toRat?
  | _ => none

def infinity? : Value → Option Bool
  | .real (.infinite n) => some n
  | _ => none

mutual

/-- Equality of values. Numbers and truth values are equal by their value, whatever their kind; the
order of an object's fields does not matter. -/
def same : Value → Value → Bool
  | .null, .null => true
  | .str s, .str t => s == t
  | .list xs, .list ys => sameLists xs ys
  | .object fs, .object gs => fs.length == gs.length && sameFields fs gs
  | v, w =>
    match v.rational?, w.rational? with
    | some p, some q => p == q
    | none, none =>
      match v.infinity?, w.infinity? with
      | some n, some m => n == m
      | _, _ => false
    | _, _ => false

def sameLists : List Value → List Value → Bool
  | [], [] => true
  | x :: xs, y :: ys => same x y && sameLists xs ys
  | _, _ => false

/-- Each field on the left has an equal one on the right. -/
def sameFields : List (String × Value) → List (String × Value) → Bool
  | [], _ => true
  | (n, v) :: fs, gs =>
    (match gs.find? (·.1 == n) with
      | some (_, w) => same v w
      | none => false) && sameFields fs gs

end

def isKey : Value → Bool
  | .list _ | .object _ => false
  | _ => true

def string? : Value → Option String
  | .str s => some s
  | _ => none

/-- What a walk over a value meets: the members of a list, the names of an object, the characters
of a text; numbers, truth values and null have none. -/
def members? : Value → Option (List Value)
  | .list xs => some xs
  | .object fs => some (fs.map fun f => .str f.1)
  | .str s => some (s.toList.map fun c => .str (String.ofList [c]))
  | _ => none

def ofStrings (xs : List String) : Value :=
  .list (xs.map .str)

end Value

end SourceAudit
