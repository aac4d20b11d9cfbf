/-
# Syntax trees of programs

`Tree.decorate` computes a new label for each node of a tree from its old label and its
decorated children, from the leaves up; an analysis of a program is such a decoration.

A parser hands over nodes with a kind, a range of bytes of the source, and sometimes the
name of the field that the node fills in its parent. Read against the source, a node is
a `Part`: it has the text of its range and the row on which it starts. The ranges need
not be sensible: a range may cut a character, be empty or run backwards.
-/
import SourceAudit.Text.Utf8

namespace SourceAudit

/-- A node with a label and children in order. -/
inductive Tree (α : Type) where
  | node (label : α) (children : List (Tree α))

namespace Tree

variable {α β : Type}

instance [Inhabited α] : Inhabited (Tree α) := ⟨.node default []⟩

def label : Tree α → α
  | .node a _ => a

def children : Tree α → List (Tree α)
  | .node _ cs => cs

@[simp] theorem label_node (a : α) (cs : List (Tree α)) : (node a cs).label = a := rfl

@[simp] theorem children_node (a : α) (cs : List (Tree α)) : (node a cs).children = cs := rfl

mutual

def map (f : α → β) : Tree α → Tree β
  | .node a cs => .node (f a) (mapAll f cs)

def mapAll (f : α → β) : List (Tree α) → List (Tree β)
  | [] => []
  | c :: cs => map f c :: mapAll f cs

end

theorem mapAll_eq_map (f : α → β) : ∀ cs, mapAll f cs = cs.map (map f)
  | [] => rfl
  | c :: cs => by rw [mapAll, mapAll_eq_map f cs, List.map_cons]

@[simp] theorem map_node (f : α → β) (a : α) (cs : List (Tree α)) :
    (node a cs).map f = node (f a) (cs.map (map f)) := by
  rw [map, mapAll_eq_map]

mutual

def decorate (f : α → List (Tree β) → β) : Tree α → Tree β
  | .node a cs => let parts := decorateAll f cs; .node (f a parts) parts

def decorateAll (f : α → List (Tree β) → β) : List (Tree α) → List (Tree β)
  | [] => []
  | c :: cs => decorate f c :: decorateAll f cs

end

theorem decorateAll_eq_map (f : α → List (Tree β) → β) : ∀ cs, decorateAll f cs = cs.map (decorate f)
  | [] => rfl
  | c :: cs => by rw [decorateAll, decorateAll_eq_map f cs, List.map_cons]

@[simp] theorem decorate_node (f : α → List (Tree β) → β) (a : α) (cs : List (Tree α)) :
    (node a cs).decorate f = node (f a (cs.map (decorate f))) (cs.map (decorate f)) := by
  rw [decorate, decorateAll_eq_map]

mutual

def preorder : Tree α → List (Tree α)
  | .node a cs => .node a cs :: preorderAll cs

def preorderAll : List (Tree α) → List (Tree α)
  | [] => []
  | c :: cs => preorder c ++ preorderAll cs

end

theorem preorderAll_eq_flatMap : ∀ cs : List (Tree α), preorderAll cs = cs.flatMap preorder
  | [] => rfl
  | c :: cs => by rw [preorderAll, preorderAll_eq_flatMap cs, List.flatMap_cons]

@[simp] theorem preorder_node (a : α) (cs : List (Tree α)) :
    (node a cs).preorder = node a cs :: cs.flatMap preorder := by
  rw [preorder, preorderAll_eq_flatMap]

end Tree

/-! ### Parts -/

/-- A node as the parser hands it over. -/
structure Range where
  kind : String
  start : Nat
  stop : Nat
  named : Bool
  field : Option String
deriving DecidableEq, Repr, Inhabited

abbrev Grammar := (language source : String) → Tree Range

/-- A node read against its source. -/
structure Part where
  kind : String
  start : Nat
  stop : Nat
  named : Bool
  field : Option String
  text : String
  row : Nat
deriving DecidableEq, Repr, Inhabited

namespace Syntax

def bytesOf (source : Array UInt8) (r : Range) : List UInt8 :=
  (source.extract r.start r.stop).toList

def rowOf (source : Array UInt8) (r : Range) : Nat :=
  (source.extract 0 r.start).foldl (fun n b => if b == 10 then n + 1 else n) 0

def readRange (source : Array UInt8) (r : Range) : Part :=
  ⟨r.kind, r.start, r.stop, r.named, r.field, Utf8.decode (bytesOf source r), rowOf source r⟩

def read (source : Array UInt8) (t : Tree Range) : Tree Part :=
  t.map (readRange source)

def unparsed (source : Array UInt8) : Tree Range :=
  .node ⟨"program", 0, source.size, true, none⟩ []

end Syntax

class HasPart (α : Type) where
  part : α → Part

instance : HasPart Part := ⟨id⟩

namespace Tree

variable {α : Type} [HasPart α]

def part (t : Tree α) : Part := HasPart.part t.label

def kind (t : Tree α) : String := t.part.kind

def text (t : Tree α) : String := t.part.text

def line (t : Tree α) : Nat := t.part.row + 1

def isNamed (t : Tree α) : Bool := t.part.named

def namedChildren (t : Tree α) : List (Tree α) :=
  t.children.filter (·.isNamed)

def field? (t : Tree α) (name : String) : Option (Tree α) :=
  t.children.find? (·.part.field == some name)

def childOfKind? (t : Tree α) (kind : String) : Option (Tree α) :=
  t.children.find? (·.kind == kind)

end Tree

end SourceAudit
