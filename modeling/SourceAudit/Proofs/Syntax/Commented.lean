/-
# Trees with comments put into them

A grammar lets a comment stand among the children of any node. `Commented place P t u`
says that `u` is `t` with comments put into it where `place` allows them, and that `P`
relates each node of `t` to the node it became. `Inserted` is the same for the children
of one node, and `Mixed` forgets where the comments may stand.

What the analysis reads off a node by kind or by field, it reads off the commented node
too; what it reads off by counting named children, only if the comments come after them
(`quietPlace`).
-/
import Mathlib.Data.List.Forall2
import Mathlib.Data.List.Nodup
import SourceAudit.Proofs.Syntax.Bare
import SourceAudit.Proofs.Taint.Limits

namespace SourceAudit

namespace Tree

variable {α : Type} [HasPart α]

/-- A comment: a named leaf without a text, in no field. -/
structure IsComment (t : Tree α) : Prop where
  kind : t.kind = "comment"
  named : t.isNamed = true
  field : t.part.field = none
  text : t.text = ""
  leaf : t.children = []

/-- Where comments may stand among the children of a node: after the first `after` of those that
`counts` accepts, or nowhere. -/
structure Place where
  counts : Part → Bool
  after : Option Nat

def Place.anywhere : Place := ⟨Part.named, some 0⟩

def Place.nowhere : Place := ⟨Part.named, none⟩

def Place.past (q : Place) (c : Tree α) : Place :=
  if q.counts c.part then { q with after := q.after.map (· - 1) } else q

section

variable (S : Tree α → Tree α → Prop)

/-- The second list is the first one, item by item related by `S`, with comments put into it where
the place allows them. -/
inductive Inserted : Place → List (Tree α) → List (Tree α) → Prop where
  | nil {q : Place} : Inserted q [] []
  | keep {q : Place} {c d : Tree α} {cs ds : List (Tree α)} : S c d → Inserted (q.past c) cs ds →
      Inserted q (c :: cs) (d :: ds)
  | comment {q : Place} {d : Tree α} {cs ds : List (Tree α)} : q.after = some 0 → IsComment d → S d d →
      Inserted q cs ds → Inserted q cs (d :: ds)

/-- The second list is the first one, item by item related by `S`, with comments put into it if that is
allowed. -/
inductive Mixed (allowed : Prop) : List (Tree α) → List (Tree α) → Prop where
  | nil : Mixed allowed [] []
  | keep {c d : Tree α} {cs ds : List (Tree α)} : S c d → Mixed allowed cs ds → Mixed allowed (c :: cs) (d :: ds)
  | comment {d : Tree α} {cs ds : List (Tree α)} : allowed → IsComment d → S d d → Mixed allowed cs ds →
      Mixed allowed cs (d :: ds)

end

/-- The second tree is the first one with comments put into it where `place` allows them; `P` relates
the nodes of the first to those they became. -/
inductive Commented (place : Part → Place) (P : Tree α → Tree α → Prop) : Tree α → Tree α → Prop where
  | node {a b : α} {cs ds : List (Tree α)} : HasPart.part a = HasPart.part b →
      P (node a cs) (node b ds) → Inserted (Commented place P) (place (HasPart.part a)) cs ds →
      Commented place P (node a cs) (node b ds)

/-! ### Lists with comments -/

section

variable {S : Tree α → Tree α → Prop} {cs ds : List (Tree α)} {allowed : Prop}

theorem Place.past_nowhere {q : Place} (h : q.after = none) (c : Tree α) : (q.past c).after = none := by
  unfold Place.past
  split
  · simp [h]
  · exact h

theorem Inserted.mixed {q : Place} (hq : q.after ≠ none → allowed) (h : Inserted S q cs ds) : Mixed S allowed cs ds := by
  induction h with
  | nil => exact .nil
  | keep hs _ ih => exact .keep hs (ih fun hpast => hq fun hnone => hpast (Place.past_nowhere hnone _))
  | comment h0 hd hs _ ih => exact .comment (hq (by simp [h0])) hd hs (ih hq)

theorem Inserted.map {β : Type} {f g : β → Tree α} {xs : List β} (h : ∀ x ∈ xs, S (f x) (g x)) (q : Place) :
    Inserted S q (xs.map f) (xs.map g) := by
  induction xs generalizing q with
  | nil => exact .nil
  | cons x xs ih =>
    exact .keep (h x List.mem_cons_self) (ih (fun y hy => h y (List.mem_cons_of_mem _ hy)) _)

theorem Inserted.forall₂ {q : Place} (hq : q.after = none) (h : Inserted S q cs ds) : List.Forall₂ S cs ds := by
  induction h with
  | nil => exact .nil
  | comment h0 => simp [hq] at h0
  | keep hs _ ih => exact .cons hs (ih (Place.past_nowhere hq _))

variable {p : Tree α → Bool} (hp : ∀ c d, S c d → p c = p d)

include hp

/-- The first child of some sort is still the first one, if those that count are of the sort. -/
theorem Inserted.find? {q : Place} (hc : q.after = none ∨ ∀ c : Tree α, q.counts c.part = true → p c = true)
    (hk : q.after ≠ some 0) (h : Inserted S q cs ds) : Option.Rel S (cs.find? p) (ds.find? p) := by
  induction h with
  | nil => exact .none
  | comment h0 => exact absurd h0 hk
  | @keep q c d _ _ hs _ ih =>
    cases hpc : p c with
    | true =>
      rw [List.find?_cons_of_pos hpc, List.find?_cons_of_pos (by rw [← hp c d hs]; exact hpc)]
      exact .some hs
    | false =>
      rw [List.find?_cons_of_neg (by simp [hpc]), List.find?_cons_of_neg (by rw [← hp c d hs]; simp [hpc])]
      rcases hc with hq | hc
      · have hq := Place.past_nowhere hq c
        exact ih (Or.inl hq) (by simp [hq])
      · have hcount : ¬ q.counts c.part = true := fun h => by simp [hc c h] at hpc
        rw [Place.past, if_neg hcount] at ih
        exact ih (Or.inr hc) hk

theorem Inserted.getElem? {q : Place} (hc : ∀ c : Tree α, p c = q.counts c.part) {i : Nat}
    (hi : ∀ k, q.after = some k → i < k) (h : Inserted S q cs ds) :
    Option.Rel S (cs.filter p)[i]? (ds.filter p)[i]? := by
  induction h generalizing i with
  | nil => exact .none
  | comment h0 => exact absurd (hi 0 h0) (Nat.not_lt_zero i)
  | @keep q c d _ _ hs _ ih =>
    rw [Place.past, ← hc c] at ih
    rw [List.filter_cons, List.filter_cons, ← hp c d hs]
    cases hpc : p c with
    | false =>
      rw [hpc] at ih
      exact ih hc hi
    | true =>
      rw [hpc] at ih
      cases i with
      | zero => exact .some hs
      | succ i =>
        refine ih hc fun k hk => ?_
        obtain ⟨l, hl, rfl⟩ := Option.map_eq_some_iff.mp hk
        have := hi l hl
        omega

theorem Mixed.filter (hc : ∀ d, IsComment d → p d = true) (h : Mixed S allowed cs ds) :
    Mixed S allowed (cs.filter p) (ds.filter p) := by
  induction h with
  | nil => exact .nil
  | comment hok hd hs _ ih =>
    rw [List.filter_cons_of_pos (hc _ hd)]
    exact .comment hok hd hs ih
  | keep hs _ ih =>
    rw [List.filter_cons, List.filter_cons, ← hp _ _ hs]
    split
    · exact .keep hs ih
    · exact ih

variable (hc : ∀ d, IsComment d → p d = false)

include hc

theorem Mixed.filter_forall₂ (h : Mixed S allowed cs ds) : List.Forall₂ S (cs.filter p) (ds.filter p) := by
  induction h with
  | nil => exact .nil
  | comment _ hd _ _ ih =>
    rw [List.filter_cons_of_neg (by simp [hc _ hd])]
    exact ih
  | keep hs _ ih =>
    rw [List.filter_cons, List.filter_cons, ← hp _ _ hs]
    split
    · exact .cons hs ih
    · exact ih

theorem Mixed.find? (h : Mixed S allowed cs ds) : Option.Rel S (cs.find? p) (ds.find? p) := by
  induction h with
  | nil => exact .none
  | comment _ hd _ _ ih =>
    rw [List.find?_cons_of_neg (by simp [hc _ hd])]
    exact ih
  | keep hs _ ih =>
    rw [List.find?_cons, List.find?_cons, ← hp _ _ hs]
    split
    · exact .some hs
    · exact ih

theorem Mixed.eraseP (h : Mixed S allowed cs ds) : Mixed S allowed (cs.eraseP p) (ds.eraseP p) := by
  induction h with
  | nil => exact .nil
  | comment hok hd hs _ ih =>
    rw [List.eraseP_cons_of_neg (by simp [hc _ hd])]
    exact .comment hok hd hs ih
  | keep hs hrest ih =>
    rw [List.eraseP_cons, List.eraseP_cons, ← hp _ _ hs]
    cases p _ with
    | true => exact hrest
    | false => exact .keep hs ih

end

/-! ### Nodes with comments below them -/

/-- The second node is the first one with comments put into what is below it. -/
structure Below (place : Part → Place) (P : Tree α → Tree α → Prop) (t u : Tree α) : Prop where
  part : t.part = u.part
  inserted : Inserted (Commented place P) (place t.part) t.children u.children

variable {place : Part → Place} {P : Tree α → Tree α → Prop} {t u : Tree α}

theorem Commented.toBelow (h : Commented place P t u) : Below place P t u := by
  cases h with
  | node hpart _ hcs => exact ⟨hpart, hcs⟩

theorem Commented.related (h : Commented place P t u) : P t u := by
  cases h with
  | node _ hP => exact hP

namespace Below

variable (h : Below place P t u)

include h

theorem kind : t.kind = u.kind := congrArg Part.kind h.part

theorem text : t.text = u.text := congrArg Part.text h.part

theorem isNamed : t.isNamed = u.isNamed := congrArg Part.named h.part

end Below

theorem Commented.refl (place : Part → Place) {P : Tree α → Tree α → Prop} (t : Tree α)
    (h : ∀ n ∈ t.preorder, P n n) : Commented place P t t := by
  induction t using ind with
  | h a cs ih =>
    refine .node rfl (h _ (mem_preorder_self _)) ?_
    have hcs : ∀ c ∈ cs, Commented place P c c := fun c hc =>
      ih c hc fun n hn => h n (mem_preorder_node.mpr (Or.inr ⟨c, hc, hn⟩))
    have hmap := Inserted.map (f := id) (g := id) hcs (place (HasPart.part a))
    rwa [List.map_id] at hmap

end Tree

namespace Taint

open Tree

variable {α : Type} [HasPart α]

/-! ### Where comments change nothing -/

/-- How many of its first named children the analysis takes from a node of some kind by position. -/
def operandCount (kind : String) : Nat :=
  if kind = "binary_expression" then 2
  else if kind = "conditional_expression" then 3
  else if kind = "argument" ∨ kind = "member_access_expression" ∨ includeKinds.contains kind = true then 1
  else 0

/-- Where the analysis does not notice a comment: not among arguments or cases, in a subscript only
behind what is subscripted, and elsewhere behind the operands. -/
def quietPlace (p : Part) : Place :=
  if p.field = some "arguments" ∨ p.kind = "switch_block" then .nowhere
  else if p.kind = "subscript_expression" then ⟨fun c => c.named && c.kind != "string", some 1⟩
  else ⟨Part.named, some (operandCount p.kind)⟩

/-- The same, if comments are allowed at all. -/
def quietIf : Bool → Part → Place
  | true, p => quietPlace p
  | false, _ => .nowhere

variable {ok : Bool}

theorem of_quietIf {p : Part} (h : (quietIf ok p).after ≠ none) : ok = true := by
  cases ok with
  | true => rfl
  | false => exact absurd rfl h

theorem named_of_quietIf {p c : Part} (h : (quietIf ok p).counts c = true) : c.named = true := by
  unfold quietIf quietPlace at h
  repeat' split at h
  · exact h
  · exact (Bool.and_eq_true _ _ ▸ h).1
  · exact h
  · exact h

theorem quietIf_after_ne {p : Part} (h : p.kind = "subscript_expression" ∨ 0 < operandCount p.kind) :
    (quietIf ok p).after ≠ some 0 := by
  unfold quietIf quietPlace
  repeat' split
  · simp [Place.nowhere]
  · simp
  · rename_i hk
    simpa using Nat.pos_iff_ne_zero.mp (h.resolve_left hk)
  · simp [Place.nowhere]

theorem quietIf_of_operands {p : Part} (h : 0 < operandCount p.kind) :
    quietIf ok p = .nowhere ∨ quietIf ok p = ⟨Part.named, some (operandCount p.kind)⟩ := by
  unfold quietIf quietPlace
  repeat' split
  · exact Or.inl rfl
  · rename_i hs
    rw [hs] at h
    exact absurd h (by decide)
  · exact Or.inr rfl
  · exact Or.inl rfl

theorem quietIf_nowhere {p : Part} (h : p.field = some "arguments" ∨ p.kind = "switch_block") :
    (quietIf ok p).after = none := by
  unfold quietIf quietPlace
  split
  · rw [if_pos h]
    rfl
  · rfl

/-! ### What is read off a commented node -/

section

variable {ok : Bool} {P : Tree α → Tree α → Prop} {t u : Tree α}

theorem functionName?_rel {a b : Option (Tree α)} (h : Option.Rel (Commented (quietIf ok) P) a b) :
    functionName? a = functionName? b := by
  cases h with
  | none => rfl
  | some h => simp only [functionName?, h.toBelow.kind, h.toBelow.text]

theorem variableName?_rel {a b : Option (Tree α)} (h : Option.Rel (Commented (quietIf ok) P) a b) :
    variableName? a = variableName? b := by
  cases h with
  | none => rfl
  | some h => simp only [variableName?, h.toBelow.kind, h.toBelow.text]

theorem accessKey?_rel {a b : Option (Tree α)} (h : Option.Rel (Commented (quietIf ok) P) a b) :
    accessKey? a = accessKey? b := by
  cases h with
  | none => rfl
  | some h => simp only [accessKey?, h.toBelow.kind, h.toBelow.text]

theorem map_text_rel {ts us : List (Tree α)} (h : List.Forall₂ (Commented (quietIf ok) P) ts us) :
    ts.map (·.text) = us.map (·.text) := by
  induction h with
  | nil => rfl
  | cons h _ ih => rw [List.map_cons, List.map_cons, h.toBelow.text, ih]

end

end Taint

namespace Tree.Below

open Taint

variable {α : Type} [HasPart α] {ok : Bool} {P : Tree α → Tree α → Prop} {t u : Tree α} (h : Below (quietIf ok) P t u)

include h

theorem mixed : Mixed (Commented (quietIf ok) P) (ok = true) t.children u.children := h.inserted.mixed of_quietIf

theorem named : Mixed (Commented (quietIf ok) P) (ok = true) t.namedChildren u.namedChildren :=
  h.mixed.filter (fun _ _ hcd => hcd.toBelow.isNamed) fun _ hd => hd.named

theorem field? (name : String) : Option.Rel (Commented (quietIf ok) P) (t.field? name) (u.field? name) :=
  h.mixed.find? (fun _ _ hcd => by rw [hcd.toBelow.part]) fun _ hd => by simp [hd.field]

theorem childOfKind? {k : String} (hk : k ≠ "comment") :
    Option.Rel (Commented (quietIf ok) P) (t.childOfKind? k) (u.childOfKind? k) :=
  h.mixed.find? (fun _ _ hcd => by rw [hcd.toBelow.kind]) fun _ hd => by simp [hd.kind, hk.symm]

theorem isString : Taint.isString t = Taint.isString u := by
  rw [Taint.isString, Taint.isString, h.kind]

theorem stringContent : Taint.stringContent t = Taint.stringContent u := by
  have hparts := h.mixed.filter_forall₂ (p := (·.kind == "string_content")) (fun _ _ hcd => by rw [hcd.toBelow.kind])
    fun _ hd => by simp [hd.kind]
  rw [Taint.stringContent, Taint.stringContent, map_text_rel hparts]

theorem methodName? : Taint.methodName? t = Taint.methodName? u := by
  have hname := h.childOfKind? (k := "name") (by decide)
  rw [Taint.methodName?, Taint.methodName?]
  generalize t.childOfKind? "name" = a at hname
  generalize u.childOfKind? "name" = b at hname
  cases hname with
  | none => rfl
  | some hn => simp [hn.toBelow.text]

theorem isValidatorCall : Taint.isValidatorCall t = Taint.isValidatorCall u := by
  rw [Taint.isValidatorCall, Taint.isValidatorCall, h.kind, h.methodName?]

theorem head? (hk : t.kind = "subscript_expression" ∨ 0 < operandCount t.kind) :
    Option.Rel (Commented (quietIf ok) P) t.namedChildren.head? u.namedChildren.head? := by
  rw [namedChildren, namedChildren, List.head?_filter, List.head?_filter]
  exact h.inserted.find? (fun _ _ hcd => hcd.toBelow.isNamed) (Or.inr fun _ hc => named_of_quietIf hc)
    (quietIf_after_ne hk)

theorem operand {i : Nat} (hi : i < operandCount t.kind) :
    Option.Rel (Commented (quietIf ok) P) t.namedChildren[i]? u.namedChildren[i]? := by
  have hcs := h.inserted
  rcases quietIf_of_operands (p := t.part) (Nat.zero_lt_of_lt hi) with hq | hq
  · rw [hq] at hcs
    exact hcs.getElem? (fun _ _ hcd => hcd.toBelow.isNamed) (fun _ => rfl) fun k hk => by simp [Place.nowhere] at hk
  · rw [hq] at hcs
    exact hcs.getElem? (fun _ _ hcd => hcd.toBelow.isNamed) (fun _ => rfl) fun k hk => Option.some.inj hk ▸ hi

theorem subscriptBase? (hk : t.kind = "subscript_expression") :
    Option.Rel (Commented (quietIf ok) P) (Taint.subscriptBase? t) (Taint.subscriptBase? u) := by
  refine h.inserted.find? (fun _ _ hcd => by rw [hcd.toBelow.isNamed, hcd.toBelow.kind]) ?_ (quietIf_after_ne (Or.inl hk))
  unfold quietIf quietPlace
  repeat' split
  · exact Or.inl rfl
  · exact Or.inr fun _ hc => hc
  · exact absurd hk ‹_›
  · exact Or.inl rfl

theorem arguments : List.Forall₂ (Commented (quietIf ok) P) (Taint.arguments t) (Taint.arguments u) := by
  have hlist := h.field? "arguments"
  have hfield : ∀ l ∈ t.field? "arguments", l.part.field = some "arguments" := fun l hl => by
    simpa using List.find?_some hl
  unfold Taint.arguments
  generalize t.field? "arguments" = a at hlist hfield
  generalize u.field? "arguments" = b at hlist
  cases hlist with
  | none => exact .nil
  | @some l m hlm =>
    have hcs := hlm.toBelow.inserted
    refine List.rel_filterMap (fun c d hcd => ?_) (hcs.forall₂ (quietIf_nowhere (Or.inl (hfield l rfl))))
    have hself : Option.Rel (Commented (quietIf ok) P) (if c.isNamed then some c else none)
        (if d.isNamed then some d else none) := by
      rw [hcd.toBelow.isNamed]
      split
      · exact .some hcd
      · exact .none
    rw [hcd.toBelow.kind]
    cases hk : d.kind == "argument" with
    | false => exact hself
    | true =>
      -- what is passed stands first in its node
      have hkind : c.kind = "argument" := hcd.toBelow.kind.trans (eq_of_beq hk)
      have hfirst := hcd.toBelow.head? (Or.inr (by rw [hkind]; decide))
      generalize c.namedChildren = xs at hfirst
      generalize d.namedChildren = ys at hfirst
      cases xs <;> cases ys <;> cases hfirst
      · exact hself
      · rename_i hxy
        exact .some hxy

omit h in
theorem literal? {t u : Tree α} (h : Below (quietIf ok) P t u) : Taint.literal? t = Taint.literal? u := by
  induction t using ind generalizing u with
  | h a cs ih =>
    rw [literal?_eq, literal?_eq u, h.isString, h.stringContent, h.kind]
    cases hk : u.kind == "argument" with
    | false => rfl
    | true =>
      have hkind : (Tree.node a cs).kind = "argument" := h.kind.trans (eq_of_beq hk)
      have hfirst := h.head? (Or.inr (by rw [hkind]; decide))
      rw [namedChildren, namedChildren, List.head?_filter, List.head?_filter] at hfirst
      congr 2
      generalize hx : (Tree.node a cs).children.find? (·.isNamed) = x at hfirst
      generalize u.children.find? (·.isNamed) = y at hfirst
      cases hfirst with
      | none => rfl
      | some hcd => exact ih _ (List.mem_of_find?_eq_some hx) hcd.toBelow

theorem subscriptKey? : Taint.subscriptKey? t = Taint.subscriptKey? u := by
  have hkeys := h.mixed.filter_forall₂ (p := fun c => c.isNamed && Taint.isString c)
    (fun _ _ hcd => by rw [hcd.toBelow.isNamed, hcd.toBelow.isString])
    fun d hd => by rw [Taint.isString, hd.kind, Bool.and_eq_false_iff]; exact Or.inr (by decide)
  unfold Taint.subscriptKey?
  generalize t.children.filter _ = xs at hkeys
  generalize u.children.filter _ = ys at hkeys
  rw [List.getLast?_eq_head?_reverse, List.getLast?_eq_head?_reverse]
  have hlast := List.rel_reverse hkeys
  generalize xs.reverse = xs at hlast
  generalize ys.reverse = ys at hlast
  cases hlast with
  | nil => rfl
  | cons hcd _ => exact hcd.toBelow.literal?

theorem hasBase (hk : t.kind = "subscript_expression") (p : String → Bool) :
    Taint.hasBase t p = Taint.hasBase u p := by
  have hbase := h.subscriptBase? hk
  rw [Taint.hasBase, Taint.hasBase]
  generalize Taint.subscriptBase? t = x at hbase
  generalize Taint.subscriptBase? u = y at hbase
  cases hbase with
  | none => rfl
  | some hcd => simp only [Option.any_some, hcd.toBelow.kind, hcd.toBelow.text]

end Tree.Below

namespace Taint

open Tree

variable {α : Type} [HasPart α] {ok : Bool} {P : Tree α → Tree α → Prop}

/-! ### What arguments say -/

section

variable {ts us : List (Tree α)} (h : List.Forall₂ (Commented (quietIf ok) P) ts us)

include h

theorem readsBody_rel : readsBody ts = readsBody us := by
  unfold readsBody
  induction h with
  | nil => rfl
  | cons h _ ih => simp only [List.any_cons, literalText, h.toBelow.literal?] at ih ⊢; rw [ih]

theorem isParameterized_rel : isParameterized ts = isParameterized us := by
  cases h with
  | nil => rfl
  | cons h hrest =>
    cases hrest with
    | nil => rfl
    | cons => simp only [isParameterized, literalText, h.toBelow.literal?]

theorem evaluatesReplacement_rel : evaluatesReplacement ts = evaluatesReplacement us := by
  cases h with
  | nil => rfl
  | cons h => simp only [evaluatesReplacement, literalText, h.toBelow.literal?]

theorem decodedLiterals_rel (name : String) :
    ts.flatMap (decodedLiterals name) = us.flatMap (decodedLiterals name) := by
  induction h with
  | nil => rfl
  | cons h _ ih => simp only [List.flatMap_cons, decodedLiterals, h.toBelow.literal?, ih]

end

/-! ### What a condition checks -/

theorem unite_nil_left {b : List String} (hb : b.Nodup) : unite [] b = b := by
  suffices h : ∀ a : List String, (a ++ b).Nodup → unite a b = a ++ b from h [] hb
  intro a hab
  unfold unite
  clear hb
  induction b generalizing a with
  | nil => simp
  | cons x b ih =>
    have hx : x ∉ a := fun hx => (List.nodup_append.mp hab).2.2 x hx x List.mem_cons_self rfl
    rw [List.foldl_cons, if_neg (by simpa using hx), ih (a ++ [x]) (by simpa using hab), List.append_assoc]
    rfl

theorem nodup_validatedInputsAll : ∀ {cs : List (Tree α)}, (∀ c ∈ cs, (validatedInputs c).Nodup) →
    (validatedInputsAll cs).Nodup
  | [], _ => List.nodup_nil
  | c :: cs, h => by
    rw [validatedInputsAll]
    split
    · exact nodup_unite (h c List.mem_cons_self) _
    · exact nodup_validatedInputsAll fun d hd => h d (List.mem_cons_of_mem _ hd)

theorem nodup_validatedInputs (t : Tree α) : (validatedInputs t).Nodup := by
  induction t using ind with
  | h a cs ih =>
    rw [validatedInputs]
    split
    · exact nodup_unite List.nodup_nil _
    · exact nodup_validatedInputsAll ih

theorem validatedInputsAll_mixed {allowed : Prop} {cs ds : List (Tree α)}
    (h : Mixed (Commented (quietIf ok) P) allowed cs ds)
    (heq : ∀ c ∈ cs, ∀ d, Commented (quietIf ok) P c d → validatedInputs c = validatedInputs d) :
    validatedInputsAll cs = validatedInputsAll ds := by
  induction h with
  | nil => rfl
  | keep hcd _ ih =>
    rw [validatedInputsAll, validatedInputsAll, hcd.toBelow.isNamed, heq _ List.mem_cons_self _ hcd,
      ih fun c hc => heq c (List.mem_cons_of_mem _ hc)]
  | @comment d cs ds _ hd _ _ ih =>
    have hnone : validatedInputs d = [] := by
      obtain ⟨a, xs⟩ := d
      obtain rfl : xs = [] := hd.leaf
      have hcall : isValidatorCall (Tree.node a []) = false := by
        rw [isValidatorCall, hd.kind]
        rfl
      rw [validatedInputs, hcall]
      rfl
    rw [validatedInputsAll, hd.named, if_pos rfl, hnone, ih heq,
      unite_nil_left (nodup_validatedInputsAll fun c _ => nodup_validatedInputs c)]

end Taint

namespace Tree

open Taint

variable {α : Type} [HasPart α] {ok : Bool} {P : Tree α → Tree α → Prop}

theorem Below.validatedInputs {t u : Tree α} (h : Below (quietIf ok) P t u) :
    Taint.validatedInputs t = Taint.validatedInputs u := by
  induction t using ind generalizing u with
  | h a cs ih =>
    obtain ⟨b, ds⟩ := u
    have hall : validatedInputsAll cs = validatedInputsAll ds :=
      validatedInputsAll_mixed h.mixed fun c hc d hcd => ih c hc hcd.toBelow
    have hmap : (Taint.arguments (Tree.node a cs)).map (fun x => Text.removeBlanks x.text) =
        (Taint.arguments (Tree.node b ds)).map fun x => Text.removeBlanks x.text := by
      have htexts := congrArg (List.map Text.removeBlanks) (map_text_rel h.arguments)
      simpa only [List.map_map, Function.comp_def] using htexts
    rw [Taint.validatedInputs, Taint.validatedInputs, h.isValidatorCall, hall, hmap]

end Tree

end SourceAudit
