/-
# Trees without their decoration

Induction over a tree, the nodes of a tree, and what a decorated tree keeps of the tree
it was made of: `bare` forgets all of a label but its part. The questions of
`Taint.Shape` are about parts only, so a node and its bare form answer them alike. The
acts of a node are the rules for its `surface`.

A variable goes by its text, an entry of an array by its text without white space. Of
the names of all nodes (`mentionedNames`), `readNames` are the ones that the analysis
may look up; strings and calls look at their parts in more ways than one, so there every
mention counts. `assignedNames` are the names that an assignment may bind.
-/
import Mathlib.Data.List.Basic
import SourceAudit.Taint.Meaning

namespace SourceAudit

namespace Tree

variable {α β : Type}

mutual

theorem ind {P : Tree α → Prop} (h : ∀ a cs, (∀ c ∈ cs, P c) → P (.node a cs)) : ∀ t, P t
  | .node a cs => h a cs (indAll h cs)

theorem indAll {P : Tree α → Prop} (h : ∀ a cs, (∀ c ∈ cs, P c) → P (.node a cs)) :
    ∀ cs : List (Tree α), ∀ c ∈ cs, P c
  | [], _, hc => by simp at hc
  | d :: ds, c, hc => (List.mem_cons.mp hc).elim (fun e => e ▸ ind h d) (indAll h ds c)

end

/-! ### The nodes of a tree -/

theorem mem_preorder_self (t : Tree α) : t ∈ t.preorder := by
  cases t
  rw [preorder_node]
  exact List.mem_cons_self

theorem mem_preorder_node {d : Tree α} {a : α} {cs : List (Tree α)} :
    d ∈ (node a cs).preorder ↔ d = node a cs ∨ ∃ c ∈ cs, d ∈ c.preorder := by
  rw [preorder_node, List.mem_cons, List.mem_flatMap]

theorem mem_preorder_of_mem_children {c t : Tree α} (h : c ∈ t.children) : c ∈ t.preorder := by
  cases t
  exact mem_preorder_node.mpr (Or.inr ⟨c, h, mem_preorder_self c⟩)

theorem mem_preorder_trans {c d e : Tree α} (hd : d ∈ c.preorder) (he : e ∈ d.preorder) : e ∈ c.preorder := by
  induction c using ind with
  | h a cs ih =>
    rcases mem_preorder_node.mp hd with rfl | ⟨x, hx, hd⟩
    · exact he
    · exact mem_preorder_node.mpr (Or.inr ⟨x, hx, ih x hx hd⟩)

/-! ### Small programs -/

/-- A named node with a text, in no field of its parent. -/
def plain (kind text : String) (cs : List (Tree Part)) : Tree Part :=
  .node ⟨kind, 0, 0, true, none, text, 0⟩ cs

/-- A named node with a text that fills a field of its parent. -/
def filling (field kind text : String) (cs : List (Tree Part)) : Tree Part :=
  .node ⟨kind, 0, 0, true, some field, text, 0⟩ cs

def sign (s : String) : Tree Part :=
  .node ⟨s, 0, 0, false, none, s, 0⟩ []

/-- An entry of a request array, `$_GET['key']`. -/
def requestEntry (key : String) : Tree Part :=
  plain "subscript_expression" ("$_GET['" ++ key ++ "']") [
    plain "variable_name" "$_GET" [], plain "string" ("'" ++ key ++ "'") [plain "string_content" key []]]

/-! ### Bare trees -/

section

variable [HasPart α] [HasPart β]

def bare (t : Tree α) : Tree Part := t.map HasPart.part

theorem bare_node (a : α) (cs : List (Tree α)) : (node a cs).bare = node (HasPart.part a) (cs.map bare) := by
  rw [bare, map_node]
  rfl

@[simp] theorem part_bare (t : Tree α) : t.bare.part = t.part := by
  cases t
  rw [bare_node]
  rfl

@[simp] theorem kind_bare (t : Tree α) : t.bare.kind = t.kind := by simp [kind]

@[simp] theorem text_bare (t : Tree α) : t.bare.text = t.text := by simp [text]

@[simp] theorem line_bare (t : Tree α) : t.bare.line = t.line := by simp [line]

@[simp] theorem isNamed_bare (t : Tree α) : t.bare.isNamed = t.isNamed := by simp [isNamed]

@[simp] theorem children_bare (t : Tree α) : t.bare.children = t.children.map bare := by
  cases t
  rw [bare_node]
  rfl

theorem preorder_bare (t : Tree α) : t.bare.preorder = t.preorder.map bare := by
  induction t using ind with
  | h a cs ih =>
    rw [bare_node, preorder_node, preorder_node, List.map_cons, bare_node, List.flatMap_map,
      List.map_flatMap]
    congr 1
    exact List.flatMap_congr ih

theorem bare_mem_preorder {d t : Tree α} (h : d ∈ t.preorder) : d.bare ∈ t.bare.preorder := by
  rw [preorder_bare]
  exact List.mem_map_of_mem h

@[simp] theorem namedChildren_bare (t : Tree α) : t.bare.namedChildren = t.namedChildren.map bare := by
  simp [namedChildren, List.filter_map, Function.comp_def]

@[simp] theorem field?_bare (t : Tree α) (name : String) : t.bare.field? name = (t.field? name).map bare := by
  simp [field?, List.find?_map, Function.comp_def]

@[simp] theorem childOfKind?_bare (t : Tree α) (k : String) :
    t.bare.childOfKind? k = (t.childOfKind? k).map bare := by
  simp [childOfKind?, List.find?_map, Function.comp_def]

end

end Tree

namespace Taint

open Tree

variable {α : Type} [HasPart α]

/-! ### The shape of a bare node -/

@[simp] theorem isString_bare (t : Tree α) : isString t.bare = isString t := by simp [isString]

@[simp] theorem functionName?_bare (f : Option (Tree α)) : functionName? (f.map bare) = functionName? f := by
  cases f <;> simp [functionName?]

@[simp] theorem variableName?_bare (f : Option (Tree α)) : variableName? (f.map bare) = variableName? f := by
  cases f <;> simp [variableName?]

@[simp] theorem accessKey?_bare (f : Option (Tree α)) : accessKey? (f.map bare) = accessKey? f := by
  cases f <;> simp [accessKey?]

@[simp] theorem methodName?_bare (t : Tree α) : methodName? t.bare = methodName? t := by
  simp [methodName?, Function.comp_def]

@[simp] theorem subscriptBase?_bare (t : Tree α) : subscriptBase? t.bare = (subscriptBase? t).map bare := by
  simp [subscriptBase?, List.find?_map, Function.comp_def]

@[simp] theorem hasBase_bare (t : Tree α) (p : String → Bool) : hasBase t.bare p = hasBase t p := by
  rw [hasBase, hasBase, subscriptBase?_bare]
  cases subscriptBase? t <;> simp

@[simp] theorem readsRequest_bare (t : Tree α) (method : String) :
    readsRequest t.bare method = readsRequest t method := by
  simp [readsRequest]

theorem stringContent_bare (t : Tree α) : stringContent t.bare = stringContent t := by
  simp [stringContent, List.filter_map, Function.comp_def]

theorem firstLiteral?_eq (cs : List (Tree α)) : firstLiteral? cs = (cs.find? (·.isNamed)).bind literal? := by
  induction cs with
  | nil => rfl
  | cons c cs ih =>
    rw [firstLiteral?, List.find?_cons]
    cases hc : c.isNamed
    · simpa using ih
    · simp

theorem literal?_eq (t : Tree α) : literal? t =
    if isString t then some (stringContent t)
    else if t.kind == "argument" then (t.children.find? (·.isNamed)).bind literal?
    else none := by
  cases t
  rw [literal?, firstLiteral?_eq]
  rfl

@[simp] theorem literal?_bare (t : Tree α) : literal? t.bare = literal? t := by
  induction t using ind with
  | h a cs ih =>
    rw [literal?_eq, literal?_eq (node a cs), isString_bare, stringContent_bare, kind_bare, children_bare,
      List.find?_map]
    congr 2
    simp only [Function.comp_def, isNamed_bare, children_node]
    cases hf : cs.find? (·.isNamed) with
    | none => rfl
    | some c => exact ih c (List.mem_of_find?_eq_some hf)

@[simp] theorem literalText_bare (t : Tree α) : literalText t.bare = literalText t := by simp [literalText]

@[simp] theorem arguments_bare (t : Tree α) : arguments t.bare = (arguments t).map bare := by
  rw [arguments, arguments, field?_bare]
  cases t.field? "arguments" with
  | none => rfl
  | some list =>
    simp only [Option.map_some, children_bare, List.filterMap_map, List.map_filterMap]
    apply List.filterMap_congr
    intro c _
    simp only [Function.comp_apply, kind_bare, namedChildren_bare, isNamed_bare]
    cases c.kind == "argument" <;> rcases c.namedChildren with _ | ⟨x, xs⟩ <;> cases c.isNamed <;> rfl

@[simp] theorem readsBody_bare (args : List (Tree α)) : readsBody (args.map bare) = readsBody args := by
  simp [readsBody, Function.comp_def]

@[simp] theorem isValidatorCall_bare (t : Tree α) : isValidatorCall t.bare = isValidatorCall t := by
  simp [isValidatorCall]

@[simp] theorem validatedInputs_bare (t : Tree α) : validatedInputs t.bare = validatedInputs t := by
  induction t using ind with
  | h a cs ih =>
    have hall : validatedInputsAll (cs.map bare) = validatedInputsAll cs := by
      clear * - ih
      induction cs with
      | nil => rfl
      | cons c cs ihs =>
        obtain ⟨hc, hcs⟩ := List.forall_mem_cons.mp ih
        rw [List.map_cons, validatedInputsAll, validatedInputsAll, isNamed_bare, hc, ihs hcs]
    have hcall := isValidatorCall_bare (node a cs)
    have hargs := arguments_bare (node a cs)
    rw [bare_node] at hcall hargs ⊢
    rw [validatedInputs, validatedInputs, hcall, hargs, hall, List.map_map]
    simp [Function.comp_def]

theorem mem_preorder_of_mem_arguments {x call : Tree α} (h : x ∈ arguments call) :
    ∃ c ∈ call.children, x ∈ c.preorder := by
  unfold arguments at h
  split at h
  · simp at h
  · rename_i list hl
    have hlist : list ∈ call.children := List.mem_of_find?_eq_some hl
    obtain ⟨c, hc, hx⟩ := List.mem_filterMap.mp h
    refine ⟨list, hlist, mem_preorder_trans (mem_preorder_of_mem_children hc) ?_⟩
    split at hx
    · rename_i first rest _ hn
      obtain rfl : first = x := by simpa using hx
      have : first ∈ c.namedChildren := by rw [hn]; exact List.mem_cons_self
      exact mem_preorder_of_mem_children (List.mem_filter.mp this).1
    · split at hx
      · obtain rfl : c = x := by simpa using hx
        exact mem_preorder_self c
      · simp at hx

/-! ### The tree that is decorated -/

theorem bare_decorate {f : Part → List Code → Meaning} (hf : ∀ p parts, (f p parts).part = p) (t : Tree Part) :
    (t.decorate f).bare = t := by
  induction t using ind with
  | h p cs ih =>
    have hcs : cs.map (bare ∘ decorate f) = cs := by
      conv => rhs; rw [← List.map_id cs]
      exact List.map_congr_left ih
    rw [decorate_node, bare_node, List.map_map, hcs]
    exact congrArg (Tree.node · cs) (hf p _)

theorem bare_meaningOf (t : Tree Part) : (meaningOf t).bare = t := bare_decorate (fun _ _ => rfl) t

@[simp] theorem part_meaningOf (t : Tree Part) : (meaningOf t).part = t.part := by
  rw [← part_bare (meaningOf t), bare_meaningOf]

theorem kind_meaningOf (t : Tree Part) : (meaningOf t).kind = t.kind := by
  rw [kind, part_meaningOf, kind]

theorem text_meaningOf (t : Tree Part) : (meaningOf t).text = t.text := by
  rw [text, part_meaningOf, text]

@[simp] theorem children_meaningOf (t : Tree Part) : (meaningOf t).children = t.children.map meaningOf := by
  cases t
  rw [meaningOf, decorate_node]
  rfl

/-- A node without acts, above the meaning of the nodes below it. -/
def surface (t : Tree Part) : Code :=
  .node ⟨t.part, default⟩ (t.children.map meaningOf)

section

variable (t : Tree Part)

/-! The acts of a node are the rules for its surface. -/

theorem eval_meaningOf : (meaningOf t).eval = evalRule (surface t) (uploadRule (surface t)) := by
  cases t
  rw [meaningOf, decorate_node]
  rfl

theorem process_meaningOf : (meaningOf t).process = processRule (surface t) := by
  cases t
  rw [meaningOf, decorate_node]
  rfl

theorem block_meaningOf : (meaningOf t).block = blockRule (surface t) := by
  cases t
  rw [meaningOf, decorate_node]
  rfl

theorem upload_meaningOf : (meaningOf t).upload = uploadRule (surface t) := by
  cases t
  rw [meaningOf, decorate_node]
  rfl

theorem risky_meaningOf :
    (meaningOf t).risky = riskyRule (surface t) (evalRule (surface t) (uploadRule (surface t))) := by
  cases t
  rw [meaningOf, decorate_node]
  rfl

theorem bare_surface : (surface t).bare = t := by
  have hcs : t.children.map (bare ∘ meaningOf) = t.children := by
    conv => rhs; rw [← List.map_id t.children]
    exact List.map_congr_left fun c _ => bare_meaningOf c
  rw [surface, bare_node, List.map_map, hcs]
  cases t
  rfl

@[simp] theorem kind_surface : (surface t).kind = t.kind := rfl

@[simp] theorem text_surface : (surface t).text = t.text := rfl

@[simp] theorem children_surface : (surface t).children = t.children.map meaningOf := rfl

@[simp] theorem namedChildren_surface : (surface t).namedChildren = t.namedChildren.map meaningOf := by
  simp [namedChildren, isNamed, List.filter_map, Function.comp_def]

@[simp] theorem field?_surface (name : String) : (surface t).field? name = (t.field? name).map meaningOf := by
  simp [field?, List.find?_map, Function.comp_def]

@[simp] theorem isCondition_meaningOf : isCondition (meaningOf t) = isCondition t := by
  simp [isCondition, kind, isNamed]

theorem condition_surface :
    (surface t).children.find? isCondition = (t.children.find? isCondition).map meaningOf := by
  simp [List.find?_map, Function.comp_def]

@[simp] theorem branches_surface : branches (surface t) = (branches t).map meaningOf := by
  simp [branches, isNamed, List.eraseP_map, List.filter_map, Function.comp_def]

@[simp] theorem subscriptBase?_surface : subscriptBase? (surface t) = (subscriptBase? t).map meaningOf := by
  simp [subscriptBase?, kind, isNamed, List.find?_map, Function.comp_def]

end

/-- What holds of the meaning of a node whenever it holds of all below its surface holds of all nodes
of a program. -/
theorem meaningOf_ind {node : Tree Part → Prop} {P : Code → Prop}
    (h : ∀ n, node n → (∀ c ∈ (surface n).children, ∀ d ∈ c.preorder, P d) → P (meaningOf n)) (t : Tree Part)
    (hn : ∀ n ∈ t.preorder, node n) : ∀ d ∈ (meaningOf t).preorder, P d := by
  induction t using ind with
  | h p cs ih =>
    have hcs : ∀ c ∈ cs, ∀ d ∈ (meaningOf c).preorder, P d := fun c hc =>
      ih c hc fun n hmem => hn n (mem_preorder_node.mpr (Or.inr ⟨c, hc, hmem⟩))
    intro d hd
    rw [meaningOf, decorate_node] at hd
    rcases mem_preorder_node.mp hd with rfl | ⟨x, hx, hd⟩
    · rw [← decorate_node]
      refine h _ (hn _ (mem_preorder_self _)) fun x hx => ?_
      obtain ⟨c, hc, rfl⟩ := List.mem_map.mp hx
      exact hcs c hc
    · obtain ⟨c, hc, rfl⟩ := List.mem_map.mp hx
      exact hcs c hc d hd

end Taint

end SourceAudit

namespace SourceAudit.Taint

open Tree

/-- The name under which the value of a node is looked up. -/
def ownNames (p : Part) : List String :=
  if p.kind = "variable_name" then [p.text]
  else if p.kind = "subscript_expression" then [Text.removeBlanks p.text]
  else []

def mentionedNames (t : Tree Part) : List String :=
  t.preorder.flatMap fun n => ownNames n.part

/-- The kinds of nodes that look at all that is below them. -/
def looksDeep (kind : String) : Bool :=
  stringKinds.contains kind || kind == "function_call_expression" || kind == "member_call_expression"

mutual

/-- The names that may be looked up when a node is run. -/
def readNames : Tree Part → List String
  | .node p cs => ownNames p ++ readNamesIn p cs

/-- The names that may be looked up in the children of a node. -/
def readNamesIn (p : Part) : List (Tree Part) → List String
  | [] => []
  | c :: cs =>
    (if looksDeep p.kind then mentionedNames c
      else if p.kind = "assignment_expression" ∧ c.part.field ≠ some "right" then []
      else readNames c) ++ readNamesIn p cs

end

def assignedAt (n : Tree Part) : List String :=
  if n.kind = "assignment_expression" then
    (variableName? (n.field? "left")).toList ++ (accessKey? (n.field? "left")).toList
  else []

def assignedNames (t : Tree Part) : List String :=
  t.preorder.flatMap assignedAt

variable {name : String} {t c : Tree Part}

theorem mem_mentionedNames : name ∈ mentionedNames t ↔ ∃ n ∈ t.preorder, name ∈ ownNames n.part :=
  List.mem_flatMap

theorem mem_assignedNames : name ∈ assignedNames t ↔ ∃ n ∈ t.preorder, name ∈ assignedAt n :=
  List.mem_flatMap

theorem mentionedNames_trans {n : Tree Part} (hn : n ∈ t.preorder) (h : name ∈ mentionedNames n) :
    name ∈ mentionedNames t := by
  obtain ⟨d, hd, hname⟩ := mem_mentionedNames.mp h
  exact mem_mentionedNames.mpr ⟨d, mem_preorder_trans hn hd, hname⟩

theorem assignedNames_trans {n : Tree Part} (hn : n ∈ t.preorder) (h : name ∈ assignedNames n) :
    name ∈ assignedNames t := by
  obtain ⟨d, hd, hname⟩ := mem_assignedNames.mp h
  exact mem_assignedNames.mpr ⟨d, mem_preorder_trans hn hd, hname⟩

theorem mem_readNamesIn {p : Part} {cs : List (Tree Part)} : name ∈ readNamesIn p cs ↔
    ∃ c ∈ cs, name ∈ (if looksDeep p.kind then mentionedNames c
      else if p.kind = "assignment_expression" ∧ c.part.field ≠ some "right" then []
      else readNames c) := by
  induction cs with
  | nil => simp [readNamesIn]
  | cons c cs ih => rw [readNamesIn, List.mem_append, ih, List.exists_mem_cons_iff]

theorem ownNames_subset_readNames (h : name ∈ ownNames t.part) : name ∈ readNames t := by
  cases t
  rw [readNames]
  exact List.mem_append_left _ h

theorem mentionedNames_subset_readNames (hk : looksDeep t.kind = true) (hc : c ∈ t.children)
    (h : name ∈ mentionedNames c) : name ∈ readNames t := by
  obtain ⟨p, cs⟩ := t
  rw [readNames]
  refine List.mem_append_right _ (mem_readNamesIn.mpr ⟨c, hc, ?_⟩)
  rw [if_pos (show looksDeep p.kind = true from hk)]
  exact h

theorem readNames_subset_mentionedNames : ∀ {t : Tree Part}, name ∈ readNames t → name ∈ mentionedNames t := by
  intro t
  induction t using ind with
  | h p cs ih =>
    intro h
    rw [readNames] at h
    rcases List.mem_append.mp h with h | h
    · exact mem_mentionedNames.mpr ⟨_, mem_preorder_self _, h⟩
    · obtain ⟨c, hc, h⟩ := mem_readNamesIn.mp h
      refine mentionedNames_trans (mem_preorder_of_mem_children (show c ∈ (node p cs).children from hc)) ?_
      split at h
      · exact h
      · split at h
        · simp at h
        · exact ih c hc h

/-- A child is read, unless it is part of an assignment and not its right side. -/
theorem readNames_subset_of_child (hc : c ∈ t.children)
    (hk : t.kind ≠ "assignment_expression" ∨ c.part.field = some "right") (h : name ∈ readNames c) :
    name ∈ readNames t := by
  obtain ⟨p, cs⟩ := t
  rw [readNames]
  refine List.mem_append_right _ (mem_readNamesIn.mpr ⟨c, hc, ?_⟩)
  split
  · exact readNames_subset_mentionedNames h
  · rw [if_neg fun ⟨h1, h2⟩ => hk.elim (· h1) (h2 ·)]
    exact h

end SourceAudit.Taint
