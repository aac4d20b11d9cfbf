/-
# Straight-line programs

A program that is a sequence of assignments has a reference semantics of its own: an
environment says of each variable whether its value depends on the request, and an
assignment sets it for one variable (`dependence`).

`Writes t e` says that a tree writes an expression. While one is evaluated, names and
what is known of their values stay as they are but for further values (`Adds`), so that
the environment stays the same (`Knows`); an assignment sets one name. What is learnt
about a value that has two names does not touch whether it comes from a request.
-/
import SourceAudit.Proofs.Syntax.Bare
import SourceAudit.Proofs.Taint.Run

namespace SourceAudit.Taint

open Tree

variable {b : Bool} {l : Tree Part} {x : String} {xs : List String} {v : ValueId} {cs : List (Tree Part)}

/-! ### The reference semantics -/

/-- An expression, as far as it matters where its value comes from. -/
inductive Expr where
  /-- A string with variables put into it. -/
  | text (parts : List String)
  | var (name : String)
  /-- A request array or an entry of one. -/
  | request
  | group (e : Expr)
  | operation (left right : Expr)

abbrev Env := String → Bool

/-- The value of an expression depends on the request. -/
def Expr.depends (env : Env) : Expr → Bool
  | .text parts => parts.any env
  | .var name => env name
  | .request => true
  | .group e => e.depends env
  | .operation left right => left.depends env || right.depends env

structure Assignment where
  target : String
  value : Expr

def Assignment.run (env : Env) (a : Assignment) : Env :=
  Function.update env a.target (a.value.depends env)

/-- Which variables depend on the request after the assignments. -/
def dependence (p : List Assignment) : Env :=
  p.foldl Assignment.run fun _ => false

/-! ### How programs are written -/

def requestArrays : List String := ["$_GET", "$_POST", "$_REQUEST", "$_COOKIE"]

/-- The name of a variable of the program. -/
structure PlainName (x : String) : Prop where
  nonempty : x ≠ ""
  bracket : '[' ∉ x.toList
  own : x ∉ superglobals

/-- The named parts of a string, with the variables among them. -/
inductive Pieces : List (Tree Part) → List String → Prop where
  | nil : Pieces [] []
  | text {c : Tree Part} {cs : List (Tree Part)} {xs : List String} :
      c.kind = "string_content" ∨ c.kind = "escape_sequence" → c.children = [] → Pieces cs xs →
      Pieces (c :: cs) xs
  | var {c : Tree Part} {cs : List (Tree Part)} {xs : List String} :
      c.kind = "variable_name" → PlainName c.text → Pieces cs xs → Pieces (c :: cs) (c.text :: xs)

/-- The tree writes the expression. -/
inductive Writes : Tree Part → Expr → Prop where
  | text {t : Tree Part} {xs : List String} :
      isString t = true → Pieces t.namedChildren xs → Writes t (.text xs)
  | var {t : Tree Part} : t.kind = "variable_name" → PlainName t.text → Writes t (.var t.text)
  | request {t : Tree Part} : t.kind = "variable_name" → t.text ∈ requestArrays → Writes t .request
  | entry {t base key : Tree Part} : t.kind = "subscript_expression" → t.namedChildren = [base, key] →
      base.kind = "variable_name" → base.text ∈ requestArrays → isString key = true →
      '[' ∈ t.text.toList → Writes t .request
  | group {t c : Tree Part} {e : Expr} :
      t.kind = "parenthesized_expression" → t.namedChildren = [c] → Writes c e → Writes t (.group e)
  | operation {t l r : Tree Part} {e f : Expr} :
      t.kind = "binary_expression" → t.namedChildren = [l, r] → Writes l e → Writes r f →
      Writes t (.operation e f)

/-- The statement writes the assignment. -/
inductive WritesAssignment : Tree Part → Assignment → Prop where
  | mk {t s l r : Tree Part} {ends : List (Tree Part)} {e : Expr} :
      t.kind = "expression_statement" → t.children = s :: ends → (∀ c ∈ ends, c.kind = ";" ∧ c.children = []) →
      s.kind = "assignment_expression" → s.field? "left" = some l → s.field? "right" = some r →
      l.kind = "variable_name" → PlainName l.text → Writes r e → WritesAssignment t ⟨l.text, e⟩

/-- The nodes write the assignments, between marks that say nothing. -/
inductive WritesProgram : List (Tree Part) → List Assignment → Prop where
  | nil : WritesProgram [] []
  | mark {c : Tree Part} {cs : List (Tree Part)} {p : List Assignment} :
      c.kind ∈ ["php_tag", ";", ","] → WritesProgram cs p → WritesProgram (c :: cs) p
  | statement {c : Tree Part} {cs : List (Tree Part)} {a : Assignment} {p : List Assignment} :
      WritesAssignment c a → WritesProgram cs p → WritesProgram (c :: cs) (a :: p)

/-! ### Runs within the budget -/

section

variable {α β : Type} {m : Memory} {Q : α → Memory → Prop} {R : β → Memory → Prop}

/-- Unless the budget stops it, the run gives a result with `Q`. -/
def Finishes (m : Memory) (Q : α → Memory → Prop) (r : Run α) : Prop :=
  (r m).1 = .error .budget ∨ ∃ a m', r m = (.ok a, m') ∧ Q a m'

theorem Finishes.ok {r : Run α} {a : α} {m' : Memory} (h : r m = (.ok a, m')) (hq : Q a m') : Finishes m Q r :=
  Or.inr ⟨a, m', h, hq⟩

theorem Finishes.bind {r : Run α} {k : α → Run β} (hr : Finishes m Q r)
    (hk : ∀ a m', Q a m' → Finishes m' R (k a)) : Finishes m R (r >>= k) := by
  rcases hr with hr | ⟨a, m', hr, hq⟩
  · left
    rcases hrm : r m with ⟨o, m'⟩
    rw [hrm] at hr
    obtain rfl : o = _ := hr
    rw [bind_error hrm]
  · unfold Finishes
    rw [bind_ok hr]
    exact hk a m' hq

theorem Finishes.weaken {Q' : α → Memory → Prop} {r : Run α} (h : Finishes m Q r)
    (hq : ∀ a m', Q a m' → Q' a m') : Finishes m Q' r :=
  h.imp_right fun ⟨a, m', hr, h⟩ => ⟨a, m', hr, hq a m' h⟩

end

theorem Quiet.finishes {α : Type} {r : Run α} (h : Quiet r) (m : Memory) : Finishes m (fun _ => Adds m) r := by
  obtain ⟨a, m', hr, hm, -⟩ := h m
  exact .ok hr hm

theorem tick_finishes (m : Memory) : Finishes m (fun _ m' => Adds m m') tick := by
  rw [Finishes, tick_apply]
  by_cases h : budget < m.visited + 1
  · exact Or.inl (by rw [if_pos h])
  · exact Or.inr ⟨(), { m with visited := m.visited + 1 }, by rw [if_neg h], .of_store rfl, rfl, rfl⟩

/-! ### What the memory says of the variables -/

/-- The memory says of each variable what the environment says. -/
structure Knows (env : Env) (m : Memory) : Prop where
  plain : ∀ p ∈ m.names, PlainName p.1
  bound : ∀ p ∈ m.names, p.2 < m.store.size
  unchecked : m.checked = []
  tainted : ∀ x, (m.traceOf x).tainted = env x

namespace Knows

variable {env : Env} {m m' : Memory}

theorem adds (h : Knows env m) (hm : Adds m m') : Knows env m' where
  plain := fun p hp => h.plain p (hm.names ▸ hp)
  bound := fun p hp => Nat.lt_of_lt_of_le (h.bound p (hm.names ▸ hp)) hm.grows.size
  unchecked := hm.checked.trans h.unchecked
  tainted := fun x => by
    rw [← h.tainted x]
    have hx : m'.lookup? x = m.lookup? x := by rw [Memory.lookup?, hm.names, Memory.lookup?]
    unfold Memory.traceOf
    rw [hx]
    cases hv : m.lookup? x with
    | none => rfl
    | some v => exact (hm.grows.trace v (h.bound _ (mem_names_of_lookup? hv))).tainted

theorem lookup?_eq_none (h : Knows env m) (hx : ¬PlainName x) : m.lookup? x = none := by
  cases hv : m.lookup? x with
  | none => rfl
  | some v => exact absurd (h.plain _ (mem_names_of_lookup? hv)) hx

theorem bindName (h : Knows env m) (hx : PlainName x) (hv : v < m.store.size) (hb : (m.trace v).tainted = b) :
    Knows (Function.update env x b) { m with names := setName x v m.names } where
  plain := fun p hp => (mem_setName hp).elim (fun e => by rw [e]; exact hx) (h.plain p)
  bound := fun p hp => (mem_setName hp).elim (fun e => by rw [e]; exact hv) (h.bound p)
  unchecked := h.unchecked
  tainted := fun y => by
    unfold Memory.traceOf
    rw [lookup?_setName]
    by_cases hy : y = x
    · rw [if_pos hy, hy, Function.update_self]
      exact hb
    · rw [if_neg hy, Function.update_of_ne hy, ← h.tainted y]
      rfl

end Knows

/-! ### Expressions -/

/-- A value of a later memory, and whether it comes from a request. -/
structure Made (m : Memory) (b : Bool) (v : ValueId) (m' : Memory) : Prop where
  adds : Adds m m'
  lt : v < m'.store.size
  tainted : (m'.trace v).tainted = b

theorem Made.after {m n m' : Memory} (h : Adds m n) (hv : Made n b v m') : Made m b v m' :=
  { hv with adds := h.trans hv.adds }

theorem fresh_finishes (m : Memory) (t : Trace) : Finishes m (Made m t.tainted) (fresh t) := by
  refine .ok (fresh_apply t m) ⟨.push m t, ?_, ?_⟩
  · simp
  · rw [trace_push_size]

theorem tick_made {m : Memory} {r : Run ValueId} (h : ∀ n, Adds m n → Finishes n (Made n b) r) :
    Finishes m (Made m b) (do tick; r) :=
  (tick_finishes m).bind fun _ n hn => (h n hn).weaken fun _ _ => .after hn

/-- What is known after some values are merged, and whether it comes from a request. -/
structure Merged (m : Memory) (b : Bool) (t : Trace) (m' : Memory) : Prop where
  adds : Adds m m'
  tainted : t.tainted = b

theorem mergeRuns_nil {m : Memory} (t : Trace) : Finishes m (Merged m t.tainted) (mergeRuns t []) :=
  .ok rfl ⟨.refl m, rfl⟩

theorem mergeRuns_cons {m : Memory} {t : Trace} {c : Bool} {r : Run ValueId} {rs : List (Run ValueId)}
    (hr : Finishes m (Made m b) r)
    (hrs : ∀ n u, Adds m n → Finishes n (Merged n (u.tainted || c)) (mergeRuns u rs)) :
    Finishes m (Merged m (t.tainted || (b || c))) (mergeRuns t (r :: rs)) := by
  refine hr.bind fun v n hv => ?_
  unfold Finishes
  rw [read_bind]
  refine (hrs n _ hv.adds).weaken fun u m' hu => ⟨hv.adds.trans hu.adds, ?_⟩
  rw [hu.tainted, ← hv.tainted, ← Bool.or_assoc]
  rfl

theorem mergedValue_finishes {m : Memory} {rs : List (Run ValueId)}
    (h : Finishes m (Merged m b) (mergeRuns {} rs)) : Finishes m (Made m b) (mergedValue rs) := by
  refine h.bind fun t n ht => ?_
  rw [← ht.tainted]
  exact (fresh_finishes n t).weaken fun _ _ => .after ht.adds

theorem expressionRule_of_not_string {here : Code} {upload : Run (Option ValueId)}
    (h : here.kind ∉ ["variable_name", "subscript_expression", "assignment_expression", "conditional_expression",
      "cast_expression", "function_call_expression", "member_call_expression", "binary_expression"])
    (hs : isString here = false) : expressionRule here upload = evalAll here.namedChildren := by
  simp only [List.mem_cons, List.not_mem_nil, or_false, not_or] at h
  unfold expressionRule
  split <;> simp_all

theorem expressionRule_of_binary {t r : Tree Part} (hk : t.kind = "binary_expression")
    (hc : t.namedChildren = [l, r]) : expressionRule (surface t) (uploadRule (surface t)) = (do
      let v ← (meaningOf l).eval
      let w ← (meaningOf r).eval
      fresh ((← read v).concat (← read w))) := by
  unfold expressionRule binaryRule
  rw [kind_surface, hk, namedChildren_surface, hc]
  rfl

section

variable {t : Tree Part} {env : Env} {m : Memory}

theorem expressionRule_of_leaf (hk : t.kind = "string_content" ∨ t.kind = "escape_sequence") (hl : t.children = []) :
    expressionRule (surface t) (uploadRule (surface t)) = fresh {} := by
  have hnamed : (surface t).namedChildren = [] := by simp [namedChildren, hl]
  rw [expressionRule_of_not_string ?_ ?_, hnamed]
  · rfl
  · rcases hk with hk | hk <;> rw [kind_surface, hk] <;> decide
  · rcases hk with hk | hk <;> rw [isString, kind_surface, hk] <;> decide

theorem leaf_finishes (hk : t.kind = "string_content" ∨ t.kind = "escape_sequence") (hl : t.children = []) :
    Finishes m (Made m false) (meaningOf t).eval := by
  rw [eval_meaningOf]
  refine tick_made fun n _ => ?_
  rw [expressionRule_of_leaf hk hl]
  exact fresh_finishes n {}

theorem variable_finishes (hm : Knows env m) (hk : t.kind = "variable_name") (hx : PlainName t.text) :
    Finishes m (Made m (env t.text)) (meaningOf t).eval := by
  rw [eval_meaningOf]
  refine tick_made fun n hn => ?_
  have hrule : expressionRule (surface t) (uploadRule (surface t)) = valueOf t.text := by
    unfold expressionRule variableRule
    rw [kind_surface, hk]
    simp [hx.own]
  have hn := hm.adds hn
  rw [hrule, Finishes, valueOf_apply, ← hn.tainted t.text, Memory.traceOf]
  cases hv : n.lookup? t.text with
  | none => exact fresh_finishes n {}
  | some v => exact Or.inr ⟨v, n, rfl, .refl n, hn.bound _ (mem_names_of_lookup? hv), rfl⟩

/-- The request arrays are superglobals, but neither the files nor the server's own array. -/
theorem of_mem_requestArrays (h : x ∈ requestArrays) : x ∈ superglobals ∧ x ≠ "$_FILES" ∧ x ≠ "$_SERVER" := by
  have hall : ∀ x ∈ requestArrays, x ∈ superglobals ∧ x ≠ "$_FILES" ∧ x ≠ "$_SERVER" := by decide
  exact hall x h

theorem request_finishes (hk : t.kind = "variable_name") (hx : t.text ∈ requestArrays) :
    Finishes m (Made m true) (meaningOf t).eval := by
  rw [eval_meaningOf]
  refine tick_made fun n _ => ?_
  have hrule : expressionRule (surface t) (uploadRule (surface t)) =
      fresh { tainted := true, sources := [t.text] } := by
    unfold expressionRule variableRule
    rw [kind_surface, hk]
    simp [(of_mem_requestArrays hx).1]
  rw [hrule]
  exact fresh_finishes n _

theorem subscriptBase?_of_named {base : Tree Part} {rest : List (Tree Part)} (hc : t.namedChildren = base :: rest)
    (hb : base.kind ≠ "string") : subscriptBase? t = some base := by
  have h : subscriptBase? t = t.namedChildren.find? (·.kind != "string") := by
    rw [subscriptBase?, namedChildren, List.find?_filter]
    simp only [Bool.decide_and, Bool.decide_eq_true]
  rw [h, hc, List.find?_cons_of_pos (by simpa using hb)]

section

variable {base : Tree Part} (hbase : subscriptBase? t = some base) (hb : base.kind = "variable_name")

include hbase hb

theorem hasBase_of_named (p : String → Bool) : hasBase (surface t) p = p base.text := by
  simp [hasBase, hbase, kind_meaningOf, hb, text_meaningOf]

variable (hm : Knows env m) (hx : base.text ∈ requestArrays)

include hm hx

theorem upload_request : uploadRule (surface t) m = (.ok none, m) := by
  have hk : (meaningOf base).kind = "variable_name" := (kind_meaningOf base).trans hb
  have ht := text_meaningOf base
  obtain ⟨hsuper, hfiles, -⟩ := of_mem_requestArrays hx
  have hown : ¬PlainName base.text := fun h => h.own hsuper
  have hentry : uploadEntry (meaningOf base) m = (.ok false, m) := by
    have hnone : (m.traceOf base.text).upload = false := by rw [Memory.traceOf, hm.lookup?_eq_none hown]
    unfold uploadEntry
    rw [hk, ht]
    exact (bind_ok (traceOf_apply base.text m)).trans (by rw [hnone]; rfl)
  unfold uploadRule
  by_cases h : (surface t).kind != "subscript_expression"
  · rw [if_pos h]
    rfl
  · rw [if_neg h, subscriptBase?_surface, hbase]
    simp only [Option.map_some, hk, ht, beq_self_eq_true, Bool.true_and, beq_iff_eq, hfiles, if_false]
    rw [bind_ok hentry]
    rfl

/-- An entry of a request array comes from the request: nothing is stored under it, since it is no
name of a variable. -/
theorem subscriptValue_request (hbracket : '[' ∈ t.text.toList) :
    subscriptValue (surface t) m = fresh { tainted := true, sources := [t.text] } m := by
  have hmem : '[' ∈ (Text.removeBlanks t.text).toList := by
    rw [Text.removeBlanks, String.toList_ofList]
    exact List.mem_filter.mpr ⟨hbracket, by decide⟩
  have hnone : m.lookup? (Text.removeBlanks t.text) = none := hm.lookup?_eq_none fun h => h.bracket hmem
  obtain ⟨hsuper, hfiles, hserver⟩ := of_mem_requestArrays hx
  have hserver : clientChosen? (surface t) = none := by
    rw [clientChosen?, hasBase_of_named hbase hb, if_neg (by simpa using hserver)]
  have hfiles : isFilesEntry (surface t) = false := by
    rw [isFilesEntry, hasBase_of_named hbase hb, beq_false_of_ne hfiles, Bool.false_and]
  have hentry : isSuperglobalEntry (surface t) = true := by
    rw [isSuperglobalEntry, hasBase_of_named hbase hb]
    exact List.elem_eq_true_of_mem hsuper
  unfold subscriptValue
  rw [bind_ok (isChecked_apply _ m), bind_ok (lookup?_apply _ m), text_surface, hnone, hm.unchecked, hserver,
    hfiles, hentry]
  simp

end

theorem entry_finishes (hm : Knows env m) {base key : Tree Part} (hk : t.kind = "subscript_expression")
    (hc : t.namedChildren = [base, key]) (hb : base.kind = "variable_name") (hx : base.text ∈ requestArrays)
    (hbracket : '[' ∈ t.text.toList) : Finishes m (Made m true) (meaningOf t).eval := by
  have hbase : subscriptBase? t = some base := subscriptBase?_of_named hc (by rw [hb]; decide)
  rw [eval_meaningOf]
  refine tick_made fun n hn => ?_
  have hn := hm.adds hn
  have hrule : expressionRule (surface t) (uploadRule (surface t)) n = subscriptValue (surface t) n := by
    unfold expressionRule
    rw [kind_surface, hk]
    exact bind_ok (upload_request hbase hb hn hx)
  unfold Finishes
  rw [hrule, subscriptValue_request hbase hb hn hx hbracket]
  exact fresh_finishes n _

/-! ### Strings -/

theorem expressionRule_of_string (hs : isString t = true) :
    expressionRule (surface t) (uploadRule (surface t)) = stringRule (surface t) := by
  have hkind : t.kind ∈ stringKinds := List.contains_iff_mem.mp hs
  have hs : isString (surface t) = true := hs
  unfold expressionRule
  simp only [stringKinds, List.mem_cons, List.not_mem_nil, or_false] at hkind
  rcases hkind with hk | hk | hk <;> rw [kind_surface, hk] <;> simp [hs]

theorem pieces_finish (h : Pieces cs xs) : ∀ {m : Memory} (u : Trace),
    Knows env m → Finishes m (Merged m (u.tainted || xs.any env))
      (mergeRuns u (cs.map fun c => (meaningOf c).eval)) := by
  induction h with
  | nil =>
    intro m u _
    rw [List.any_nil, Bool.or_false]
    exact mergeRuns_nil u
  | text hk hl _ ih =>
    intro m u hm
    exact mergeRuns_cons (leaf_finishes hk hl) fun n t hn => ih t (hm.adds hn)
  | var hk hx _ ih =>
    intro m u hm
    exact mergeRuns_cons (variable_finishes hm hk hx) fun n t hn => ih t (hm.adds hn)

theorem pieces_risky (h : Pieces cs xs) (m : Memory) :
    ∃ b, anyRun (cs.map fun c => (meaningOf c).risky) m = (.ok b, m) := by
  have step {c : Tree Part} {cs : List (Tree Part)} {b : Bool} (hc : (meaningOf c).risky m = (.ok b, m))
      (hcs : ∃ b, anyRun (cs.map fun c => (meaningOf c).risky) m = (.ok b, m)) :
      ∃ b, anyRun ((c :: cs).map fun c => (meaningOf c).risky) m = (.ok b, m) := by
    rw [List.map_cons, anyRun, bind_ok hc]
    cases b with
    | true => exact ⟨true, rfl⟩
    | false => exact hcs
  induction h with
  | nil => exact ⟨false, rfl⟩
  | @text c cs xs hk hl _ ih =>
    refine step (b := false) ?_ ih
    have hnamed : (surface c).namedChildren = [] := by simp [namedChildren, hl]
    rw [risky_meaningOf, riskyRule, kind_surface]
    rcases hk with hk | hk <;> rw [hk] <;> show riskyParts (surface c) m = _ <;> rw [riskyParts, hnamed] <;> rfl
  | @var c cs xs hk hx _ ih =>
    refine step (b := (m.traceOf c.text).tainted) ?_ ih
    have hown : ¬superglobals.contains c.text = true := fun h => hx.own (List.contains_iff_mem.mp h)
    rw [risky_meaningOf, riskyRule, kind_surface, hk, text_surface]
    show (if superglobals.contains c.text = true then _ else _ : Run Bool) m = _
    rw [if_neg hown]
    exact bind_ok (traceOf_apply c.text m)

theorem riskNote_pieces (h : Pieces t.namedChildren xs) (m : Memory) :
    ∃ added, riskNote (surface t) m = (.ok added, m) := by
  obtain ⟨b, hb⟩ := pieces_risky h m
  have hrisky : riskyParts (surface t) m = (.ok b, m) := by
    rw [riskyParts, namedChildren_surface, List.map_map]
    exact hb
  exact ⟨_, bind_ok hrisky⟩

theorem string_finishes (hm : Knows env m) (hs : isString t = true)
    (h : Pieces t.namedChildren xs) : Finishes m (Made m (xs.any env)) (meaningOf t).eval := by
  rw [eval_meaningOf]
  refine tick_made fun n hn => ?_
  rw [expressionRule_of_string hs]
  unfold stringRule
  rw [namedChildren_surface, List.map_map]
  refine (pieces_finish h _ (hm.adds hn)).bind fun known m' hk => ?_
  have hknown : known.tainted = xs.any env := hk.tainted.trans (Bool.false_or _)
  split
  · obtain ⟨added, hadded⟩ := riskNote_pieces h m'
    unfold Finishes
    rw [bind_ok hadded, ← hknown]
    exact (fresh_finishes m' _).weaken fun _ _ => .after hk.adds
  · rw [← hknown]
    exact (fresh_finishes m' known).weaken fun _ _ => .after hk.adds

end

/-! ### Assignments -/

theorem eval_finishes {t : Tree Part} {e : Expr} (h : Writes t e) : ∀ {env : Env} {m : Memory}, Knows env m →
    Finishes m (Made m (e.depends env)) (meaningOf t).eval := by
  induction h with
  | text hs hp => exact fun hm => string_finishes hm hs hp
  | var hk hx => exact fun hm => variable_finishes hm hk hx
  | request hk hx => exact fun _ => request_finishes hk hx
  | entry hk hc hb hx _ hbracket => exact fun hm => entry_finishes hm hk hc hb hx hbracket
  | @group t c e hk hc _ ih =>
    intro env m hm
    rw [eval_meaningOf]
    refine tick_made fun n hn => ?_
    have hrule : expressionRule (surface t) (uploadRule (surface t)) = evalAll [meaningOf c] := by
      rw [expressionRule_of_not_string ?_ ?_, namedChildren_surface, hc]
      · rfl
      · rw [kind_surface, hk]
        decide
      · rw [isString, kind_surface, hk]
        decide
    rw [hrule]
    refine mergedValue_finishes ?_
    have h := mergeRuns_cons (t := {}) (c := false) (ih (hm.adds hn)) fun n u _ => by
      rw [Bool.or_false]
      exact mergeRuns_nil u
    rwa [Bool.or_false, Bool.false_or] at h
  | @operation t l r e f hk hc _ _ ihl ihr =>
    intro env m hm
    rw [eval_meaningOf]
    refine tick_made fun n hn => ?_
    have hn := hm.adds hn
    rw [expressionRule_of_binary hk hc]
    refine (ihl hn).bind fun v o hv => ?_
    refine (ihr (hn.adds hv.adds)).bind fun w m' hw => ?_
    unfold Finishes
    rw [read_bind, read_bind]
    -- what is known about the left value is extended while the right one is evaluated
    have hleft : (m'.trace v).tainted = e.depends env :=
      (hw.adds.grows.trace v hv.lt).tainted.trans hv.tainted
    have hconcat : ((m'.trace v).concat (m'.trace w)).tainted = (e.depends env || f.depends env) := by
      rw [← hleft, ← hw.tainted]
      rfl
    show Finishes m' _ _
    rw [Expr.depends, ← hconcat]
    exact (fresh_finishes m' _).weaken fun _ _ => .after (hv.adds.trans hw.adds)

theorem variableName?_of_kind (hk : l.kind = "variable_name") :
    variableName? (some (meaningOf l)) = some l.text := by
  simp [variableName?, kind, text, part_meaningOf, show l.part.kind = _ from hk]

theorem storeEntry_of_kind (hk : l.kind = "variable_name") (here : Code) (v : ValueId) :
    storeEntry here (some (meaningOf l)) v = pure () := by
  have haccess : accessKey? (some (meaningOf l)) = none := by
    simp [accessKey?, kind, part_meaningOf, show l.part.kind = _ from hk]
  rw [storeEntry, haccess]

theorem statementRule_of_assignment {s : Tree Part} (hk : s.kind = "assignment_expression") :
    statementRule (surface s) = assignmentRule (surface s) := by
  unfold statementRule
  rw [kind_surface, hk]
  rfl

theorem storeVariable_finishes {env : Env} {m : Memory} (hm : Knows env m)
    (hk : l.kind = "variable_name") (hx : PlainName l.text) (right : Option Code)
    (hv : v < m.store.size) (hb : (m.trace v).tainted = b) :
    Finishes m (fun _ => Knows (Function.update env l.text b))
      (storeVariable (some (meaningOf l)) right v) := by
  unfold storeVariable
  rw [variableName?_of_kind hk]
  show Finishes m _ (if l.text != "" then _ else _)
  rw [if_pos (by simpa using hx.nonempty)]
  refine ((quiet_markCallable v).finishes m).bind fun _ n hn => ?_
  -- the mark says nothing of where the value comes from
  have hvn : v < n.store.size := Nat.lt_of_lt_of_le hv hn.grows.size
  have hbn : (n.trace v).tainted = b := (hn.grows.trace v hv).tainted.trans hb
  have hbound := (hm.adds hn).bindName hx hvn hbn
  unfold Finishes
  rw [bind_ok (bindName_apply l.text v n)]
  exact ((quiet_noteStatement l.text right v).finishes _).weaken fun _ _ ho => hbound.adds ho

theorem assignment_finishes {env : Env} {m : Memory} (hm : Knows env m) {s r : Tree Part} {e : Expr}
    (hk : s.kind = "assignment_expression") (hl : s.field? "left" = some l) (hr : s.field? "right" = some r)
    (hlk : l.kind = "variable_name") (hx : PlainName l.text) (he : Writes r e) :
    Finishes m (fun _ => Knows (Assignment.run env ⟨l.text, e⟩)) (meaningOf s).process := by
  rw [process_meaningOf]
  refine (tick_finishes m).bind fun _ n hn => ?_
  rw [statementRule_of_assignment hk]
  unfold assignmentRule
  rw [field?_surface, field?_surface, hl, hr]
  refine (eval_finishes he (hm.adds hn)).bind fun v o hv => ?_
  refine (storeVariable_finishes ((hm.adds hn).adds hv.adds) hlk hx _ hv.lt hv.tainted).bind fun _ m' hm' => ?_
  refine .ok (a := v) ?_ hm'
  rw [Option.map_some, storeEntry_of_kind hlk]
  rfl

theorem ends_finish : ∀ {cs : List (Tree Part)}, (∀ c ∈ cs, c.kind = ";" ∧ c.children = []) →
    ∀ {m : Memory} (u : Trace),
      Finishes m (Merged m (u.tainted || false)) (mergeRuns u (cs.map fun c => (meaningOf c).process))
  | [], _, m, u => by
    rw [Bool.or_false]
    exact mergeRuns_nil u
  | c :: cs, h, m, u => by
    obtain ⟨⟨hk, hl⟩, hcs⟩ := List.forall_mem_cons.mp h
    have hrule : statementRule (surface c) = processAll [] := by
      have hnamed : (surface c).namedChildren = [] := by simp [namedChildren, hl]
      unfold statementRule
      rw [kind_surface, hk, hnamed]
      rfl
    refine mergeRuns_cons (b := false) ?_ fun n t _ => ends_finish hcs t
    show Finishes m (Made m false) (meaningOf c).process
    rw [process_meaningOf, processRule, hrule]
    exact tick_made fun n _ => fresh_finishes n {}

theorem statement_finishes {env : Env} {m : Memory} (hm : Knows env m) {t : Tree Part} {a : Assignment}
    (h : WritesAssignment t a) : Finishes m (fun _ => Knows (a.run env)) (meaningOf t).process := by
  obtain ⟨hk, hc, hends, hsk, hl, hr, hlk, hx, he⟩ := h
  rename_i s l r ends e
  rw [process_meaningOf]
  refine (tick_finishes m).bind fun _ n hn => ?_
  have hrule : statementRule (surface t) =
      mergedValue ((meaningOf s).process :: ends.map fun c => (meaningOf c).process) := by
    unfold statementRule
    rw [kind_surface, hk, children_surface, hc]
    show processAll _ = _
    rw [processAll, List.map_map, List.map_cons]
    rfl
  rw [hrule]
  refine Finishes.bind (Q := fun _ => Knows (Assignment.run env ⟨l.text, e⟩)) ?_ fun u o ho =>
    ((quiet_fresh u).finishes o).weaken fun _ _ h => ho.adds h
  refine (assignment_finishes (hm.adds hn) hsk hl hr hlk hx he).bind fun v o ho => ?_
  unfold Finishes
  rw [read_bind]
  exact (ends_finish hends _).weaken fun _ _ h => ho.adds h.adds

/-! ### Programs -/

theorem program_finishes {p : List Assignment} (h : WritesProgram cs p) :
    ∀ {env : Env} {m : Memory}, Knows env m → Finishes m (fun _ => Knows (p.foldl Assignment.run env))
      (runAll (((cs.map meaningOf).filter (!isFiller ·)).map fun c => do let _ ← c.process)) := by
  induction h with
  | nil => exact fun hm => .ok rfl hm
  | @mark c cs p hk _ ih =>
    have hfiller : isFiller (meaningOf c) = true := by
      simp only [List.mem_cons, List.not_mem_nil, or_false] at hk
      simpa [isFiller, kind, part_meaningOf, or_assoc] using hk
    intro env m hm
    rw [List.map_cons, List.filter_cons_of_neg (by simp [hfiller])]
    exact ih hm
  | @statement c cs a p ha _ ih =>
    have hfiller : isFiller (meaningOf c) = false := by
      have hk : c.part.kind = "expression_statement" := by
        cases ha with
        | mk hk => exact hk
      simp [isFiller, kind, part_meaningOf, hk]
    intro env m hm
    rw [List.map_cons, List.filter_cons_of_pos (by simp [hfiller]), List.map_cons]
    refine Finishes.bind (Q := fun _ => Knows (a.run env)) ?_ fun _ n hn => ih hn
    exact (statement_finishes hm ha).bind fun v n hn => .ok rfl hn

theorem knows_empty : Knows (fun _ => false) Memory.empty where
  plain := fun _ h => nomatch h
  bound := fun _ h => nomatch h
  unchecked := rfl
  tainted := fun _ => rfl

/-- **Exact on straight-line programs.** Unless its budget stops the analysis, a name has a value from
a request if and only if the reference semantics says that it depends on one. -/
theorem tainted_iff_dependence {t : Tree Part} {p : List Assignment} (h : WritesProgram t.children p)
    (hb : (analyze t).stop ≠ some .budget) : (analyze t).stop = none ∧
    ∀ x, (∃ v, (analyze t).memory.lookup? x = some v ∧ ((analyze t).memory.trace v).tainted = true) ↔
      dependence p x = true := by
  have hrun : Finishes Memory.empty (fun _ => Knows (dependence p)) (meaningOf t).block := by
    rw [block_meaningOf]
    refine (tick_finishes Memory.empty).bind fun _ n hn => ?_
    rw [children_surface]
    exact program_finishes h (knows_empty.adds hn)
  unfold analyze at hb ⊢
  rcases hrun with hstop | ⟨a, m', hr, hm'⟩
  · exact absurd (by rw [Run.outcome_stop, hstop]) hb
  · have hout : Run.outcome (meaningOf t).block Memory.empty = ⟨none, m'⟩ := by rw [Run.outcome, hr]
    rw [hout]
    refine ⟨rfl, fun x => ?_⟩
    rw [← hm'.tainted x, Memory.traceOf]
    cases hv : m'.lookup? x with
    | none => simp
    | some v => simp

/-- A statement `name = value;`. -/
def assign (name : String) (value : Tree Part) : Tree Part :=
  .plain "expression_statement" "" [
    .plain "assignment_expression" "" [
      .filling "left" "variable_name" name [], .node { value.part with field := some "right" } value.children],
    .node ⟨";", 0, 0, false, none, ";", 0⟩ []]

/-- `$a = $_GET['k']; $b = ($a . $c); $a = $c;` -/
def overwritten : Tree Part :=
  .plain "program" "" [
    .plain "php_tag" "<?php" [],
    assign "$a" (.plain "subscript_expression" "$_GET['k']" [
      .plain "variable_name" "$_GET" [], .plain "string" "'k'" []]),
    assign "$b" (.plain "parenthesized_expression" "($a . $c)" [
      .plain "binary_expression" "$a . $c" [.plain "variable_name" "$a" [], .plain "variable_name" "$c" []]]),
    assign "$a" (.plain "variable_name" "$c" [])]

theorem plainName_of_checks (h : x ≠ "" ∧ '[' ∉ x.toList ∧ x ∉ superglobals) : PlainName x :=
  ⟨h.1, h.2.1, h.2.2⟩

theorem writes_overwritten : WritesProgram overwritten.children
    [⟨"$a", .request⟩, ⟨"$b", .group (.operation (.var "$a") (.var "$c"))⟩, ⟨"$a", .var "$c"⟩] := by
  have ha : PlainName "$a" := plainName_of_checks (by decide)
  have hb : PlainName "$b" := plainName_of_checks (by decide)
  have hc : PlainName "$c" := plainName_of_checks (by decide)
  have assigned {x : String} {value : Tree Part} {e : Expr} (hx : PlainName x)
      (he : Writes (.node { value.part with field := some "right" } value.children) e) :
      WritesAssignment (assign x value) ⟨x, e⟩ := by
    refine .mk (l := .filling "left" "variable_name" x []) rfl rfl ?_ rfl rfl rfl rfl hx he
    exact List.forall_mem_singleton.mpr ⟨rfl, rfl⟩
  refine .mark (by decide) (.statement (assigned ha ?_) (.statement (assigned hb ?_) (.statement (assigned ha ?_) .nil)))
  · exact .entry rfl rfl rfl (by decide) (by decide) (by decide)
  · exact .group rfl rfl (.operation rfl rfl (.var rfl ha) (.var rfl hc))
  · exact .var rfl hc

theorem tainted_iff_dependence_overwritten :
    let p : List Assignment :=
      [⟨"$a", .request⟩, ⟨"$b", .group (.operation (.var "$a") (.var "$c"))⟩, ⟨"$a", .var "$c"⟩]
    (dependence p "$a" = false ∧ dependence p "$b" = true) ∧ (analyze overwritten).stop = none ∧
      ∀ x, (∃ v, (analyze overwritten).memory.lookup? x = some v ∧
        ((analyze overwritten).memory.trace v).tainted = true) ↔ dependence p x = true :=
  ⟨by decide, tainted_iff_dependence writes_overwritten (by decide +kernel)⟩

end SourceAudit.Taint
