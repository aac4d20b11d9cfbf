/-
# Texts that are put together again

A text may be written in pieces, `'sy' . 'st' . 'em'`, each put behind the one before.
What the analysis knows of such an expression are the texts that it keeps of the pieces
(`eval_chain`): an expression of at most three pieces always fits, one of more than
thirteen never does. A variable that such an expression is assigned to is marked if a
text that is kept names a dangerous function (`assign_chain`).

Every node is visited once, so the budget stops the analysis only if it has no room for
the nodes of the expression (`Costs`).
-/
import Mathlib.Data.List.Flatten
import SourceAudit.Proofs.Taint.KeptTexts
import SourceAudit.Proofs.Taint.StraightLine

namespace SourceAudit.Taint

open Tree Text

variable {ps ls : List String} {s : String} {v : ValueId}

/-! ### How a text in pieces is written -/

/-- The tree writes a string that is not empty and has nothing put into it. -/
structure Literal (t : Tree Part) (s : String) : Prop where
  string : isString t = true
  content : stringContent t = s
  nonempty : s ≠ ""
  pieces : Pieces t.namedChildren []

/-- The tree writes pieces, each put behind those before it. -/
inductive Chain : Tree Part → List String → Prop where
  | literal {t : Tree Part} {s : String} : Literal t s → Chain t [s]
  | concat {t l r : Tree Part} {ps : List String} {s : String} :
      t.kind = "binary_expression" → t.namedChildren = [l, r] → Chain l ps → Literal r s → Chain t (ps ++ [s])

theorem Chain.solid {t : Tree Part} (h : Chain t ps) : Solid ps := by
  induction h with
  | literal h => simpa [Solid] using h.nonempty
  | concat _ _ _ hr ih => exact solid_concat.mpr ⟨ih, hr.nonempty⟩

theorem Chain.ne_nil {t : Tree Part} (h : Chain t ps) : ps ≠ [] := by
  cases h <;> simp

/-! ### What a run costs -/

section

variable {α β : Type} {m : Memory} {j k : Nat} {Q : α → Memory → Prop} {R : β → Memory → Prop}

/-- The run visits at most `n` nodes and gives a result with `Q`, unless the budget has no room for
that many. -/
def Costs (m : Memory) (n : Nat) (Q : α → Memory → Prop) (r : Run α) : Prop :=
  (budget < m.visited + n ∧ (r m).1 = .error .budget) ∨
    ∃ a m', r m = (.ok a, m') ∧ m'.visited ≤ m.visited + n ∧ Q a m'

theorem Costs.ok {r : Run α} {a : α} {m' : Memory} (h : r m = (.ok a, m')) (hv : m'.visited = m.visited)
    (hq : Q a m') : Costs m 0 Q r :=
  Or.inr ⟨a, m', h, by omega, hq⟩

theorem Costs.bind {r : Run α} {f : α → Run β} (hr : Costs m j Q r)
    (hf : ∀ a m', Q a m' → Costs m' k R (f a)) : Costs m (j + k) R (r >>= f) := by
  rcases hr with ⟨hroom, hr⟩ | ⟨a, m', hr, hv, hq⟩
  · left
    rcases hrm : r m with ⟨o, m'⟩
    rw [hrm] at hr
    obtain rfl : o = _ := hr
    exact ⟨by omega, by rw [bind_error hrm]⟩
  · rcases hf a m' hq with ⟨hroom, hstop⟩ | ⟨b, n, hb, hvn, hR⟩
    · exact Or.inl ⟨by omega, by rw [bind_ok hr, hstop]⟩
    · exact Or.inr ⟨b, n, (bind_ok hr).trans hb, by omega, hR⟩

theorem Costs.weaken {Q' : α → Memory → Prop} {r : Run α} (h : Costs m j Q r) (hle : j ≤ k)
    (hq : ∀ a m', Q a m' → Q' a m') : Costs m k Q' r := by
  rcases h with ⟨hroom, hr⟩ | ⟨a, m', hr, hv, h⟩
  · exact Or.inl ⟨by omega, hr⟩
  · exact Or.inr ⟨a, m', hr, by omega, hq a m' h⟩

theorem Costs.exists_ok {r : Run α} (h : Costs m j Q r) (hroom : m.visited + j ≤ budget) :
    ∃ a m', r m = (.ok a, m') ∧ Q a m' := by
  rcases h with ⟨hlt, -⟩ | ⟨a, m', hr, -, hq⟩
  · omega
  · exact ⟨a, m', hr, hq⟩

theorem costs_read {r : Trace → Run β} (h : Costs m k R (r (m.trace v))) : Costs m k R (read v >>= r) := by
  rwa [Costs, read_bind]

end

/-- The later memory knows the same about the values of the earlier one. -/
structure Memory.Retains (m n : Memory) : Prop where
  size : m.store.size ≤ n.store.size
  trace : ∀ v < m.store.size, n.trace v = m.trace v

theorem Memory.Retains.trans {m n o : Memory} (h : m.Retains n) (k : n.Retains o) : m.Retains o where
  size := Nat.le_trans h.size k.size
  trace := fun v hv => (k.trace v (Nat.lt_of_lt_of_le hv h.size)).trans (h.trace v hv)

theorem Memory.Retains.refl (m : Memory) : m.Retains m := ⟨Nat.le_refl _, fun _ _ => rfl⟩

theorem tick_costs (m : Memory) : Costs m 1 (fun _ n => m.Retains n) tick := by
  rw [Costs, tick_apply]
  by_cases h : budget < m.visited + 1
  · exact Or.inl ⟨h, by rw [if_pos h]⟩
  · exact Or.inr ⟨(), { m with visited := m.visited + 1 }, by rw [if_neg h], Nat.le_refl _, Nat.le_refl _,
      fun _ _ => rfl⟩

/-! ### What is known of a text -/

/-- The value is not from a request, is not marked, and may be one of these texts. -/
structure Trace.Spells (ls : List String) (t : Trace) : Prop where
  literals : t.literals = ls
  tainted : t.tainted = false
  callable : t.callable = false

theorem Trace.Spells.merge_empty {t u : Trace} (ht : t.Spells [s]) (hu : u.Spells []) : (t.merge u).Spells [s] where
  literals := by
    rw [Trace.merge, ht.literals, hu.literals]
    rfl
  tainted := by rw [Trace.merge, ht.tainted, hu.tainted]; rfl
  callable := by rw [Trace.merge, ht.callable, hu.callable]; rfl

theorem Trace.Spells.concat {t u : Trace} (ht : t.Spells ls) (hu : u.Spells [s]) :
    (t.concat u).Spells (keepPiece ls s) where
  literals := by
    simp only [Trace.concat, Trace.merge, ht.literals, hu.literals]
    rfl
  tainted := by simp [Trace.concat, Trace.merge, ht.tainted, hu.tainted]
  callable := by simp [Trace.concat, Trace.merge, ht.callable, hu.callable]

/-- A value of a later memory, and the texts that it may be. -/
structure Spelled (m : Memory) (ls : List String) (v : ValueId) (m' : Memory) : Prop where
  retains : m.Retains m'
  lt : v < m'.store.size
  spells : (m'.trace v).Spells ls

theorem Spelled.after {m n m' : Memory} (h : m.Retains n) (hv : Spelled n ls v m') : Spelled m ls v m' :=
  { hv with retains := h.trans hv.retains }

theorem fresh_costs {t : Trace} (h : t.Spells ls) (m : Memory) : Costs m 0 (Spelled m ls) (fresh t) := by
  refine .ok (fresh_apply t m) rfl ⟨⟨by simp, fun v hv => trace_push_lt t hv⟩, by simp, ?_⟩
  rwa [trace_push_size]

/-! ### Pieces -/

section

variable {t : Tree Part} {m : Memory}

theorem leaf_costs (hk : t.kind = "string_content" ∨ t.kind = "escape_sequence") (hl : t.children = []) :
    Costs m 1 (Spelled m []) (meaningOf t).eval := by
  rw [eval_meaningOf, evalRule, expressionRule_of_leaf hk hl]
  exact (tick_costs m).bind fun _ n hn => (fresh_costs ⟨rfl, rfl, rfl⟩ n).weaken (Nat.le_refl _) fun _ _ => .after hn

theorem pieces_cost {cs : List (Tree Part)} {xs : List String} (h : Pieces cs xs) (hxs : xs = []) :
    ∀ {m : Memory} {u : Trace}, u.Spells [s] →
      Costs m cs.length (fun w n => m.Retains n ∧ w.Spells [s]) (mergeRuns u (cs.map fun c => (meaningOf c).eval)) := by
  induction h with
  | nil => exact fun hu => .ok rfl rfl ⟨.refl _, hu⟩
  | @text c cs xs hk hl _ ih =>
    intro m u hu
    rw [List.length_cons, Nat.add_comm]
    refine (leaf_costs hk hl).bind fun v n hv => costs_read ?_
    exact (ih hxs (hu.merge_empty hv.spells)).weaken (Nat.le_refl _) fun w o ⟨ho, hw⟩ => ⟨hv.retains.trans ho, hw⟩
  | var => cases hxs

theorem literal_costs (h : Literal t s) (m : Memory) :
    Costs m (1 + t.namedChildren.length) (Spelled m [s]) (meaningOf t).eval := by
  have hcontent : stringContent (surface t) = s := by
    rw [← stringContent_bare, bare_surface, h.content]
  have hstart : Trace.Spells [s] { literals := if s == "" then [] else [s] } :=
    ⟨by simp [h.nonempty], rfl, rfl⟩
  rw [eval_meaningOf, evalRule, expressionRule_of_string h.string, stringRule, hcontent]
  refine (tick_costs m).bind fun _ n hn => ?_
  rw [namedChildren_surface, List.map_map]
  refine ((pieces_cost h.pieces rfl hstart).bind (k := 0) fun known o ⟨ho, hknown⟩ => ?_)
  have hretains := hn.trans ho
  split
  · obtain ⟨added, hadded⟩ := riskNote_pieces h.pieces o
    have hmarked : Trace.Spells [s] { known with statement := true, transforms := known.transforms ++ added } :=
      ⟨hknown.literals, hknown.tainted, hknown.callable⟩
    rw [Costs, bind_ok hadded]
    exact (fresh_costs hmarked o).weaken (Nat.le_refl _) fun _ _ => Spelled.after hretains
  · exact (fresh_costs hknown o).weaken (Nat.le_refl _) fun _ _ => .after hretains

end

/-! ### Pieces put together -/

theorem length_flatMap_preorder_lt {t : Tree Part} {cs : List (Tree Part)} (h : cs.Sublist t.children) :
    1 + (cs.flatMap preorder).length ≤ t.preorder.length := by
  have hle := (h.flatMap preorder).length_le
  cases t
  rw [preorder_node, List.length_cons]
  rw [children_node] at hle
  omega

theorem length_le_length_flatMap_preorder (cs : List (Tree Part)) : cs.length ≤ (cs.flatMap preorder).length := by
  induction cs with
  | nil => exact Nat.le_refl _
  | cons c cs ih =>
    have hc : 0 < c.preorder.length := by
      cases c
      rw [preorder_node, List.length_cons]
      omega
    rw [List.flatMap_cons, List.length_append, List.length_cons]
    omega

theorem namedChildren_sublist (t : Tree Part) : t.namedChildren.Sublist t.children := List.filter_sublist

theorem length_namedChildren_lt (t : Tree Part) : 1 + t.namedChildren.length ≤ t.preorder.length := by
  have hlt := length_flatMap_preorder_lt (namedChildren_sublist t)
  have hle := length_le_length_flatMap_preorder t.namedChildren
  omega

theorem eval_chain {t : Tree Part} (h : Chain t ps) : ∀ m : Memory,
    Costs m t.preorder.length (Spelled m (keptOf ps)) (meaningOf t).eval := by
  induction h with
  | @literal t s h => exact fun m => (literal_costs h m).weaken (length_namedChildren_lt t) fun _ _ hv => hv
  | @concat t l r ps s hk hc _ hr ih =>
    intro m
    have hsize : 1 + (l.preorder.length + ((1 + r.namedChildren.length) + 0)) ≤ t.preorder.length := by
      have hboth := length_flatMap_preorder_lt (namedChildren_sublist t)
      have hright := length_namedChildren_lt r
      rw [hc, List.flatMap_cons, List.flatMap_singleton, List.length_append] at hboth
      omega
    rw [eval_meaningOf, evalRule, expressionRule_of_binary hk hc, keptOf_concat]
    refine Costs.weaken (Q := Spelled m (keepPiece (keptOf ps) s)) ?_ hsize fun _ _ hv => hv
    refine (tick_costs m).bind fun _ n hn => (ih n).bind fun v o hv => (literal_costs hr o).bind fun w m' hw => ?_
    refine costs_read (costs_read ?_)
    -- the right piece leaves what is known about the left one
    have hleft : (m'.trace v).Spells (keptOf ps) := hw.retains.trace v hv.lt ▸ hv.spells
    exact (fresh_costs (hleft.concat hw.spells) m').weaken (Nat.le_refl _) fun _ _ =>
      .after (hn.trans (hv.retains.trans hw.retains))

/-! ### Assignment -/

/-- The text names a dangerous function, apart from case and leading backslashes. -/
def isDangerous (s : String) : Bool :=
  dangerousNames.contains (stripStartOf '\\' (lower s))

/-- The value is stored under a name; it may be one of the texts, and is marked if one of them is
dangerous. -/
structure Stored (name : String) (ls : List String) (v : ValueId) (m : Memory) : Prop where
  lookup : m.lookup? name = some v
  literals : (m.trace v).literals = ls
  callable : (m.trace v).callable = ls.any isDangerous

theorem markCallable_apply (v : ValueId) (m : Memory) :
    markCallable v m = (.ok (), if (m.trace v).namesDanger then
      { m with store := m.store.modify v fun t => { t with callable := true } } else m) := by
  unfold markCallable
  rw [read_bind]
  by_cases h : (m.trace v).namesDanger = true
  · rw [if_pos h, if_pos h]
    rfl
  · rw [if_neg h, if_neg h]
    rfl

theorem noteStatement_of_untainted {m : Memory} (h : (m.trace v).tainted = false) (name : String)
    (right : Option Code) : noteStatement name right v m = (.ok (), m) := by
  cases right with
  | none => rfl
  | some r =>
    unfold noteStatement
    simp only [read_bind, h, Bool.and_false, Bool.false_eq_true, if_false]
    rfl

theorem storeVariable_spelled {m : Memory} (hv : v < m.store.size)
    (hs : (m.trace v).Spells ls) {l : Tree Part} (hk : l.kind = "variable_name") (hx : l.text ≠ "")
    (right : Option Code) :
    Costs m 0 (fun _ => Stored l.text ls v) (storeVariable (some (meaningOf l)) right v) := by
  have hdanger : (m.trace v).namesDanger = ls.any isDangerous := by
    rw [Trace.namesDanger, hs.literals]
    rfl
  have hmark : ∃ n, markCallable v m = (.ok (), n) ∧ n.visited = m.visited ∧ (n.trace v).literals = ls ∧
      (n.trace v).tainted = false ∧ (n.trace v).callable = ls.any isDangerous := by
    refine ⟨_, markCallable_apply v m, ?_⟩
    by_cases h : (m.trace v).namesDanger = true
    · rw [if_pos h, trace_modify, if_pos ⟨rfl, hv⟩, ← hdanger]
      exact ⟨rfl, hs.literals, hs.tainted, h.symm⟩
    · rw [if_neg h, ← hdanger, hs.callable]
      exact ⟨rfl, hs.literals, hs.tainted, by simpa using h⟩
  obtain ⟨n, hn, hvisited, hliterals, htainted, hcallable⟩ := hmark
  have hlookup : ({ n with names := setName l.text v n.names } : Memory).lookup? l.text = some v := by
    rw [lookup?_setName, if_pos rfl]
  have hstore : storeVariable (some (meaningOf l)) right v m =
      (.ok (), { n with names := setName l.text v n.names }) := by
    unfold storeVariable
    rw [variableName?_of_kind hk]
    show (if l.text != "" then _ else _ : Run Unit) m = _
    rw [if_pos (by simpa using hx), bind_ok hn, bind_ok (bindName_apply l.text v n)]
    refine noteStatement_of_untainted ?_ l.text right
    exact htainted
  exact .ok hstore hvisited ⟨hlookup, hliterals, hcallable⟩

theorem assign_chain {s l t : Tree Part} (hk : s.kind = "assignment_expression")
    (hl : s.field? "left" = some l) (hr : s.field? "right" = some t) (hlk : l.kind = "variable_name")
    (hx : l.text ≠ "") (h : Chain t ps) (m : Memory) :
    Costs m s.preorder.length (Stored l.text (keptOf ps)) (meaningOf s).process := by
  have hsize : 1 + (t.preorder.length + (0 + 0)) ≤ s.preorder.length := by
    have hlt := length_flatMap_preorder_lt (List.singleton_sublist.mpr (List.mem_of_find?_eq_some hr))
    rwa [List.flatMap_singleton] at hlt
  rw [process_meaningOf, processRule, statementRule_of_assignment hk, assignmentRule, field?_surface, field?_surface,
    hl, hr]
  refine Costs.weaken (Q := Stored l.text (keptOf ps)) ?_ hsize fun _ _ hv => hv
  refine (tick_costs m).bind fun _ n _ => (eval_chain h n).bind fun v o hv => ?_
  refine (storeVariable_spelled hv.lt hv.spells hlk hx _).bind fun _ m' hm' => .ok ?_ rfl hm'
  rw [Option.map_some, storeEntry_of_kind hlk]
  rfl

/-- **When a text in pieces is known.** Within its budget the analysis knows the text of all pieces if
and only if it fits; it does with up to three pieces, and not with more than thirteen. A variable that
it is assigned to is marked if that text fits and is dangerous, and only if some text that is put
together from the pieces is. -/
theorem chain_known_iff_fits {t : Tree Part} {ps : List String} (h : Chain t ps) (m : Memory) :
    Costs m t.preorder.length (fun v m' => String.join ps ∈ (m'.trace v).literals ↔ Fits ps) (meaningOf t).eval ∧
    (ps.length ≤ 3 → Fits ps) ∧ (Fits ps → ps.length ≤ maxLiterals + 1) ∧
    ∀ s l : Tree Part, s.kind = "assignment_expression" → s.field? "left" = some l → s.field? "right" = some t →
      l.kind = "variable_name" → l.text ≠ "" →
      Costs m s.preorder.length (fun v m' => m'.lookup? l.text = some v ∧
        (Fits ps → isDangerous (String.join ps) = true → (m'.trace v).callable = true) ∧
        ((m'.trace v).callable = true →
          ∃ x ∈ selections ps, isDangerous x = true ∧ (x = String.join ps → Fits ps))) (meaningOf s).process := by
  have hknown := join_mem_keptOf_iff h.solid h.ne_nil
  refine ⟨?_, fits_of_length_le, length_le_of_fits h.solid, fun s l hk hl hr hlk hx => ?_⟩
  · refine (eval_chain h m).weaken (Nat.le_refl _) fun v m' hv => ?_
    rw [hv.spells.literals]
    exact hknown
  · refine (assign_chain hk hl hr hlk hx h m).weaken (Nat.le_refl _) fun v m' hv => ⟨hv.lookup, ?_, ?_⟩
    · intro hfits hdanger
      rw [hv.callable]
      exact List.any_eq_true.mpr ⟨_, hknown.mpr hfits, hdanger⟩
    · intro hmarked
      rw [hv.callable] at hmarked
      obtain ⟨x, hx, hdanger⟩ := List.any_eq_true.mp hmarked
      refine ⟨x, (keptTexts h.solid).possible x hx, hdanger, ?_⟩
      rintro rfl
      exact hknown.mp hx

/-! ### Small chains -/

def inField (field : String) (t : Tree Part) : Tree Part :=
  .node { t.part with named := true, field := some field } t.children

def quoted (s : String) : Tree Part :=
  .filling "right" "string" ("'" ++ s ++ "'") [.plain "string_content" s []]

/-- Pieces put together, each put behind those before it. -/
def chainOf (p : String) (ps : List String) : Tree Part :=
  ps.foldl (fun t s => .filling "right" "binary_expression" "" [inField "left" t, quoted s]) (quoted p)

def assigning (name : String) (value : Tree Part) : Tree Part :=
  .plain "assignment_expression" "" [.filling "left" "variable_name" name [], value]

theorem literal_quoted (h : s ≠ "") : Literal (quoted s) s := by
  refine ⟨rfl, ?_, h, .text (Or.inl rfl) rfl .nil⟩
  show String.join [s] = s
  simp [String.join_cons]

theorem Chain.inField {t : Tree Part} (field : String) (h : Chain t ps) : Chain (inField field t) ps := by
  cases h with
  | literal h =>
    cases t
    exact .literal ⟨h.string, h.content, h.nonempty, h.pieces⟩
  | concat hk hc hl hr =>
    cases t
    exact .concat hk hc hl hr

theorem chain_chainOf {p : String} (h : Solid (p :: ps)) : Chain (chainOf p ps) (p :: ps) := by
  induction ps using List.reverseRecOn with
  | nil => exact .literal (literal_quoted (h p List.mem_cons_self))
  | append_singleton ps s ih =>
    rw [← List.cons_append] at h ⊢
    obtain ⟨hps, hs⟩ := solid_concat.mp h
    rw [chainOf, List.foldl_concat]
    exact .concat rfl rfl ((ih hps).inField "left") (literal_quoted hs)

/-- `$f = 'sy' . 'st' . 'em'` -/
theorem three_pieces_known : ∃ v m',
    (meaningOf (assigning "$f" (chainOf "sy" ["st", "em"]))).process Memory.empty = (.ok v, m') ∧
      m'.lookup? "$f" = some v ∧ (m'.trace v).callable = true := by
  have hchain : Chain (chainOf "sy" ["st", "em"]) ["sy", "st", "em"] := chain_chainOf (by simp [Solid])
  have h := chain_known_iff_fits hchain Memory.empty
  obtain ⟨v, m', hr, hlookup, hmarked, -⟩ :=
    (h.2.2.2 (assigning "$f" (chainOf "sy" ["st", "em"])) _ rfl rfl rfl rfl (by decide)).exists_ok (by decide)
  exact ⟨v, m', hr, hlookup, hmarked (h.2.1 (by decide)) (by decide +kernel)⟩

/-- `$f = 'sy' . 'st' . 'e' . 'm'`: twelve other texts take the places. -/
theorem four_pieces_lost : Chain (chainOf "sy" ["st", "e", "m"]) ["sy", "st", "e", "m"] ∧
    isDangerous (String.join ["sy", "st", "e", "m"]) = true ∧
    (∃ v m', (meaningOf (chainOf "sy" ["st", "e", "m"])).eval Memory.empty = (.ok v, m') ∧
      String.join ["sy", "st", "e", "m"] ∉ (m'.trace v).literals) ∧
    ∃ v m', (meaningOf (assigning "$f" (chainOf "sy" ["st", "e", "m"]))).process Memory.empty = (.ok v, m') ∧
      m'.lookup? "$f" = some v ∧ (m'.trace v).callable = false := by
  have h : Chain (chainOf "sy" ["st", "e", "m"]) ["sy", "st", "e", "m"] := chain_chainOf (by simp [Solid])
  refine ⟨h, by decide +kernel, ?_, ?_⟩
  · obtain ⟨v, m', hr, hv⟩ := (eval_chain h Memory.empty).exists_ok (by decide)
    refine ⟨v, m', hr, ?_⟩
    rw [hv.spells.literals]
    decide +kernel
  · obtain ⟨v, m', hr, hv⟩ := (assign_chain (s := assigning "$f" (chainOf "sy" ["st", "e", "m"])) rfl rfl rfl rfl
      (by decide) h Memory.empty).exists_ok (by decide)
    refine ⟨v, m', hr, hv.lookup, ?_⟩
    rw [hv.callable]
    decide +kernel

end SourceAudit.Taint
