/-
# Visits of nodes

To say that an analysis comes to a visit of a node it is watched: a watched tree
(`watched`) has the acts of the tree, but stops at the visits that a predicate describes
(`Reaches`). A watched run and the run itself agree until then. If the run gives a
result in spite of it, then whatever the visit records is among the findings at the end,
since findings are never taken back. That is a comparison of the two runs (`watching`):
both have one memory, and it ends with the visit. So the acts of all nodes keep together
(`paired_watched`).
-/
import SourceAudit.Proofs.Taint.Lockstep

namespace SourceAudit.Taint

open Tree

/-! ### Watched trees -/

/-- How a node is visited. -/
inductive Manner where
  /-- For its value. -/
  | value
  /-- As a statement. -/
  | statement
deriving DecidableEq

/-- A visit of a node from a memory. -/
structure Visit where
  manner : Manner
  node : Tree Part
  memory : Memory

def Visit.run (v : Visit) : Except Stop ValueId × Memory :=
  match v.manner with
  | .value => (meaningOf v.node).eval v.memory
  | .statement => (meaningOf v.node).process v.memory

/-- The run, unless it is a visit that the predicate describes. -/
def stopAt (w : Visit → Bool) (manner : Manner) (n : Tree Part) (r : Run ValueId) : Run ValueId := fun m =>
  if w ⟨manner, n, m⟩ then (.error .fileRead, m) else r m

def watchedRule (w : Visit → Bool) (part : Part) (parts : List Code) : Meaning :=
  let here : Code := .node ⟨part, default⟩ parts
  let upload := uploadRule here
  let process := stopAt w .statement here.bare (processRule here)
  -- the value of an assignment is had by processing it
  let value := if here.kind = "assignment_expression" then do tick; process else evalRule here upload
  let eval := stopAt w .value here.bare value
  ⟨part, { eval, process, block := blockRule here, upload, risky := riskyRule here eval }⟩

/-- A syntax tree with the acts of its nodes, which stop at the visits that the predicate describes. -/
def watched (w : Visit → Bool) (t : Tree Part) : Code :=
  t.decorate (watchedRule w)

/-- The analysis of the program comes to a visit that the predicate describes: if such visits stop it,
it ends otherwise. -/
def Reaches (t : Tree Part) (w : Visit → Bool) : Prop :=
  (Run.outcome (watched w t).block Memory.empty).stop ≠ (analyze t).stop

/-- A node without acts, above the watched nodes below it. -/
def face (w : Visit → Bool) (t : Tree Part) : Code :=
  .node ⟨t.part, default⟩ (t.children.map (watched w))

/-! ### What is read off watched nodes -/

section

variable (w : Visit → Bool) (t : Tree Part)

theorem bare_watched : (watched w t).bare = t := bare_decorate (fun _ _ => rfl) t

@[simp] theorem part_watched : (watched w t).part = t.part := by
  rw [← part_bare (watched w t), bare_watched]

@[simp] theorem isNamed_watched : (watched w t).isNamed = t.isNamed := by
  rw [isNamed, part_watched, isNamed]

theorem preorder_watched : (watched w t).preorder = t.preorder.map (watched w) := by
  induction t using ind with
  | h p cs ih =>
    have hnode : watched w (node p cs) = node (watchedRule w p (cs.map (watched w))) (cs.map (watched w)) :=
      decorate_node _ p cs
    rw [preorder_node, List.map_cons, hnode, preorder_node, List.flatMap_map, List.map_flatMap]
    congr 1
    exact List.flatMap_congr ih

theorem bare_face : (face w t).bare = t := by
  have hcs : t.children.map (bare ∘ watched w) = t.children := by
    conv => rhs; rw [← List.map_id t.children]
    exact List.map_congr_left fun c _ => bare_watched w c
  rw [face, bare_node, List.map_map, hcs]
  cases t
  rfl

theorem kind_face : (face w t).kind = t.kind := rfl

theorem namedChildren_face : (face w t).namedChildren = t.namedChildren.map (watched w) := by
  simp [face, namedChildren, List.filter_map, Function.comp_def]

end

/-! ### Acts of watched nodes -/

section

variable (w : Visit → Bool) (t : Tree Part)

theorem process_watched : (watched w t).process = stopAt w .statement t (processRule (face w t)) := by
  have hact : (watched w t).process = stopAt w .statement (face w t).bare (processRule (face w t)) := by
    cases t
    rw [watched, decorate_node]
    rfl
  rw [hact, bare_face]

theorem eval_watched : (watched w t).eval = stopAt w .value t
    (if t.kind = "assignment_expression" then do tick; (watched w t).process
      else evalRule (face w t) (uploadRule (face w t))) := by
  have hact : (watched w t).eval = stopAt w .value (face w t).bare
      (if t.kind = "assignment_expression" then do tick; (watched w t).process
        else evalRule (face w t) (uploadRule (face w t))) := by
    cases t
    rw [watched, decorate_node]
    rfl
  rw [hact, bare_face]

theorem block_watched : (watched w t).block = blockRule (face w t) := by
  cases t
  rw [watched, decorate_node]
  rfl

theorem upload_watched : (watched w t).upload = uploadRule (face w t) := by
  cases t
  rw [watched, decorate_node]
  rfl

theorem risky_watched : (watched w t).risky = riskyRule (face w t) (watched w t).eval := by
  cases t
  rw [watched, decorate_node]
  rfl

end

theorem evalRule_of_assignment {here : Code} (hk : here.kind = "assignment_expression") (upload : Run (Option ValueId)) :
    evalRule here upload = (do tick; processRule here) := by
  rw [evalRule, expressionRule, hk]
  rfl

/-! ### The comparison -/

/-- A run and the same run watched, from one memory. -/
def watching (p : Finding → Prop) : Comparison where
  World := Memory
  left := id
  right := id
  later := fun _ => Anything
  same := fun _ => Eq
  alike := Eq
  joined := fun _ => Eq
  tooMuch := fun _ => False
  sought := p
  readable := Anything
  writable := Anything
  switches := True
  forgives := Anything
  comments := false

variable {p : Finding → Prop}

theorem suited_watching (t : Tree Part) : SuitedThroughout (watching p) t :=
  ⟨fun _ _ => trivial, fun _ _ => trivial, fun _ _ _ => trivial⟩

section

variable {α : Type} {m : Memory} {Q : Memory → α → α → Prop}

theorem sim_self (hQ : ∀ m a, Q m a a) {r s : Run α} (h : r = s) : (watching p).Sim m Q r s := by
  subst h
  refine Or.inr ⟨(r m).2, trivial, rfl, rfl, ?_⟩
  show Results _ (r m).1 (r m).1
  cases (r m).1 with
  | error e => exact .stop e
  | ok a => exact .ok (hQ _ a)

/-- A run that may be stopped at once, if what it would have done records a finding of the sort. -/
theorem sim_stopAt {w : Visit → Bool} {manner : Manner} {n : Tree Part} {r s : Run ValueId}
    {Q : Memory → ValueId → ValueId → Prop} (h : (watching p).Sim m Q r s)
    (hw : w ⟨manner, n, m⟩ = true → ∀ a m', r m = (.ok a, m') → m'.Has p) :
    (watching p).Sim m Q r (stopAt w manner n s) := by
  by_cases hv : w ⟨manner, n, m⟩ = true
  · refine Or.inl (Or.inl ⟨fun _ => ?_, ?_⟩)
    · show (stopAt w manner n s m).1 = _
      rw [stopAt, if_pos hv]
    · show (∃ e, Anything e ∧ (r m).1 = .error e) ∨ (watching p).Over (r m).2
      rcases hr : r m with ⟨e | a, m'⟩
      · exact Or.inl ⟨e, trivial, rfl⟩
      · exact Or.inr (Or.inr (hw hv a m' hr))
  · refine .of_apply r s rfl ?_ h
    show stopAt w manner n s m = s m
    rw [stopAt, if_neg hv]

/-- Runs that were compared are the same, or the second one was stopped. -/
theorem Comparison.Sim.watched {r s : Run α} (h : (watching p).Sim m Q r s) (hQ : ∀ u a b, Q u a b → a = b) :
    s m = r m ∨ (s m).1 = .error .fileRead ∧ ∀ a m', r m = (.ok a, m') → m'.Has p := by
  rcases h with (⟨hs, h⟩ | ⟨hc, -⟩) | ⟨u, -, hl, hr, h⟩
  · refine Or.inr ⟨hs rfl, fun a m' hr => ?_⟩
    rcases h with ⟨e, -, h⟩ | ⟨_, -, h⟩ | h
    · rw [show r ((watching p).left m) = _ from hr] at h
      cases h
    · exact h.elim
    · rw [show r ((watching p).left m) = _ from hr] at h
      exact h
  · cases hc
  · have hm : (s m).2 = (r m).2 := hr.symm.trans hl
    have hsame : (s m).1 = (r m).1 := by
      change Results _ (r m).1 (s m).1 at h
      generalize (r m).1 = a at h
      generalize (s m).1 = b at h
      cases h with
      | stop e => rfl
      | ok hq => exact congrArg Except.ok (hQ _ _ _ hq).symm
    exact Or.inl (Prod.ext hsame hm)

end

theorem watching_lockstep (p : Finding → Prop) : Lockstep (watching p) where
  refl := fun _ => trivial
  trans := fun _ _ => trivial
  same_later := fun _ h => h
  over_extends := fun _ h => h
  over_note := fun _ h => h
  equal := fun _ => rfl
  tainted := congrArg _
  upload := congrArg _
  merge := congrArg₂ _
  concat := congrArg₂ _
  note := fun _ h => by
    obtain rfl := h
    exact rfl
  decoded := fun name xs ys h hxy => by
    obtain rfl := h
    show decodedTrace name xs _ = decodedTrace name ys _
    simp only [decodedTrace, hxy]
  clip := fun h => nomatch h
  known := fun {m v v'} h => congrArg m.trace h
  lookup := fun {m name} _ => by
    show Option.Rel Eq (m.lookup? name) (m.lookup? name)
    cases m.lookup? name with
    | none => exact .none
    | some v => exact .some rfl
  checked := fun _ => rfl
  count := fun _ => sim_self (fun _ _ => trivial) rfl
  make := fun _ h => sim_self (fun _ _ => rfl) (congrArg fresh h)
  rename := fun _ h => sim_self (fun _ _ => trivial) (congrArg _ h)
  check := fun m xs => ⟨{ m with checked := xs :: m.checked }, rfl, rfl, fun x _ =>
    ⟨{ x with checked := x.checked.drop 1 }, trivial, rfl, rfl⟩⟩
  escape := fun _ h => sim_self (fun _ _ => trivial) (by rw [show _ = _ from h])
  mark := fun h => sim_self (fun _ _ => trivial) (congrArg _ h)
  remark := fun name c d hcd h => sim_self (fun _ _ => trivial) (by
    obtain rfl := h
    cases hcd with
    | none => rfl
    | some hxy => simp only [noteStatement, hxy])
  comment := fun h => nomatch h
  checks := fun {_ c d _ _} hp h => sim_self (fun _ _ => trivial) (by
    have hk : c.kind = d.kind := congrArg Part.kind hp
    cases h with
    | namedSink _ ha hv =>
      obtain rfl := hv
      simp only [checkNamedSink, ha, report_eq hp]
    | query _ ha hv =>
      obtain rfl := hv
      simp only [checkQuery, ha, report_eq hp]
    | sessionWrite _ hv | output _ hv | included hv | uploadDestination hv | unserialize hv =>
      obtain rfl := hv
      simp only [checkSessionWrite, checkOutput, checkInclude, checkUploadDestination, checkUnserialize, hk,
        report_eq hp]
    | dynamicCall _ ht hu hv =>
      obtain ⟨rfl, rfl, rfl⟩ := And.intro ht (And.intro hu hv)
      simp only [checkDynamicCall, report_eq hp]
    | callback _ _ ht hu =>
      obtain ⟨rfl, rfl⟩ := And.intro ht hu
      simp only [checkCallback, report_eq hp])
  restore := fun {w u} _ => ⟨{ u with names := w.names }, trivial, rfl, rfl⟩
  joined_nil := fun _ => rfl
  joined_later := fun _ h => h
  join := fun {m js ks} _ h => congrArg (joinNames m) h
  settle := fun _ h => sim_self (fun _ _ => trivial) (congrArg _ h)

/-! ### Programs -/

section

variable {w : Visit → Bool} (hw : ∀ v, w v = true → ∀ a m', v.run = (.ok a, m') → m'.Has p)

include hw

/-- **The acts of a watched node keep together with its acts until it is stopped.** -/
theorem paired_watched (t : Tree Part) : Paired (watching p) (meaningOf t) (watched w t) := by
  have L := watching_lockstep p
  induction t using ind with
  | h part cs ih =>
    have hcs : Inserted (Paired (watching p)) .nowhere (cs.map meaningOf) (cs.map (watched w)) := .map ih _
    have hB : Below (quietIf false) (Linked (watching p)) (surface (node part cs)) (face w (node part cs)) := ⟨rfl, hcs⟩
    have hb : BelowObey L.over (surface (node part cs)) := by
      intro c hc d hd
      obtain ⟨x, -, rfl⟩ := List.mem_map.mp hc
      exact meaningOf_obeys x (fun n _ => L.over_allows n) d hd
    have hs {t : Tree Part} : Suited (watching p) t := (suited_watching t).suited
    have hprocess (m : Memory) : (watching p).Sim m (fun _ => Eq) (meaningOf (node part cs)).process
        (watched w (node part cs)).process := by
      rw [process_watched]
      refine sim_stopAt ?_ fun hv => hw _ hv
      rw [process_meaningOf]
      exact L.processRule_paired hB hb hs
    have heval (m : Memory) : (watching p).Sim m (fun _ => Eq) (meaningOf (node part cs)).eval
        (watched w (node part cs)).eval := by
      rw [eval_watched]
      refine sim_stopAt ?_ fun hv => hw _ hv
      by_cases hk : (node part cs).kind = "assignment_expression"
      · have hkeep := meaningOf_obeys _ (fun n _ => L.over_allows n) _ (mem_preorder_self (meaningOf (node part cs)))
        rw [if_pos hk, eval_meaningOf, evalRule_of_assignment hk, ← process_meaningOf]
        exact L.tick_bind (hkeep.process (Or.inl trivial)) fun u _ => hprocess u
      · rw [if_neg hk, eval_meaningOf]
        exact L.evalRule_paired hB hb hs
    have hlinked : Linked (watching p) (meaningOf (node part cs)) (watched w (node part cs)) := by
      refine ⟨(nomatch ·), fun _ => heval, fun _ => hprocess, fun _ m => ?_, fun _ m => ?_, fun _ m => ?_⟩
      · rw [block_meaningOf, block_watched]
        exact L.blockRule_paired hB hb fun _ _ => hs
      · rw [upload_meaningOf, upload_watched]
        exact L.uploadRule_paired hB hs
      · rw [risky_meaningOf, risky_watched, ← eval_meaningOf]
        exact L.riskyRule_paired hB hb (suited_watching _) fun _ => heval _
    rw [meaningOf, decorate_node, watched, decorate_node] at hlinked ⊢
    exact .node rfl hlinked hcs

/-- A complete analysis comes to a visit, and what the visit records is found at the end, or the watched
analysis is the same. -/
theorem reaches_or_same {t : Tree Part} (h : (analyze t).stop = none) :
    Reaches t w ∧ (analyze t).memory.Has p ∨
      ¬Reaches t w ∧ (watched w t).block Memory.empty = (meaningOf t).block Memory.empty := by
  have hagree := ((paired_watched hw t).related.block (fun _ _ => (suited_watching _).suited) Memory.empty).watched
    fun _ _ _ _ => rfl
  rw [analyze, Run.outcome_stop] at h
  rw [Reaches, analyze, Run.outcome_stop, Run.outcome_stop, Run.outcome_memory]
  rcases hagree with hsame | ⟨hstopped, hfound⟩
  · right
    rw [hsame]
    exact ⟨fun hne => hne rfl, rfl⟩
  · left
    rcases hr : (meaningOf t).block Memory.empty with ⟨e | a, m'⟩
    · rw [hr] at h
      cases h
    · rw [hstopped]
      exact ⟨by simp, hfound a m' hr⟩

end

end SourceAudit.Taint
