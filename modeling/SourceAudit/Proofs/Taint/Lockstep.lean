/-
# Nodes run in lockstep

If a comparison keeps two runs together at each step (`Lockstep`), it keeps them
together on every program, also if the second run has a program with comments put into
it: `linked` is one induction over the tree, with one lemma for each rule of the
analysis. The names that a node reads must be readable and those that it assigns
writable (`Suited`).
-/
import SourceAudit.Proofs.Taint.TwoRuns

namespace SourceAudit.Taint

open Tree

variable {F : Comparison}

/-! ### Names that may be used -/

/-- The comparison allows what a node does when it is run. -/
structure Suited (F : Comparison) (t : Tree Part) : Prop where
  reads : ∀ name ∈ readNames t, F.readable name
  writes : ∀ name ∈ assignedNames t, F.writable name
  switches : ∀ n ∈ t.preorder, n.kind = "switch_statement" → F.switches

/-- The comparison allows whatever the nodes of a tree do. -/
structure SuitedThroughout (F : Comparison) (t : Tree Part) : Prop where
  mentions : ∀ name ∈ mentionedNames t, F.readable name
  writes : ∀ name ∈ assignedNames t, F.writable name
  switches : ∀ n ∈ t.preorder, n.kind = "switch_statement" → F.switches

theorem SuitedThroughout.below {t n : Tree Part} (h : SuitedThroughout F t) (hn : n ∈ t.preorder) :
    SuitedThroughout F n where
  mentions := fun name hname => h.mentions name (mentionedNames_trans hn hname)
  writes := fun name hname => h.writes name (assignedNames_trans hn hname)
  switches := fun d hd => h.switches d (mem_preorder_trans hn hd)

theorem SuitedThroughout.suited {t : Tree Part} (h : SuitedThroughout F t) : Suited F t where
  reads := fun name hname => h.mentions name (readNames_subset_mentionedNames hname)
  writes := h.writes
  switches := h.switches

theorem Suited.child {t c : Tree Part} (h : Suited F t) (hc : c ∈ t.children)
    (hk : t.kind ≠ "assignment_expression" ∨ c.part.field = some "right") : Suited F c where
  reads := fun name hname => h.reads name (readNames_subset_of_child hc hk hname)
  writes := fun name hname => h.writes name (assignedNames_trans (mem_preorder_of_mem_children hc) hname)
  switches := fun d hd => h.switches d (mem_preorder_trans (mem_preorder_of_mem_children hc) hd)

theorem Suited.deep {t c : Tree Part} (h : Suited F t) (hk : looksDeep t.kind = true) (hc : c ∈ t.children) :
    SuitedThroughout F c where
  mentions := fun name hname => h.reads name (mentionedNames_subset_readNames hk hc hname)
  writes := fun name hname => h.writes name (assignedNames_trans (mem_preorder_of_mem_children hc) hname)
  switches := fun d hd => h.switches d (mem_preorder_trans (mem_preorder_of_mem_children hc) hd)

section

variable {here : Code}

theorem bare_mem_children {c : Code} (hc : c ∈ here.children) : c.bare ∈ here.bare.children := by
  rw [children_bare]
  exact List.mem_map_of_mem hc

variable (h : Suited F here.bare)

include h

theorem Suited.own {name : String} (hn : name ∈ ownNames here.part) : F.readable name :=
  h.reads name (ownNames_subset_readNames (by rw [part_bare]; exact hn))

theorem Suited.text (hk : here.kind = "variable_name") : F.readable here.text := by
  refine h.own ?_
  rw [ownNames, if_pos (show here.part.kind = _ from hk)]
  exact List.mem_singleton.mpr rfl

theorem Suited.code (hk : here.kind ≠ "assignment_expression") : ∀ c ∈ here.children, Suited F c.bare :=
  fun _ hc => h.child (bare_mem_children hc) (Or.inl (by rw [kind_bare]; exact hk))

theorem Suited.named (hk : here.kind ≠ "assignment_expression") : ∀ c ∈ here.namedChildren, Suited F c.bare :=
  fun c hc => h.code hk c (List.mem_filter.mp hc).1

theorem Suited.codeDeep (hk : looksDeep here.kind = true) : ∀ c ∈ here.children, SuitedThroughout F c.bare :=
  fun _ hc => h.deep (by rw [kind_bare]; exact hk) (bare_mem_children hc)

theorem Suited.argument (hk : looksDeep here.kind = true) : ∀ x ∈ arguments here, Suited F x.bare := by
  intro x hx
  obtain ⟨c, hc, hx⟩ := mem_preorder_of_mem_arguments hx
  exact ((h.codeDeep hk c hc).below (bare_mem_preorder hx)).suited

theorem Suited.assigned (hk : here.kind = "assignment_expression") {name : String}
    (hname : name ∈ (variableName? (here.field? "left")).toList ++ (accessKey? (here.field? "left")).toList) :
    F.writable name := by
  refine h.writes name (mem_assignedNames.mpr ⟨here.bare, mem_preorder_self _, ?_⟩)
  rw [assignedAt, kind_bare, if_pos hk, field?_bare, variableName?_bare, accessKey?_bare]
  exact hname

end

/-! ### Nodes that correspond -/

/-- The acts of a comment. -/
structure Silent (d : Code) : Prop where
  eval : d.eval = do tick; fresh {}
  process : d.process = do tick; fresh {}
  risky : d.risky = pure false

/-- The acts of two nodes keep together, as far as the comparison allows them. -/
structure Linked (F : Comparison) (c d : Code) : Prop where
  silent : F.comments = true → IsComment d → Silent d
  eval : Suited F c.bare → ∀ w, F.Sim w F.same c.eval d.eval
  process : Suited F c.bare → ∀ w, F.Sim w F.same c.process d.process
  block : (∀ x ∈ c.children, Suited F x.bare) → ∀ w, F.Sim w F.Free c.block d.block
  upload : Suited F c.bare → ∀ w, F.Sim w (fun u => Option.Rel (F.same u)) c.upload d.upload
  risky : SuitedThroughout F c.bare → ∀ w, F.Sim w (fun _ => Eq) c.risky d.risky

/-- The two nodes are the same up to comments, and what is below them keeps together. -/
abbrev Paired (F : Comparison) : Code → Code → Prop := Commented (quietIf F.comments) (Linked F)

/-- The second nodes are those of the first list, and comments if the comparison allows them. -/
abbrev Aligned (F : Comparison) : List Code → List Code → Prop := Mixed (Paired F) (F.comments = true)

section

variable {cs ds : List Code}

theorem runs_mixed {act : Code → Run ValueId} (hsilent : ∀ d, Silent d → act d = do tick; fresh {})
    (hact : ∀ c d, Linked F c d → Suited F c.bare → ∀ w, F.Sim w F.same (act c) (act d)) (h : Aligned F cs ds) :
    (∀ c ∈ cs, Suited F c.bare) → (∀ c ∈ cs, Holds F.Over Anything (act c)) →
      F.MixedRuns (cs.map act) (ds.map act) := by
  induction h with
  | nil => exact fun _ _ => .nil
  | comment hc hd hdd _ ih =>
    intro hs hk
    rw [List.map_cons, hsilent _ (hdd.related.silent hc hd)]
    exact .comment hc (ih hs hk)
  | keep hcd _ ih =>
    intro hs hk
    obtain ⟨hs, hss⟩ := List.forall_mem_cons.mp hs
    obtain ⟨hk, hks⟩ := List.forall_mem_cons.mp hk
    exact .keep (hact _ _ hcd.related hs) hk (ih hss hks)

theorem runs_forall₂ {act : Code → Run ValueId}
    (hact : ∀ c d, Linked F c d → Suited F c.bare → ∀ w, F.Sim w F.same (act c) (act d))
    (h : List.Forall₂ (Paired F) cs ds) : (∀ c ∈ cs, Suited F c.bare) →
      List.Forall₂ (fun r s => ∀ w, F.Sim w F.same r s) (cs.map act) (ds.map act) := by
  induction h with
  | nil => exact fun _ => .nil
  | cons hcd _ ih =>
    intro hs
    obtain ⟨hs, hss⟩ := List.forall_mem_cons.mp hs
    exact .cons (hact _ _ hcd.related hs) (ih hss)

theorem aligned_of_forall₂ (h : List.Forall₂ (Paired F) cs ds) : Aligned F cs ds := by
  induction h with
  | nil => exact .nil
  | cons hcd _ ih => exact .keep hcd ih

namespace Lockstep

variable (L : Lockstep F) {w : F.World}

include L

theorem evalAll_paired (h : Aligned F cs ds) (hs : ∀ c ∈ cs, Suited F c.bare)
    (hk : ∀ c ∈ cs, ActsObey L.over c) : F.Sim w F.same (evalAll cs) (evalAll ds) :=
  L.mergedValue (runs_mixed (fun _ hd => hd.eval) (fun _ _ hcd => hcd.eval) h hs
    fun c hc => L.over.any (hk c hc).eval)

theorem processAll_paired (h : Aligned F cs ds) (hs : ∀ c ∈ cs, Suited F c.bare)
    (hk : ∀ c ∈ cs, ActsObey L.over c) : F.Sim w F.same (processAll cs) (processAll ds) :=
  L.mergedValue (runs_mixed (fun _ hd => hd.process) (fun _ _ hcd => hcd.process) h hs
    fun c hc => (hk c hc).process (Or.inl trivial))

theorem evalOption_paired {a b : Option Code} (h : Option.Rel (Paired F) a b) (hs : ∀ c ∈ a, Suited F c.bare) :
    F.Sim w F.same (evalOption a) (evalOption b) := by
  cases h with
  | some hcd => exact hcd.related.eval (hs _ rfl) w
  | none => exact L.tick_bind (L.fresh_holds _) fun u _ => L.make u (L.equal _)

theorem runAll_keeps (hk : ∀ c ∈ cs, ActsObey L.over c) :
    Holds F.Over Anything (runAll (cs.map fun c => do let _ ← c.process)) := by
  refine L.over.runAll (g := 0) fun r hr => ?_
  obtain ⟨c, hc, rfl⟩ := List.mem_map.mp hr
  exact Holds.bind ((hk c hc).process (Or.inl trivial)) fun _ _ => Holds.pure trivial

theorem runAll_paired (h : Aligned F cs ds) : (∀ c ∈ cs, Suited F c.bare) →
    (∀ c ∈ cs, ActsObey L.over c) → ∀ {w : F.World}, F.Sim w F.Free
      (runAll (cs.map fun c => do let _ ← c.process)) (runAll (ds.map fun c => do let _ ← c.process)) := by
  induction h with
  | nil => exact fun _ _ _ => L.pure trivial
  | @comment d cs ds hc hd hdd _ ih =>
    intro hs hk w
    have hskip : F.Sim w F.Free (pure () : Run Unit) (do let _ ← d.process) := by
      rw [(hdd.related.silent hc hd).process]
      exact L.bind (L.comment hc w) (fun _ => Holds.pure trivial) fun _ _ _ _ _ => L.pure trivial
    exact L.bind hskip (fun _ => L.runAll_keeps hk) fun _ _ _ _ _ => ih hs hk
  | keep hcd _ ih =>
    intro hs hk w
    obtain ⟨hs, hss⟩ := List.forall_mem_cons.mp hs
    obtain ⟨_, hks⟩ := List.forall_mem_cons.mp hk
    have hone := L.bind (hcd.related.process hs w) (fun _ => Holds.pure trivial)
      fun u _ _ _ _ => L.pure (Q := F.Free) (w := u) (a := ()) (b := ()) trivial
    exact L.bind hone (fun _ => L.runAll_keeps hks) fun _ _ _ _ _ => ih hss hks

theorem anyRun_paired (h : Aligned F cs ds) :
    (∀ c ∈ cs, SuitedThroughout F c.bare) → (∀ c ∈ cs, ActsObey L.over c) → ∀ {w : F.World},
      F.Sim w (fun _ => Eq) (anyRun (cs.map (·.risky))) (anyRun (ds.map (·.risky))) := by
  induction h with
  | nil => exact fun _ _ _ => L.pure rfl
  | comment hc hd hdd _ ih =>
    intro hs hk w
    rw [List.map_cons, (hdd.related.silent hc hd).risky]
    exact ih hs hk
  | keep hcd _ ih =>
    intro hs hk w
    obtain ⟨hs, hss⟩ := List.forall_mem_cons.mp hs
    obtain ⟨_, hks⟩ := List.forall_mem_cons.mp hk
    refine L.bind (hcd.related.risky hs w) (fun b => ?_) fun u b b' _ hb => ?_
    · refine Holds.ite (fun _ => Holds.pure trivial) fun _ => L.over.anyRun (g := 0) fun r hr => ?_
      obtain ⟨c, hc, rfl⟩ := List.mem_map.mp hr
      exact (hks c hc).risky
    · subst hb
      exact .ite Iff.rfl (fun _ => L.pure rfl) fun _ => ih hss hks

/-! ### Expressions -/

theorem uploadEntry_paired {base base' : Code} (h : Paired F base base') (hs : Suited F base.bare) :
    F.Sim w (fun _ => Eq) (uploadEntry base) (uploadEntry base') := by
  unfold uploadEntry
  refine .ite (by rw [h.toBelow.kind]) (fun _ => ?_) fun _ => .ite (by rw [h.toBelow.kind]) (fun hk => ?_) fun _ => ?_
  · refine L.bind (h.related.upload hs w) (fun v => ?_) fun u v v' _ hv => ?_
    · cases v with
      | none => exact Holds.throw _
      | some v => exact (L.over_invariant.read_holds v).bind fun _ _ => Holds.pure trivial
    · cases hv with
      | none => exact L.throw _
      | some hv => exact L.read_bind hv fun t t' ht => L.pure (L.upload ht)
  · rw [← h.toBelow.text]
    exact L.traceOf_bind (hs.text (eq_of_beq hk)) fun t t' ht => L.pure (L.upload ht)
  · exact L.pure rfl

section

variable {here there : Code} (hB : Below (quietIf F.comments) (Linked F) here there) (hb : BelowObey L.over here)
  {v v' : ValueId}

include hB hb

theorem blockRule_paired (hs : ∀ c ∈ here.children, Suited F c.bare) :
    F.Sim w F.Free (blockRule here) (blockRule there) := by
  have hmixed := hB.mixed.filter (p := (!isFiller ·)) (fun _ _ hcd => by simp only [isFiller, hcd.toBelow.kind])
    fun d hd => by simp [isFiller, hd.kind]
  have hmem : ∀ {c}, c ∈ here.children.filter (!isFiller ·) → c ∈ here.children := fun hc => (List.mem_filter.mp hc).1
  refine L.tick_bind (L.runAll_keeps fun c hc => hb.child (hmem hc)) fun u _ => ?_
  exact L.runAll_paired hmixed (fun c hc => hs c (hmem hc)) fun c hc => hb.child (hmem hc)

variable (hs : Suited F here.bare)

include hs

omit hb in
theorem uploadRule_paired : F.Sim w (fun u => Option.Rel (F.same u)) (uploadRule here) (uploadRule there) := by
  have wrap : ∀ {w : F.World} {t u : Trace}, F.alike t u → F.Sim w (fun u => Option.Rel (F.same u))
      (do return some (← fresh t)) (do return some (← fresh u)) := fun ha =>
    L.bind (L.make _ ha) (fun _ => Holds.pure trivial) fun _ _ _ _ hv => L.pure (.some hv)
  unfold uploadRule
  refine .ite (by rw [hB.kind]) (fun _ => L.pure .none) fun hk => ?_
  have hk : here.kind = "subscript_expression" := by simpa using hk
  have hbase := hB.subscriptBase? hk
  have hmem : ∀ base ∈ subscriptBase? here, base ∈ here.children := fun _ => mem_children_of_subscriptBase?
  generalize subscriptBase? here = x at hbase hmem
  generalize subscriptBase? there = y at hbase
  cases hbase with
  | none => exact L.pure .none
  | @some base base' h =>
    dsimp only
    refine .ite (by rw [h.toBelow.kind, h.toBelow.text]) (fun _ => ?_) fun _ => ?_
    · rw [hB.text]
      exact wrap (L.equal _)
    · have hsuited : Suited F base.bare := hs.code (by rw [hk]; decide) base (hmem base rfl)
      refine L.bind (L.uploadEntry_paired h hsuited) (fun entry => ?_) fun u entry entry' _ he => ?_
      · exact Holds.ite (fun _ => (L.fresh_holds _).bind fun _ _ => Holds.pure trivial) fun _ => Holds.pure trivial
      · subst he
        refine .ite Iff.rfl (fun _ => ?_) fun _ => L.pure .none
        have hpart : uploadPart here = uploadPart there := by
          simp only [uploadPart, hB.subscriptKey?, hB.text]
        rw [hpart]
        exact wrap (L.equal _)

omit hb in
theorem variableRule_paired (hk : here.kind = "variable_name") :
    F.Sim w F.same (variableRule here) (variableRule there) := by
  unfold variableRule
  rw [← hB.text]
  refine .ite Iff.rfl (fun _ => L.make w (L.equal _)) fun _ => L.lookup_bind (hs.text hk) fun x y hxy => ?_
  cases hxy with
  | none => exact L.make w (L.equal _)
  | some hv => exact L.pure hv

theorem subscriptValue_paired (hk : here.kind = "subscript_expression") :
    F.Sim w F.same (subscriptValue here) (subscriptValue there) := by
  have hkey : Text.removeBlanks here.text ∈ ownNames here.part := by
    have hk : here.part.kind = "subscript_expression" := hk
    rw [ownNames, hk]
    exact List.mem_singleton.mpr rfl
  have hne : here.kind ≠ "assignment_expression" := by rw [hk]; decide
  have hchosen : clientChosen? here = clientChosen? there := by
    simp only [clientChosen?, hB.hasBase hk, hB.subscriptKey?]
  have hfiles : isFilesEntry here = isFilesEntry there := by
    simp only [isFilesEntry, hB.hasBase hk, hB.subscriptKey?]
  have hentry : isSuperglobalEntry here = isSuperglobalEntry there := by
    simp only [isSuperglobalEntry, hB.hasBase hk]
  unfold subscriptValue
  rw [← hB.text, ← hchosen, ← hfiles, ← hentry]
  refine L.isChecked_bind fun checked => L.lookup_bind (hs.own hkey) fun x y hxy => ?_
  refine .ite Iff.rfl (fun _ => L.make w (L.equal _)) fun _ => ?_
  have hstored : Option.Rel (F.same w) (if Text.removeBlanks here.text == "" then none else x)
      (if Text.removeBlanks here.text == "" then none else y) := by
    split
    · exact .none
    · exact hxy
  generalize (if Text.removeBlanks here.text == "" then none else x) = x at hstored
  generalize (if Text.removeBlanks here.text == "" then none else y) = y at hstored
  cases hstored with
  | some hv => exact L.pure hv
  | none =>
    dsimp only
    split
    · exact L.make w (L.equal _)
    · exact L.make w (L.equal _)
    · refine .ite Iff.rfl (fun _ => L.make w (L.equal _)) fun _ => .ite Iff.rfl (fun _ => L.make w (L.equal _)) fun _ => ?_
      exact L.evalAll_paired hB.mixed (hs.code hne) fun _ hc => hb.child hc

theorem subscriptRule_paired (hk : here.kind = "subscript_expression") :
    F.Sim w F.same (subscriptRule here (uploadRule here)) (subscriptRule there (uploadRule there)) := by
  refine L.bind (L.uploadRule_paired hB hs) (fun v => ?_) fun u v v' _ hv => ?_
  · cases v with
    | some v => exact Holds.pure trivial
    | none => exact L.over.any (L.over.subscriptValue_obeys (g := 0) hb (L.over_allows _) hk)
  · cases hv with
    | some hv => exact L.pure hv
    | none => exact L.subscriptValue_paired hB hb hs hk

theorem castRule_paired (hne : here.kind ≠ "assignment_expression") :
    F.Sim w F.same (castRule here) (castRule there) := by
  have htype := hB.childOfKind? (k := "cast_type") (by decide)
  have hmixed := hB.named.filter (p := (·.kind != "cast_type")) (fun _ _ hcd => by rw [hcd.toBelow.kind])
    fun d hd => by simp [hd.kind]
  have hmem : ∀ {c}, c ∈ here.namedChildren.filter (·.kind != "cast_type") → c ∈ here.namedChildren :=
    fun hc => (List.mem_filter.mp hc).1
  unfold castRule
  generalize here.childOfKind? "cast_type" = x at htype
  generalize there.childOfKind? "cast_type" = y at htype
  have heq : (x.map fun c => Text.lower c.text) = y.map fun c => Text.lower c.text := by
    cases htype with
    | none => rfl
    | some hcd => simp [hcd.toBelow.text]
  rw [heq]
  refine .ite Iff.rfl (fun _ => L.make w (L.equal _)) fun _ => ?_
  exact L.evalAll_paired hmixed (fun c hc => hs.named hne c (hmem hc)) fun c hc => hb.named c (hmem hc)

theorem binaryRule_paired (hk : here.kind = "binary_expression") :
    F.Sim w F.same (binaryRule here) (binaryRule there) := by
  have hne : here.kind ≠ "assignment_expression" := by rw [hk]; decide
  have operand : ∀ {w : F.World} {i : Nat}, i < 2 → F.Sim w F.same (evalOption here.namedChildren[i]?)
      (evalOption there.namedChildren[i]?) := fun hi => by
    refine L.evalOption_paired (hB.operand (by rw [hk]; exact hi)) fun c hc => ?_
    exact hs.named hne c (List.mem_of_getElem? hc)
  have keep : ∀ v v', Holds F.Over Anything (do fresh ((← read v).concat (← read v'))) := fun v v' =>
    (L.over_invariant.read_holds v).bind fun _ _ => (L.over_invariant.read_holds v').bind fun _ _ => L.fresh_holds _
  refine L.bind (operand (by decide)) (fun v => ?_) fun u v v' hu hv => ?_
  · refine Holds.bind (L.over.evalOption fun c hc => ?_) fun _ _ => keep _ _
    exact hb.named c (List.mem_of_getElem? hc)
  · refine L.bind (operand (by decide)) (fun _ => keep _ _) fun x r r' hx hr => ?_
    exact L.read_bind (L.same_later hx hv) fun t t' ht => L.read_bind hr fun q q' hq => L.make x (L.concat ht hq)

omit L hB hb hs in
theorem conditionalRule_eq (here : Code) : conditionalRule here =
    match here.namedChildren[0]?, here.namedChildren[2]? with
    | some test, some other =>
      if isValidatorCall test then do
        let v ← other.eval
        if (← read v).tainted then evalAll here.namedChildren
        else fresh { transforms := [Text.lower ((methodName? test).getD "validator")] }
      else evalAll here.namedChildren
    | _, _ => evalAll here.namedChildren := by
  unfold conditionalRule
  dsimp only
  rcases here.namedChildren with _ | ⟨a, _ | ⟨b, _ | ⟨c, rest⟩⟩⟩ <;> rfl

theorem conditionalRule_paired (hk : here.kind = "conditional_expression") :
    F.Sim w F.same (conditionalRule here) (conditionalRule there) := by
  have hne : here.kind ≠ "assignment_expression" := by rw [hk]; decide
  have hall : ∀ {w : F.World}, F.Sim w F.same (evalAll here.namedChildren) (evalAll there.namedChildren) :=
    L.evalAll_paired hB.named (hs.named hne) hb.named
  have htest := hB.operand (i := 0) (by rw [hk]; decide)
  have hother := hB.operand (i := 2) (by rw [hk]; decide)
  have hmem : ∀ c ∈ here.namedChildren[2]?, Suited F c.bare := fun c hc =>
    hs.named hne c (List.mem_of_getElem? hc)
  rw [conditionalRule_eq, conditionalRule_eq]
  generalize here.namedChildren[0]? = x at htest
  generalize there.namedChildren[0]? = x' at htest
  generalize here.namedChildren[2]? = y at hother hmem
  generalize there.namedChildren[2]? = y' at hother
  cases htest with
  | none => exact hall
  | some htest =>
    cases hother with
    | none => exact hall
    | some hother =>
      dsimp only
      rw [← htest.toBelow.isValidatorCall, ← htest.toBelow.methodName?]
      refine .ite Iff.rfl (fun _ => ?_) fun _ => hall
      refine L.value_bind (hother.related.eval (hmem _ rfl) w) (fun t => ?_) fun u t t' _ ht => ?_
      · exact Holds.ite (fun _ => L.over.evalAll (g := 0) hb.named) fun _ => L.fresh_holds _
      · exact .ite (by rw [L.tainted ht]) (fun _ => hall) fun _ => L.make u (L.equal _)

omit hs in
theorem riskyParts_paired (hdeep : ∀ c ∈ here.namedChildren, SuitedThroughout F c.bare) :
    F.Sim w (fun _ => Eq) (riskyParts here) (riskyParts there) :=
  L.anyRun_paired hB.named hdeep hb.named

theorem stringRule_paired (hk : isString here = true) : F.Sim w F.same (stringRule here) (stringRule there) := by
  have hdeep : looksDeep here.kind = true := by
    simp only [looksDeep, show stringKinds.contains here.kind = true from hk, Bool.true_or]
  have hbelow : ∀ c ∈ here.namedChildren, SuitedThroughout F c.bare := fun c hc =>
    hs.codeDeep hdeep c (List.mem_filter.mp hc).1
  have hruns := runs_mixed (fun _ hd => hd.eval) (fun _ _ hcd => hcd.eval) hB.named
    (fun c hc => (hbelow c hc).suited) fun c hc => L.over.any (hb.named c hc).eval
  have hnote : ∀ {w : F.World}, F.Sim w (fun _ => Eq) (riskNote here) (riskNote there) :=
    L.bind (L.riskyParts_paired hB hb hbelow) (fun _ => Holds.pure trivial) fun _ _ _ _ h => by
      subst h
      exact L.pure rfl
  have hnoteKeep : Holds F.Over Anything (riskNote here) :=
    Holds.bind (L.over.riskyParts_obeys hb) fun _ _ => Holds.pure trivial
  unfold stringRule
  rw [hB.stringContent, ← hB.text]
  refine L.bind (L.mergeRuns_near hruns (Or.inl (L.equal _))) (fun known => ?_) fun u known known' _ hn => ?_
  · exact Holds.ite (fun _ => hnoteKeep.bind fun _ _ => L.fresh_holds _) fun _ => L.fresh_holds _
  · refine .ite Iff.rfl (fun _ => ?_) fun _ => L.make_near hn
    refine L.bind hnote (fun _ => L.fresh_holds _) fun x added added' _ heq => ?_
    subst heq
    exact L.make_note hn added

omit hs in
/-- A subscript or an access is risky if it is tainted, or else if its first part is risky. -/
theorem riskyAccess_paired (hbelow : ∀ c ∈ here.namedChildren, SuitedThroughout F c.bare)
    (hk : here.kind = "subscript_expression" ∨ 0 < operandCount here.kind) {r s : Run ValueId}
    (hrs : ∀ w, F.Sim w F.same r s) : F.Sim w (fun _ => Eq) (riskyAccess here r) (riskyAccess there s) := by
  have hhead := hB.head? hk
  have hmem : ∀ c ∈ here.namedChildren.head?, c ∈ here.namedChildren := fun _ hc => List.mem_of_head? hc
  unfold riskyAccess
  generalize here.namedChildren.head? = x at hhead hmem
  generalize there.namedChildren.head? = y at hhead
  refine L.value_bind (hrs w) (fun t => ?_) fun u t t' _ ht => ?_
  · refine Holds.ite (fun _ => Holds.pure trivial) fun _ => ?_
    cases x with
    | none => exact Holds.pure trivial
    | some base => exact (hb.named base (hmem base rfl)).risky
  · refine .ite (by rw [L.tainted ht]) (fun _ => L.pure rfl) fun _ => ?_
    cases hhead with
    | none => exact L.pure rfl
    | some hbase => exact hbase.related.risky (hbelow _ (hmem _ rfl)) u

omit hs in
theorem riskyRule_paired (hdeep : SuitedThroughout F here.bare) {r s : Run ValueId}
    (hrs : ∀ w, F.Sim w F.same r s) : F.Sim w (fun _ => Eq) (riskyRule here r) (riskyRule there s) := by
  have hbelow : ∀ c ∈ here.namedChildren, SuitedThroughout F c.bare := fun c hc =>
    hdeep.below (bare_mem_preorder (mem_preorder_of_mem_children (List.mem_filter.mp hc).1))
  unfold riskyRule
  rw [← hB.kind]
  split
  · rename_i hk
    rw [← hB.text]
    refine .ite Iff.rfl (fun _ => L.pure rfl) fun _ => ?_
    exact L.traceOf_bind (hdeep.suited.text hk) fun t t' ht => L.pure (L.tainted ht)
  · rename_i hk
    exact L.riskyAccess_paired hB hb hbelow (Or.inl hk) hrs
  · rename_i hk
    exact L.riskyAccess_paired hB hb hbelow (Or.inr (by rw [hk]; decide)) hrs
  · exact L.riskyParts_paired hB hb hbelow

/-! ### Calls -/

theorem callbackRule_paired (hk : here.kind = "function_call_expression") (name : String) :
    F.Sim w F.Free (callbackRule here name) (callbackRule there name) := by
  have hdeep : looksDeep here.kind = true := by rw [hk]; decide
  have hargs := hB.arguments
  have hsuited := hs.argument hdeep
  have hkeep := hb.argument
  unfold callbackRule
  generalize arguments here = xs at hargs hsuited hkeep
  generalize arguments there = ys at hargs
  cases hargs with
  | nil => exact L.pure trivial
  | @cons first first' others others' hfirst hothers =>
    dsimp only
    rw [← hfirst.toBelow.literal?, ← variableName?_rel (.some hfirst)]
    obtain ⟨hsf, hso⟩ := List.forall_mem_cons.mp hsuited
    obtain ⟨_, hko⟩ := List.forall_mem_cons.mp hkeep
    have hevals : ∀ r ∈ others.map (·.eval), Holds F.Over Anything r := by
      intro r hr
      obtain ⟨c, hc, rfl⟩ := List.mem_map.mp hr
      exact L.over.any (hko c hc).eval
    have hcheck : ∀ callback t u, Holds F.Over Anything (checkCallback here name callback t u) := fun _ _ _ =>
      L.over_invariant.checkCallback_holds trivial vouched_anything hk name _ trivial trivial
    refine L.bind (hfirst.related.eval hsf w) (fun v => ?_) fun u v v' _ hv => ?_
    · refine (L.mergeRuns_holds hevals _).bind fun rest _ => (L.over_invariant.read_holds v).bind fun _ _ => ?_
      exact hcheck _ _ _
    · have hrest := L.mergeRuns_alike (runs_forall₂ (fun _ _ hcd => hcd.eval) hothers hso) hevals (w := u)
        (L.equal {})
      refine L.bind hrest (fun _ => (L.over_invariant.read_holds v).bind fun _ _ => hcheck _ _ _) ?_
      intro x rest rest' hx hr
      exact L.read_bind (L.same_later hx hv) fun t t' ht => L.checks hB.part (.callback name _ ht hr)

omit hb in
theorem moveRule_paired (hk : here.kind = "function_call_expression") :
    F.Sim w F.Free (moveRule here) (moveRule there) := by
  have hdeep : looksDeep here.kind = true := by rw [hk]; decide
  have hargs := hB.arguments
  have hsuited := hs.argument hdeep
  unfold moveRule
  generalize arguments here = xs at hargs hsuited
  generalize arguments there = ys at hargs
  cases hargs with
  | nil => exact L.pure trivial
  | cons _ hrest =>
    cases hrest with
    | nil => exact L.pure trivial
    | cons hdest =>
      refine L.bind (hdest.related.eval (hsuited _ (by simp)) w) (fun v => ?_) fun u v v' _ hv => ?_
      · exact L.over_invariant.checkUploadDestination_holds trivial hk v
      · exact L.checks hB.part (.uploadDestination hv)

theorem checkCall_paired (hk : here.kind = "function_call_expression") (name : String) (hv : F.same w v v') :
    F.Sim w F.Free (checkCall here name v) (checkCall there name v') := by
  have hsink := L.checks hB.part (.namedSink name (evaluatesReplacement_rel hB.arguments) hv)
  refine L.bind hsink (fun _ => ?_) fun u _ _ _ _ => ?_
  · exact Holds.ite (fun _ => L.over.callbackRule_obeys hb (L.over_allows _) hk name)
      fun _ => Holds.pure trivial
  · exact .ite Iff.rfl (fun _ => L.callbackRule_paired hB hb hs hk name) fun _ => L.pure trivial

omit hb hs in
theorem passedValue_paired (name : String) (hv : F.same w v v') :
    F.Sim w F.same (passedValue here name v) (passedValue there name v') := by
  unfold passedValue
  refine .ite Iff.rfl (fun _ => L.make w (L.equal _)) fun _ => .ite Iff.rfl (fun _ => ?_) fun _ =>
    .ite Iff.rfl (fun _ => ?_) fun _ => L.pure hv
  · exact L.read_bind hv fun t t' ht => L.make w (L.decoded name ht (decodedLiterals_rel hB.arguments name))
  · exact L.then_return (L.escape name hv) hv

omit hb hs in
theorem callResult_paired (name : String) (hv : F.same w v v') :
    F.Sim w F.same (callResult here name v) (callResult there name v') := by
  have hlength : (arguments here).length = (arguments there).length := hB.arguments.length_eq
  unfold callResult
  rw [hlength, hB.text]
  refine .ite Iff.rfl (fun _ => L.make w (L.equal _)) fun _ => .ite Iff.rfl (fun _ => L.make w (L.equal _)) fun _ =>
    .ite Iff.rfl (fun _ => ?_) fun _ => L.passedValue_paired hB name hv
  refine L.bind (L.checks hB.part (.unserialize hv)) (fun _ => ?_) fun u _ _ hu _ => ?_
  · exact L.over.passedValue_obeys (g := 0) trivial name
  · exact L.passedValue_paired hB name (L.same_later hu hv)

theorem namedCallRule_paired (hk : here.kind = "function_call_expression") {f : String}
    (hf : functionName? (here.field? "function") = some f) (hv : F.same w v v') :
    F.Sim w F.same (namedCallRule here (Text.lower f) v) (namedCallRule there (Text.lower f) v') := by
  unfold namedCallRule
  rw [readsBody_rel hB.arguments, hB.text]
  refine .ite Iff.rfl (fun _ => L.make w (L.equal _)) fun _ => .ite Iff.rfl (fun _ => ?_) fun _ =>
    .ite Iff.rfl (fun _ => L.throw _) fun _ => .ite Iff.rfl (fun _ => ?_) fun _ => ?_
  · exact L.then_fresh (L.moveRule_paired hB hs hk) (Or.inl (L.equal _))
  · exact L.then_fresh (L.checks hB.part (.query _ (isParameterized_rel hB.arguments) hv)) (Or.inl (L.equal _))
  · refine L.bind (L.checkCall_paired hB hb hs hk _ hv) (fun _ => ?_) fun u _ _ hu _ => ?_
    · exact L.over.callResult_obeys (L.over_allows _) hk trivial hf
    · exact L.callResult_paired hB _ (L.same_later hu hv)

theorem calledValue_paired (hk : here.kind = "function_call_expression") (hv : F.same w v v') :
    F.Sim w F.same (calledValue here v) (calledValue there v') := by
  have hdeep : looksDeep here.kind = true := by rw [hk]; decide
  have hcallee := hB.field? "function"
  unfold calledValue
  rw [← functionName?_rel hcallee, ← variableName?_rel hcallee]
  split
  · rename_i f hf
    exact .ite Iff.rfl (fun _ => L.namedCallRule_paired hB hb hs hk hf hv) fun _ => L.pure hv
  · split
    · rename_i name hname
      have hread : F.readable name := by
        obtain ⟨callee, hfound, hvar, rfl⟩ : ∃ c, here.field? "function" = some c ∧ c.kind = "variable_name" ∧
            c.text = name := by
          unfold variableName? at hname
          split at hname
          · rename_i c hc
            exact ⟨c, hc, by simpa using hname⟩
          · simp at hname
        have hmem : callee ∈ here.children := List.mem_of_find?_eq_some hfound
        exact (hs.codeDeep hdeep callee hmem).suited.text hvar
      refine L.traceOf_bind hread fun t t' ht => L.read_bind hv fun q q' hq => ?_
      exact L.then_fresh (L.checks hB.part (.dynamicCall name ht hq hv)) (Or.inl (L.equal _))
    · exact L.pure hv

theorem callRule_paired (hk : here.kind = "function_call_expression") :
    F.Sim w F.same (callRule here) (callRule there) := by
  have hdeep : looksDeep here.kind = true := by rw [hk]; decide
  have hargs := L.evalAll_paired (w := w) (aligned_of_forall₂ hB.arguments) (hs.argument hdeep) hb.argument
  refine L.bind hargs (fun v => ?_) fun u v v' _ hv => L.calledValue_paired hB hb hs hk hv
  exact L.over.calledValue_obeys hb (L.over_allows _) hk trivial

omit hb hs in
theorem methodValue_paired (hv : F.same w v v') : F.Sim w F.same (methodValue here v) (methodValue there v') := by
  unfold methodValue
  rw [← hB.methodName?]
  split
  · exact L.pure hv
  · rename_i name _
    have hreads : readsRequest here name = readsRequest there name := by
      rw [readsRequest, readsRequest, hB.text]
    rw [hreads, hB.text]
    refine .ite Iff.rfl (fun _ => L.pure hv) fun _ => .ite Iff.rfl (fun _ => L.make w (L.equal _)) fun _ =>
      .ite Iff.rfl (fun _ => L.make w (L.equal _)) fun _ => .ite Iff.rfl (fun _ => ?_) fun _ => L.pure hv
    exact L.then_fresh (L.checks hB.part (.query _ (isParameterized_rel hB.arguments) hv)) (Or.inl (L.equal _))

theorem methodCallRule_paired (hk : here.kind = "member_call_expression") :
    F.Sim w F.same (methodCallRule here) (methodCallRule there) := by
  have hdeep : looksDeep here.kind = true := by rw [hk]; decide
  have hargs := L.evalAll_paired (w := w) (aligned_of_forall₂ hB.arguments) (hs.argument hdeep) hb.argument
  refine L.bind hargs (fun v => ?_) fun u v v' _ hv => L.methodValue_paired hB hv
  exact L.over.methodValue_obeys (L.over_allows _) hk trivial

/-! ### Statements -/

omit hb in
theorem storeVariable_paired (hk : here.kind = "assignment_expression") (hv : F.same w v v') :
    F.Sim w F.Free (storeVariable (here.field? "left") (here.field? "right") v)
      (storeVariable (there.field? "left") (there.field? "right") v') := by
  have htexts : Option.Rel (fun x y => x.text = y.text) (here.field? "right") (there.field? "right") := by
    have hright := hB.field? "right"
    generalize here.field? "right" = x at hright
    generalize there.field? "right" = y at hright
    cases hright with
    | none => exact .none
    | some hcd => exact .some hcd.toBelow.text
  unfold storeVariable
  rw [← variableName?_rel (hB.field? "left")]
  split
  · rename_i name hname
    have hwrite : F.writable name := hs.assigned hk (by simp [hname])
    have keep : Holds F.Over Anything (noteStatement name (here.field? "right") v) :=
      L.over_invariant.noteStatement_holds _ _ v
    refine .ite Iff.rfl (fun _ => ?_) fun _ => L.pure trivial
    refine L.bind (L.mark hv) (fun _ => (L.over_invariant.bindName_holds _ v).bind fun _ _ => keep) ?_
    intro u _ _ hu _
    refine L.bind (L.rename hwrite (L.same_later hu hv)) (fun _ => keep) fun x _ _ hx _ => ?_
    exact L.remark name htexts (L.same_later hx (L.same_later hu hv))
  · exact L.pure trivial

omit hb in
theorem storeEntry_paired (hk : here.kind = "assignment_expression") (hv : F.same w v v') :
    F.Sim w F.Free (storeEntry here (here.field? "left") v) (storeEntry there (there.field? "left") v') := by
  unfold storeEntry
  rw [← accessKey?_rel (hB.field? "left")]
  split
  · rename_i key hkey
    have hwrite : F.writable key := hs.assigned hk (by simp [hkey])
    refine .ite Iff.rfl (fun _ => ?_) fun _ => L.pure trivial
    refine L.bind (L.checks hB.part (.sessionWrite key hv)) (fun _ => L.over_invariant.bindName_holds _ v) ?_
    exact fun u _ _ hu _ => L.rename hwrite (L.same_later hu hv)
  · exact L.pure trivial

omit hb in
theorem assignmentRule_paired (hk : here.kind = "assignment_expression") :
    F.Sim w F.same (assignmentRule here) (assignmentRule there) := by
  have hright := hB.field? "right"
  have hvalue : F.Sim w F.same (assignedValue (here.field? "right")) (assignedValue (there.field? "right")) := by
    have hsuited : ∀ r ∈ here.field? "right", Suited F r.bare := fun r hr => by
      have hfield : r.part.field = some "right" := by simpa using List.find?_some hr
      exact hs.child (bare_mem_children (List.mem_of_find?_eq_some hr)) (Or.inr (by rw [part_bare]; exact hfield))
    generalize here.field? "right" = x at hright hsuited
    generalize there.field? "right" = y at hright
    cases hright with
    | none => exact L.make w (L.equal _)
    | some hr => exact hr.related.eval (hsuited _ rfl) w
  have keep : ∀ v, Holds F.Over Anything (do
      storeEntry here (here.field? "left") v
      return v) := fun v =>
    Holds.bind (L.over.storeEntry_obeys (L.over_allows _) hk (fun _ _ => trivial) trivial) fun _ _ => Holds.pure trivial
  refine L.bind hvalue (fun v => Holds.bind (L.over.storeVariable_obeys (fun _ _ => trivial) trivial) fun _ _ => keep v) ?_
  intro u v v' _ hv
  refine L.bind (L.storeVariable_paired hB hs hk hv) (fun _ => keep v) fun x _ _ hx _ => ?_
  exact L.then_return (L.storeEntry_paired hB hs hk (L.same_later hx hv)) (L.same_later hx hv)

omit L hb hs in
theorem condition_paired :
    Option.Rel (Paired F) (here.children.find? isCondition) (there.children.find? isCondition) :=
  hB.mixed.find? (fun _ _ hcd => by simp only [isCondition, hcd.toBelow.isNamed, hcd.toBelow.kind])
    fun d hd => by simp [isCondition, hd.kind]

omit hb in
theorem conditionTrace_paired (hne : here.kind ≠ "assignment_expression") :
    F.Sim w (fun _ => F.alike) (conditionTrace (here.children.find? isCondition))
      (conditionTrace (there.children.find? isCondition)) := by
  have hcondition := condition_paired hB
  have hmem : ∀ c ∈ here.children.find? isCondition, Suited F c.bare := fun c hc =>
    hs.code hne c (List.mem_of_find?_eq_some hc)
  generalize here.children.find? isCondition = x at hcondition hmem
  generalize there.children.find? isCondition = y at hcondition
  cases hcondition with
  | none => exact L.pure (L.equal _)
  | some hcd =>
    refine L.bind (hcd.related.eval (hmem _ rfl) w) (fun v => (L.over_invariant.read_holds v).any) ?_
    exact fun u v v' _ hv => L.read_paired hv

omit L hb hs in
theorem branches_aligned : Aligned F (branches here) (branches there) := by
  refine (hB.mixed.eraseP (fun _ _ hcd => ?_) fun d hd => ?_).filter (fun _ _ hcd => hcd.toBelow.isNamed)
    fun _ hd => hd.named
  · simp only [isCondition, hcd.toBelow.isNamed, hcd.toBelow.kind]
  · simp [isCondition, hd.kind]

end

theorem ifBranches_paired (checked : List String) (h : Aligned F cs ds) :
    (∀ c ∈ cs, Suited F c.bare) → (∀ c ∈ cs, ActsObey L.over c) → ∀ {w : F.World} {bodySeen : Bool}
      {t u : Trace}, F.Near t u →
      F.Sim w (fun _ => F.Near) (ifBranches checked bodySeen t cs) (ifBranches checked bodySeen u ds) := by
  have keep : ∀ {cs : List Code} {bodySeen : Bool} {t : Trace}, (∀ c ∈ cs, ActsObey L.over c) →
      Holds F.Over Anything (ifBranches checked bodySeen t cs) := fun hk =>
    L.over.ifBranches_obeys trivial checked _ _ trivial hk
  induction h with
  | nil => exact fun _ _ _ _ _ _ hn => L.pure hn
  | @comment d cs ds hc hd hdd hrest ih =>
    intro hs hk w bodySeen t u hn
    have hcomment : ifBranches checked bodySeen u (d :: ds) = (do
        let v ← d.process
        ifBranches checked bodySeen (u.merge (← read v)) ds) := by
      rw [ifBranches, if_neg (by simp [hd.kind])]
    rw [hcomment, (hdd.related.silent hc hd).process]
    exact L.comment_bind (l := fun t => ifBranches checked bodySeen (u.merge t) ds) hc (keep hk)
      fun _ _ => ih hs hk (L.near_comment hc hn)
  | @keep c d cs ds hcd hrest ih =>
    intro hs hk w bodySeen t u hn
    obtain ⟨hs, hss⟩ := List.forall_mem_cons.mp hs
    obtain ⟨hk, hks⟩ := List.forall_mem_cons.mp hk
    unfold ifBranches
    rw [← hcd.toBelow.kind]
    refine .ite Iff.rfl (fun hbody => ?_) fun _ => ?_
    · have hkind : c.kind = "compound_statement" := eq_of_beq (Bool.and_eq_true _ _ ▸ hbody).1
      have hblock := hcd.related.block (hs.code (by rw [hkind]; decide))
      refine L.bind (L.within_paired checked hblock) (fun _ => keep hks) ?_
      exact fun x _ _ _ _ => ih hss hks hn
    · refine L.value_bind (hcd.related.process hs w) (fun _ => keep hks) fun x t' u' _ ht => ?_
      exact ih hss hks (Or.inl (L.near_merge hn ht))

theorem switchCases_paired {w₀ : F.World} (hsw : F.switches) (h : List.Forall₂ (Paired F) cs ds) :
    (∀ c ∈ cs, Suited F c.bare) → (∀ c ∈ cs, ActsObey L.over c) → ∀ {w : F.World} {t u : Trace}
      {js ks : List (String × Trace)}, F.later w₀ w → F.Near t u → F.joined w js ks →
      F.Sim w (fun u r s => F.Near r.1 s.1 ∧ F.joined u r.2 s.2) (switchCases (F.left w₀).names t js cs)
        (switchCases (F.right w₀).names u ks ds) := by
  induction h with
  | nil => exact fun _ _ _ _ _ _ _ _ hn hj => L.pure ⟨hn, hj⟩
  | @cons c d cs ds hcd hrest ih =>
    intro hs hk w t u js ks hw hn hj
    obtain ⟨hs, hss⟩ := List.forall_mem_cons.mp hs
    obtain ⟨hk, hks⟩ := List.forall_mem_cons.mp hk
    have keep : ∀ {t js}, Holds F.Over Anything (switchCases (F.left w₀).names t js cs) := fun {_ _} =>
      L.over.any (L.over.switchCases_obeys trivial _ cs trivial (fun _ _ => trivial) hks)
    obtain ⟨x, hx, hxl, hxr⟩ := L.restore hw
    -- the case starts from the names before the switch
    refine L.step hx (do
        let v ← c.process
        let known := t.merge (← read v)
        switchCases (F.left w₀).names known (joinNames (← get) js) cs)
      (do
        let v ← d.process
        let known := u.merge (← read v)
        switchCases (F.right w₀).names known (joinNames (← get) ks) ds)
      (by rw [hxl]; rfl) (by rw [hxr]; rfl) ?_
    refine L.value_bind (hcd.related.process hs x) (fun _ => ?_) fun y t' u' hy ht => ?_
    · exact (Holds.get (Q := Anything) fun _ _ => trivial).bind fun _ _ => keep
    · refine .of_apply (switchCases (F.left w₀).names (t.merge t') (joinNames (F.left y) js) cs)
        (switchCases (F.right w₀).names (u.merge u') (joinNames (F.right y) ks) ds) rfl rfl ?_
      have hxy := L.trans hx hy
      exact ih hss hks (L.trans hw hxy) (Or.inl (L.near_merge hn ht)) (L.join hsw (L.joined_later hxy hj))

theorem switchParts_paired {w₀ : F.World} (hsw : F.switches) (h : Aligned F cs ds) :
    (∀ c ∈ cs, Suited F c.bare) → (∀ c ∈ cs, ∀ d ∈ c.preorder, ActsObey L.over d) → ∀ {w : F.World}
      {t u : Trace} {js ks : List (String × Trace)}, F.later w₀ w → F.Near t u → F.joined w js ks →
      F.Sim w (fun u r s => F.Near r.1 s.1 ∧ F.joined u r.2 s.2) (switchParts (F.left w₀).names t js cs)
        (switchParts (F.right w₀).names u ks ds) := by
  have keep : ∀ {cs : List Code} {t js}, (∀ c ∈ cs, ∀ d ∈ c.preorder, ActsObey L.over d) →
      Holds F.Over Anything (switchParts (F.left w₀).names t js cs) := fun hk =>
    L.over.any (L.over.switchParts_obeys trivial _ _ trivial (fun _ _ => trivial) hk)
  induction h with
  | nil => exact fun _ _ _ _ _ _ _ _ hn hj => L.pure ⟨hn, hj⟩
  | @comment d cs ds hc hd hdd hrest ih =>
    intro hs hk w t u js ks hw hn hj
    have hcomment : switchParts (F.right w₀).names u ks (d :: ds) = (do
        let v ← d.process
        switchParts (F.right w₀).names (u.merge (← read v)) ks ds) := by
      rw [switchParts, if_neg (by simp [hd.kind])]
    rw [hcomment, (hdd.related.silent hc hd).process]
    exact L.comment_bind (l := fun t => switchParts (F.right w₀).names (u.merge t) ks ds) hc (keep hk)
      fun _ hx => ih hs hk (L.trans hw hx) (L.near_comment hc hn) (L.joined_later hx hj)
  | @keep c d cs ds hcd hrest ih =>
    intro hs hk w t u js ks hw hn hj
    obtain ⟨hs, hss⟩ := List.forall_mem_cons.mp hs
    obtain ⟨hk, hks⟩ := List.forall_mem_cons.mp hk
    unfold switchParts
    rw [← hcd.toBelow.kind]
    refine .ite Iff.rfl (fun hblock => ?_) fun _ => ?_
    · -- the cases of a switch correspond one to one
      have hkind : c.kind = "switch_block" := eq_of_beq hblock
      have hcases : List.Forall₂ (Paired F) c.namedChildren d.namedChildren := by
        have hall := hcd.toBelow.inserted
        exact List.rel_filter (fun _ _ h => iff_of_eq (congrArg (· = true) h.toBelow.isNamed))
          (hall.forall₂ (quietIf_nowhere (Or.inr hkind)))
      have hsuited := hs.named (by rw [hkind]; decide)
      have hkeep : ∀ x ∈ c.namedChildren, ActsObey L.over x := fun x hx =>
        hk x (mem_preorder_of_mem_children (List.mem_filter.mp hx).1)
      refine L.bind (L.switchCases_paired hsw hcases hsuited hkeep hw hn hj) (fun _ => keep hks) ?_
      rintro x ⟨t', js'⟩ ⟨u', ks'⟩ hx ⟨hn', hj'⟩
      exact ih hss hks (L.trans hw hx) hn' hj'
    · refine L.value_bind (hcd.related.process hs w) (fun _ => keep hks) fun x t' u' hx ht => ?_
      exact ih hss hks (L.trans hw hx) (Or.inl (L.near_merge hn ht)) (L.joined_later hx hj)

section

variable {here there : Code} (hB : Below (quietIf F.comments) (Linked F) here there) (hb : BelowObey L.over here)
  (hs : Suited F here.bare)

include hB hb hs

theorem ifRule_paired (hk : here.kind = "if_statement") : F.Sim w F.same (ifRule here) (ifRule there) := by
  have hne : here.kind ≠ "assignment_expression" := by rw [hk]; decide
  have hmem : ∀ {c}, c ∈ branches here → c ∈ here.children := mem_children_of_mem_branches
  have hchecked : ((here.children.find? isCondition).map validatedInputs).getD [] =
      ((there.children.find? isCondition).map validatedInputs).getD [] := by
    have hcondition := condition_paired hB
    generalize here.children.find? isCondition = x at hcondition
    generalize there.children.find? isCondition = y at hcondition
    cases hcondition with
    | none => rfl
    | some hcd => simp [hcd.toBelow.validatedInputs]
  refine L.bind (L.conditionTrace_paired hB hs hne) (fun t => ?_) fun u t t' _ ht => ?_
  · refine Holds.bind (L.over.ifBranches_obeys trivial _ _ _ trivial fun c hc => ?_) fun _ _ =>
      L.fresh_holds _
    exact hb.child (hmem hc)
  · rw [hchecked]
    refine L.bind (L.ifBranches_paired _ (branches_aligned hB) (fun c hc => hs.code hne c (hmem hc))
      (fun c hc => hb.child (hmem hc)) (Or.inl ht)) L.fresh_holds fun x _ _ _ hn => L.make_near hn

omit hB hb hs in
theorem leaveSwitch_paired {w₀ u : F.World} (hu : F.later w₀ u) (hsw : F.switches) {t t' : Trace}
    (hn : F.Near t t') {js ks : List (String × Trace)} (hj : F.joined u js ks) :
    F.Sim u F.same (leaveSwitch (F.left w₀).names t js) (leaveSwitch (F.right w₀).names t' ks) := by
  obtain ⟨x, hx, hxl, hxr⟩ := L.restore hu
  refine L.step hx (do bindJoined js; fresh t) (do bindJoined ks; fresh t') (by rw [hxl]; rfl) (by rw [hxr]; rfl) ?_
  exact L.then_fresh (L.settle hsw (L.joined_later hx hj)) hn

theorem switchBody_paired (hk : here.kind = "switch_statement") {t t' : Trace} (ht : F.alike t t') :
    F.Sim w F.same (switchBody here t (F.left w).names) (switchBody there t' (F.right w).names) := by
  have hne : here.kind ≠ "assignment_expression" := by rw [hk]; decide
  have hsw : F.switches := hs.switches here.bare (mem_preorder_self _) (by rw [kind_bare]; exact hk)
  have hmem : ∀ {c}, c ∈ branches here → c ∈ here.children := mem_children_of_mem_branches
  have hparts := L.switchParts_paired hsw (branches_aligned hB) (fun c hc => hs.code hne c (hmem hc))
    (fun c hc => hb c (hmem hc)) (L.refl w) (Or.inl (L.merge (L.equal {}) ht)) (L.joined_nil w)
  refine L.bind hparts (fun r => ?_) fun u r r' hu hr => L.leaveSwitch_paired hu hsw hr.1 hr.2
  exact L.over.leaveSwitch_obeys trivial _ trivial fun _ _ => trivial

theorem switchRule_paired (hk : here.kind = "switch_statement") :
    F.Sim w F.same (switchRule here) (switchRule there) := by
  have hne : here.kind ≠ "assignment_expression" := by rw [hk]; decide
  refine L.bind (L.conditionTrace_paired hB hs hne) (fun t => ?_) fun w₀ t t' _ ht => ?_
  · refine (Holds.get (Q := Anything) fun _ _ => trivial).bind fun m _ => ?_
    exact L.over.switchBody_obeys hb trivial trivial m.names
  · exact .of_apply (switchBody here t (F.left w₀).names) (switchBody there t' (F.right w₀).names) rfl rfl
      (L.switchBody_paired hB hb hs hk ht)

theorem caseRule_paired (hne : here.kind ≠ "assignment_expression") :
    F.Sim w F.same (caseRule here) (caseRule there) := by
  have hmixed := hB.named.filter
    (p := fun c => !(c.kind == "string" || c.kind == "integer" || c.kind == "float" || c.kind == "name"))
    (fun _ _ hcd => by rw [hcd.toBelow.kind]) fun d hd => by simp [hd.kind]
  refine L.processAll_paired hmixed (fun c hc => ?_) fun c hc => ?_
  · exact hs.named hne c (List.mem_filter.mp hc).1
  · exact hb.named c (List.mem_filter.mp hc).1

theorem outputRule_paired (hne : here.kind ≠ "assignment_expression")
    (hk : Rule.output.reportedAt here.kind = true) (name : String) :
    F.Sim w F.same (outputRule here name) (outputRule there name) := by
  refine L.bind (L.evalAll_paired hB.named (hs.named hne) hb.named) (fun v => ?_) fun u v v' _ hv => ?_
  · exact (L.over_invariant.checkOutput_holds trivial hk name v).bind fun _ _ => Holds.pure trivial
  · exact L.then_return (L.checks hB.part (.output name hv)) hv

omit hb in
theorem includeRule_paired (hne : here.kind ≠ "assignment_expression")
    (hk : includeKinds.contains here.kind = true) : F.Sim w F.same (includeRule here) (includeRule there) := by
  have hhead := hB.head? (Or.inr (by unfold operandCount; split_ifs <;> simp_all))
  have hpath := L.evalOption_paired hhead (w := w) fun c hc => hs.named hne c (List.mem_of_head? hc)
  have hplace : Rule.fileInclude.reportedAt here.kind = true := by rw [Rule.reportedAt, hk, Bool.true_or]
  refine L.bind hpath (fun v => ?_) fun u v v' _ hv => ?_
  · exact (L.over_invariant.checkInclude_holds trivial hplace v).bind fun _ _ => Holds.pure trivial
  · exact L.then_return (L.checks hB.part (.included hv)) hv

/-! ### All nodes -/

theorem statementRule_paired : F.Sim w F.same (statementRule here) (statementRule there) := by
  unfold statementRule
  rw [← hB.kind]
  split
  · rename_i hk
    exact L.processAll_paired hB.mixed (hs.code (by rw [hk]; decide)) fun _ hc => hb.child hc
  · exact L.assignmentRule_paired hB hs ‹_›
  · exact L.ifRule_paired hB hb hs ‹_›
  · exact L.switchRule_paired hB hb hs ‹_›
  · rename_i hk
    exact L.caseRule_paired hB hb hs (by rw [hk]; decide)
  · rename_i hk
    exact L.caseRule_paired hB hb hs (by rw [hk]; decide)
  · exact L.callRule_paired hB hb hs ‹_›
  · exact L.methodCallRule_paired hB hb hs ‹_›
  · rename_i hk
    exact L.outputRule_paired hB hb hs (by rw [hk]; decide) (by rw [hk]; rfl) _
  · rename_i hk
    exact L.outputRule_paired hB hb hs (by rw [hk]; decide) (by rw [hk]; rfl) _
  · rename_i hne _ _ _ _ _ _ _ _
    refine .ite Iff.rfl (fun hi => L.includeRule_paired hB hs hne hi) fun _ => ?_
    exact L.processAll_paired hB.named (hs.named hne) hb.named

theorem processRule_paired : F.Sim w F.same (processRule here) (processRule there) :=
  L.tick_bind (L.over.statementRule_obeys hb (L.over_allows _) trivial)
    fun _ _ => L.statementRule_paired hB hb hs

theorem expressionRule_paired :
    F.Sim w F.same (expressionRule here (uploadRule here)) (expressionRule there (uploadRule there)) := by
  unfold expressionRule
  rw [← hB.kind]
  split
  · exact L.variableRule_paired hB hs ‹_›
  · exact L.subscriptRule_paired hB hb hs ‹_›
  · exact L.processRule_paired hB hb hs
  · exact L.conditionalRule_paired hB hb hs ‹_›
  · rename_i hk
    exact L.castRule_paired hB hb hs (by rw [hk]; decide)
  · exact L.callRule_paired hB hb hs ‹_›
  · exact L.methodCallRule_paired hB hb hs ‹_›
  · exact L.binaryRule_paired hB hb hs ‹_›
  · rename_i _ _ hne _ _ _ _ _
    rw [← hB.isString]
    refine .ite Iff.rfl (fun hk => L.stringRule_paired hB hb hs hk) fun _ => ?_
    exact L.evalAll_paired hB.named (hs.named hne) hb.named

theorem evalRule_paired : F.Sim w F.same (evalRule here (uploadRule here)) (evalRule there (uploadRule there)) :=
  L.tick_bind (L.over.any (L.over.expressionRule_obeys hb (L.over_allows _)))
    fun _ _ => L.expressionRule_paired hB hb hs

end

omit L in
theorem silent_of_kind {p : Part} (hk : p.kind = "comment") : Silent (.node (meaningRule p []) []) := by
  have hkind : (Tree.node ⟨p, default⟩ [] : Code).kind = "comment" := hk
  refine ⟨?_, ?_, ?_⟩
  · show (do tick; expressionRule (.node ⟨p, default⟩ []) _ : Run ValueId) = _
    unfold expressionRule isString
    rw [hkind]
    rfl
  · show (do tick; statementRule (.node ⟨p, default⟩ []) : Run ValueId) = _
    unfold statementRule
    rw [hkind]
    rfl
  · show riskyRule (.node ⟨p, default⟩ []) _ = _
    unfold riskyRule
    rw [hkind]
    rfl

theorem linked_node {p q : Part} (hpq : p = q) (hcs : Inserted (Paired F) (quietIf F.comments p) cs ds)
    (hb : BelowObey L.over (.node ⟨p, default⟩ cs)) :
    Linked F (.node (meaningRule p cs) cs) (.node (meaningRule q ds) ds) := by
  -- the acts are those of the same nodes with no acts of their own
  let here : Code := .node ⟨p, default⟩ cs
  let there : Code := .node ⟨q, default⟩ ds
  have hB : Below (quietIf F.comments) (Linked F) here there := ⟨hpq, hcs⟩
  have hbare : (Tree.node (meaningRule p cs) cs).bare = here.bare := by rw [bare_node, bare_node]; rfl
  have heval : Suited F here.bare → ∀ w, F.Sim w F.same (evalRule here (uploadRule here))
      (evalRule there (uploadRule there)) := fun hs _ => L.evalRule_paired hB hb hs
  constructor
  case silent =>
    intro _ hcomment
    obtain rfl : ds = [] := hcomment.leaf
    exact silent_of_kind hcomment.kind
  case eval => exact fun hs => heval (hbare ▸ hs)
  case process => exact fun hs _ => L.processRule_paired hB hb (hbare ▸ hs)
  case block => exact fun hs _ => L.blockRule_paired hB hb hs
  case upload => exact fun hs _ => L.uploadRule_paired hB (hbare ▸ hs)
  case risky =>
    intro hs _
    have hs : SuitedThroughout F here.bare := hbare ▸ hs
    exact L.riskyRule_paired hB hb hs (heval hs.suited)

theorem inserted_meaningOf {q : Place} {cs ds : List (Tree Part)}
    (h : Inserted (Commented (quietIf F.comments) fun _ _ => True) q cs ds)
    (hlinked : ∀ c ∈ cs, ∀ d, Commented (quietIf F.comments) (fun _ _ => True) c d → Paired F (meaningOf c) (meaningOf d)) :
    Inserted (Paired F) q (cs.map meaningOf) (ds.map meaningOf) := by
  induction h with
  | nil => exact .nil
  | @keep q c d cs ds hcd _ ih =>
    refine .keep (hlinked c List.mem_cons_self d hcd) ?_
    have hpast : q.past (meaningOf c) = q.past c := by simp only [Place.past, part_meaningOf]
    rw [hpast]
    exact ih fun x hx => hlinked x (List.mem_cons_of_mem _ hx)
  | @comment q d cs ds hq hd _ _ ih =>
    have hcomment : IsComment (meaningOf d) := by
      refine ⟨?_, ?_, ?_, ?_, ?_⟩
      · rw [kind_meaningOf, hd.kind]
      · rw [isNamed, part_meaningOf]; exact hd.named
      · rw [part_meaningOf]; exact hd.field
      · rw [text_meaningOf, hd.text]
      · rw [children_meaningOf, hd.leaf]; rfl
    have hself : Paired F (meaningOf d) (meaningOf d) := by
      obtain ⟨p, xs⟩ := d
      obtain rfl : xs = [] := hd.leaf
      rw [meaningOf, decorate_node]
      exact .node rfl (L.linked_node rfl .nil fun c hc => by simp at hc) .nil
    exact .comment hq hcomment hself (ih hlinked)

/-- **Lockstep.** A program and the same program with comments where they are quiet keep together. -/
theorem linked {t u : Tree Part} (h : Commented (quietIf F.comments) (fun _ _ => True) t u) :
    Paired F (meaningOf t) (meaningOf u) := by
  induction t using ind generalizing u with
  | h p cs ih =>
    have hkeep := meaningOf_obeys (.node p cs) fun n _ => L.over_allows n
    cases h with
    | @node _ q _ ds hpart _ hins =>
      have hcs := L.inserted_meaningOf hins ih
      rw [meaningOf, decorate_node] at hkeep ⊢
      rw [meaningOf, decorate_node]
      refine .node hpart (L.linked_node hpart hcs fun c hc d hd => ?_) hcs
      exact hkeep d (mem_preorder_node.mpr (Or.inr ⟨c, hc, hd⟩))

end Lockstep

end

end SourceAudit.Taint
