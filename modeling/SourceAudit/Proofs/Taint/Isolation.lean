/-
# What an assignment leaves alone

A name that an assignment does not write keeps its value, and a finding stays about the
value it is about. What is known about these values stays the same too, unless the
assignment hands such a value on: if its right side is a name, both names then have one
value, and to store it may note under which name a database statement is stored, or mark
a dangerous name. An open value (`Trace.isOpen`) shows this under its other names and in
the findings about it.
-/
import SourceAudit.Proofs.Taint.Discipline

namespace SourceAudit.Taint

open Tree

/-! ### What an assignment writes and hands on -/

/-- The nodes that an assignment runs: itself and all of its right side. -/
def nodesRun (t : Tree Part) : List (Tree Part) :=
  t :: ((t.field? "right").map preorder).getD []

/-- The names that an assignment binds, and those that assignments in its right side bind. -/
def writtenNames (t : Tree Part) : List String :=
  (nodesRun t).flatMap assignedAt

/-- The names whose values an assignment, or one in its right side, hands on. -/
def copiedNames (t : Tree Part) : List String :=
  (nodesRun t).flatMap copiedAt

/-- The assignment hands on a value that the memory has. -/
def HandsOn (t : Tree Part) (m : Memory) (v : ValueId) : Prop :=
  ∃ name ∈ copiedNames t, m.lookup? name = some v

/-- A database statement with a value from a request: where it is stored is noted. -/
def Trace.takesNotes (t : Trace) : Bool :=
  t.statement && t.tainted

def Trace.isOpen (t : Trace) : Bool :=
  t.takesNotes || t.namesDanger && !t.callable

/-- What is known later about a value that may have been handed on. -/
structure Trace.Spared (handed : Prop) (t u : Trace) : Prop where
  grown : t.Extends u
  transforms : u.transforms = t.transforms ∨ handed ∧ t.takesNotes = true
  callable : u.callable = t.callable ∨ handed ∧ t.namesDanger = true

section

variable {handed : Prop} {t u w : Trace}

theorem Trace.Spared.refl (t : Trace) : t.Spared handed t := ⟨.refl t, Or.inl rfl, Or.inl rfl⟩

theorem Trace.Extends.takesNotes (h : t.Extends u) : u.takesNotes = t.takesNotes := by
  rw [Trace.takesNotes, h.statement, h.tainted, Trace.takesNotes]

theorem Trace.Extends.namesDanger (h : t.Extends u) : u.namesDanger = t.namesDanger := by
  rw [Trace.namesDanger, h.literals, Trace.namesDanger]

theorem Trace.Spared.trans (h : t.Spared handed u) (k : u.Spared handed w) : t.Spared handed w where
  grown := h.grown.trans k.grown
  transforms := by
    rw [← h.grown.takesNotes]
    rcases k.transforms with hk | hk
    · rw [hk, h.grown.takesNotes]
      exact h.transforms
    · exact Or.inr hk
  callable := by
    rw [← h.grown.namesDanger]
    rcases k.callable with hk | hk
    · rw [hk, h.grown.namesDanger]
      exact h.callable
    · exact Or.inr hk

theorem Trace.Spared.note (h : handed ∧ t.takesNotes = true) (x : String) :
    t.Spared handed (if t.transforms.contains x then t else { t with transforms := t.transforms ++ [x] }) := by
  split
  · exact .refl t
  · exact ⟨.append t [x], Or.inr h, Or.inl rfl⟩

theorem Trace.Spared.transforms_eq (h : t.Spared handed u) (ho : ¬(handed ∧ t.takesNotes = true)) :
    u.transforms = t.transforms :=
  h.transforms.resolve_right ho

theorem Trace.Spared.eq (h : t.Spared handed u) (ho : ¬(handed ∧ t.isOpen = true)) : u = t := by
  have htransforms : u.transforms = t.transforms :=
    h.transforms_eq fun hn => ho ⟨hn.1, by simp [Trace.isOpen, hn.2]⟩
  have hcallable : u.callable = t.callable := by
    rcases h.callable with hc | ⟨hhanded, hdanger⟩
    · exact hc
    · cases hc : t.callable with
      | true => exact h.grown.callable hc
      | false => exact absurd ⟨hhanded, by simp [Trace.isOpen, hdanger, hc]⟩ ho
  exact h.grown.eq htransforms hcallable

end

/-! ### Memories that keep what another knows -/

/-- The values that names and findings are about are in the store. -/
structure Memory.Closed (m : Memory) : Prop where
  names : ∀ p ∈ m.names, p.2 < m.store.size
  findings : ∀ f ∈ m.findings, f.value < m.store.size

instance (m : Memory) : Decidable m.Closed :=
  decidable_of_iff ((∀ p ∈ m.names, p.2 < m.store.size) ∧ ∀ f ∈ m.findings, f.value < m.store.size)
    ⟨fun h => ⟨h.1, h.2⟩, fun h => ⟨h.names, h.findings⟩⟩

/-- The later memory `n` keeps what `m` knows, apart from what the assignment writes and hands on. -/
structure Kept (t : Tree Part) (m n : Memory) : Prop where
  size : m.store.size ≤ n.store.size
  names : ∀ y, y ∉ writtenNames t → n.lookup? y = m.lookup? y
  values : ∀ y v, n.lookup? y = some v → (m.store.size ≤ v ∨ HandsOn t m v) ∨ m.lookup? y = some v
  findings : m.findings.toList <+: n.findings.toList
  spared : ∀ v < m.store.size, (m.trace v).Spared (HandsOn t m v) (n.trace v)

section

variable {t : Tree Part} {m n n' : Memory}

theorem Kept.start (t : Tree Part) (m : Memory) : Kept t m m where
  size := Nat.le_refl _
  names := fun _ _ => rfl
  values := fun _ _ h => Or.inr h
  findings := List.prefix_rfl
  spared := fun _ _ => .refl _

theorem Kept.appends (h : Kept t m n) (ha : Appends n n') : Kept t m n' := by
  have hlookup : ∀ y, n'.lookup? y = n.lookup? y := fun y => by rw [Memory.lookup?, ha.names, Memory.lookup?]
  refine ⟨Nat.le_trans h.size ha.size, fun y hy => ?_, fun y v hv => ?_, h.findings.trans ha.findings, fun v hv => ?_⟩
  · rw [hlookup]
    exact h.names y hy
  · exact h.values y v (hlookup y ▸ hv)
  · rw [ha.trace v (Nat.lt_of_lt_of_le hv h.size)]
    exact h.spared v hv

/-- What is learnt about a value of the run's own, or what may be learnt about a value handed on. -/
theorem Kept.learn (h : Kept t m n) {v : ValueId} {f : Trace → Trace}
    (hf : m.store.size ≤ v ∨ (n.trace v).Spared (HandsOn t m v) (f (n.trace v))) :
    Kept t m { n with store := n.store.modify v f } where
  size := by simpa using h.size
  names := h.names
  values := h.values
  findings := h.findings
  spared := fun u hu => by
    rw [trace_modify]
    split
    · rename_i hvu
      obtain ⟨rfl, -⟩ := hvu
      rcases hf with hown | hf
      · exact absurd hu (Nat.not_lt.mpr hown)
      · exact (h.spared v hu).trans hf
    · exact h.spared u hu

theorem Kept.bindName (h : Kept t m n) {name : String} (hname : name ∈ writtenNames t) {v : ValueId}
    (hv : m.store.size ≤ v ∨ HandsOn t m v) : Kept t m { n with names := setName name v n.names } where
  size := h.size
  names := fun y hy => by
    have hne : y ≠ name := fun he => hy (he ▸ hname)
    rw [lookup?_setName, if_neg hne]
    exact h.names y hy
  values := fun y w hw => by
    rw [lookup?_setName] at hw
    split at hw
    · exact Or.inl (Option.some.inj hw ▸ hv)
    · exact h.values y w hw
  findings := h.findings
  spared := h.spared

/-! ### Assignments keep what they do not hand on -/

theorem reports_kept {α : Type} {c : Nat} {r : Run α} (h : Reports c r) : Holds (Kept t m) Anything r := by
  intro n hn
  obtain ⟨a, n', hr, ha, -⟩ := h n
  rw [hr]
  exact ⟨hn.appends ha, fun _ _ => trivial⟩

theorem tick_kept : Holds (Kept t m) Anything tick := by
  intro n hn
  rw [tick_apply]
  exact ⟨⟨hn.size, hn.names, hn.values, hn.findings, hn.spared⟩, fun _ _ => trivial⟩

theorem within_kept {α : Type} {Q : α → Prop} {r : Run α} (h : Holds (Kept t m) Q r) (expressions : List String) :
    Holds (Kept t m) Q (within expressions r) := by
  intro n hn
  rw [within_apply]
  obtain ⟨hk, hq⟩ := h { n with checked := expressions :: n.checked }
    ⟨hn.size, hn.names, hn.values, hn.findings, hn.spared⟩
  exact ⟨⟨hk.size, hk.names, hk.values, hk.findings, hk.spared⟩, hq⟩

variable {v : ValueId} (hv : m.store.size ≤ v ∨ HandsOn t m v)

include hv

theorem markCallable_kept : Holds (Kept t m) Anything (markCallable v) := by
  intro n hn
  rw [markCallable, read_bind]
  split
  · rename_i hdanger
    refine ⟨hn.learn (hv.imp_right fun hhanded => ?_), fun _ _ => trivial⟩
    exact ⟨.mark _, Or.inl rfl, Or.inr ⟨hhanded, hdanger⟩⟩
  · exact ⟨hn, fun _ _ => trivial⟩

theorem noteStatement_kept (name : String) (right : Option Code) :
    Holds (Kept t m) Anything (noteStatement name right v) := by
  cases right with
  | none => exact Holds.pure trivial
  | some r =>
    intro n hn
    rw [noteStatement, read_bind]
    split
    · rename_i hnoted
      refine ⟨hn.learn (hv.imp_right fun hhanded => ?_), fun _ _ => trivial⟩
      have hname := Trace.Spared.note ⟨hhanded, hnoted⟩ name
      exact hname.trans (.note ⟨hhanded, hname.grown.takesNotes.trans hnoted⟩ r.text)
    · exact ⟨hn, fun _ _ => trivial⟩

end

/-- To keep what the memory `m` knows, apart from what the assignment writes and hands on. -/
def keeping (t : Tree Part) (m : Memory) : Discipline where
  Obeys := fun _ => Holds (Kept t m)
  own := fun v => m.store.size ≤ v
  loose := fun v => m.store.size ≤ v ∨ HandsOn t m v
  under := fun y v => (m.store.size ≤ v ∨ HandsOn t m v) ∨ m.lookup? y = some v
  mayBind := fun name => name ∈ writtenNames t
  mayBranch := False
  pure := Holds.pure
  bind := Holds.bind
  weaken := Holds.weaken
  mono := id
  tick := fun h => tick_kept.bind fun a _ => h a
  stop := fun _ => Holds.throw _
  look := fun h => Holds.get fun n _ => h n fun _ => trivial
  reports := fun h _ => reports_kept h
  make := fun _ n hn => ⟨hn.appends (.push n _), fun _ h => Except.ok.inj h ▸ hn.size⟩
  find := fun name => Holds.get fun _ hn v hv => hn.values name v hv
  loose_of_own := Or.inl
  append := fun hv _ _ hn => ⟨hn.learn (Or.inl hv), fun _ _ => trivial⟩
  mark := markCallable_kept
  note := noteStatement_kept
  store := fun hv _ hname _ hn => ⟨hn.bindName hname hv, fun _ _ => trivial⟩
  check := within_kept
  rename := False.elim

theorem keeping_allows {t n : Tree Part} (m : Memory) (hn : n ∈ nodesRun t) : (keeping t m).Allows n where
  node := trivial
  binds := fun _ h => List.mem_flatMap.mpr ⟨n, hn, h⟩
  copies := fun name h _ hunder =>
    hunder.elim id fun hv => Or.inr ⟨name, List.mem_flatMap.mpr ⟨n, hn, h⟩, hv⟩

theorem process_kept {t : Tree Part} (hk : t.kind = "assignment_expression") (m : Memory) :
    Kept t m ((meaningOf t).process m).2 := by
  have hright : ∀ r ∈ (surface t).field? "right", ActsObey (keeping t m) r := by
    intro r hr
    rw [field?_surface] at hr
    obtain ⟨c, hc, rfl⟩ := Option.map_eq_some_iff.mp hr
    refine meaningOf_obeys c (fun n hn => keeping_allows m ?_) _ (mem_preorder_self _)
    rw [nodesRun, hc]
    exact List.mem_cons_of_mem t hn
  have hallows : (keeping t m).Allows (surface t).bare := by
    rw [bare_surface]
    exact keeping_allows m List.mem_cons_self
  rw [process_meaningOf]
  exact ((keeping t m).processRule_obeys_of_assignment hallows hright hk m (.start t m)).1

/-- **Assignments are isolated, as far as they hand on no open value.** A name that the assignment
does not write keeps its value, and what is known about it is the same unless the assignment hands the
value on and the value is open. Findings show what they showed, unless the assignment hands on a
database statement with a value from a request. -/
theorem assignment_isolated (t : Tree Part) (hk : t.kind = "assignment_expression") {m m' : Memory}
    (hm : m.Closed) {result : Except Stop ValueId} (h : (meaningOf t).process m = (result, m')) :
    (∀ y, y ∉ writtenNames t → m'.lookup? y = m.lookup? y ∧ ∀ v, m.lookup? y = some v →
      (m.trace v).Extends (m'.trace v) ∧
      (¬(HandsOn t m v ∧ (m.trace v).isOpen = true) → m'.trace v = m.trace v)) ∧
    m.findings.toList <+: m'.findings.toList ∧
    ∀ f ∈ m.findings, (m'.shown f).sources = (m.shown f).sources ∧
      (m.shown f).transforms <+: (m'.shown f).transforms ∧
      (¬(HandsOn t m f.value ∧ (m.trace f.value).takesNotes = true) → m'.shown f = m.shown f) := by
  have hkept : Kept t m m' := by
    have := process_kept hk m
    rw [h] at this
    exact this
  refine ⟨fun y hy => ⟨hkept.names y hy, fun v hv => ?_⟩, hkept.findings, fun f hf => ?_⟩
  · have hspared := hkept.spared v (hm.names _ (mem_names_of_lookup? hv))
    exact ⟨hspared.grown, hspared.eq⟩
  · have hspared := hkept.spared f.value (hm.findings f hf)
    refine ⟨hspared.grown.sources, hspared.grown.transforms, fun ho => ?_⟩
    simp only [Memory.shown, hspared.grown.sources, hspared.transforms_eq ho]

/-- The memory after `$_SESSION['a'] = "select a from $_GET";`. -/
def sessionStatement : Memory :=
  { Memory.empty with
    store := #[
      { tainted := true
        statement := true
        sources := ["$_GET"]
        transforms := ["dynamic-sql-template"]
        literals := ["select a from "] }]
    names := [("$_SESSION['a']", 0)]
    findings := #[⟨.sessionWrite, 1, "", "$_SESSION['a'] = \"select a from $_GET\"", 0⟩]
    visited := 6 }

/-- `$_SESSION['a']` -/
def storedEntry : Tree Part :=
  .filling "right" "subscript_expression" "$_SESSION['a']" [
    .plain "variable_name" "$_SESSION" [], .plain "string" "'a'" [.plain "string_content" "a" []]]

/-- `$x = ($_SESSION['a'])`: the parentheses make a value of their own. -/
def wrappedCopy : Tree Part :=
  .plain "assignment_expression" "$x = ($_SESSION['a'])" [
    .filling "left" "variable_name" "$x" [],
    .filling "right" "parenthesized_expression" "($_SESSION['a'])" [storedEntry]]

theorem assignment_isolated_wrappedCopy :
    let m' := ((meaningOf wrappedCopy).process sessionStatement).2
    wrappedCopy.kind = "assignment_expression" ∧ sessionStatement.Closed ∧
      "$_SESSION['a']" ∉ writtenNames wrappedCopy ∧ m'.lookup? "$_SESSION['a']" = some 0 ∧
      m'.trace 0 = sessionStatement.trace 0 ∧ ∀ f ∈ sessionStatement.findings, m'.shown f = sessionStatement.shown f :=
  have hm : sessionStatement.Closed := by decide
  have hwritten : "$_SESSION['a']" ∉ writtenNames wrappedCopy := by decide +kernel
  have hcopied : copiedNames wrappedCopy = [] := by decide +kernel
  have hnone : ∀ v, ¬HandsOn wrappedCopy sessionStatement v := fun v ⟨name, hname, _⟩ =>
    List.not_mem_nil (hcopied ▸ hname)
  have ⟨hnames, _, hfindings⟩ := assignment_isolated wrappedCopy rfl hm (Prod.eta _).symm
  have ⟨hsame, hvalue⟩ := hnames _ hwritten
  ⟨rfl, hm, hwritten, hsame, (hvalue 0 rfl).2 fun h => hnone 0 h.1,
    fun f hf => (hfindings f hf).2.2 fun h => hnone f.value h.1⟩

/-- `$x = $_SESSION['a']` -/
def plainCopy : Tree Part :=
  .plain "assignment_expression" "$x = $_SESSION['a']" [.filling "left" "variable_name" "$x" [], storedEntry]

/-- A copy of a stored statement is noted in what is known about the entry it is copied from, and in a
finding about it. -/
theorem copy_notes_original :
    let m' := ((meaningOf plainCopy).process sessionStatement).2
    "$_SESSION['a']" ∉ writtenNames plainCopy ∧
      (sessionStatement.traceOf "$_SESSION['a']").transforms = ["dynamic-sql-template"] ∧
      (m'.traceOf "$_SESSION['a']").transforms = ["dynamic-sql-template", "$x", "$_SESSION['a']"] ∧
      sessionStatement.findings.toList.map (fun f => (sessionStatement.shown f).transforms) =
        [["dynamic-sql-template"]] ∧
      sessionStatement.findings.toList.map (fun f => (m'.shown f).transforms) =
        [["dynamic-sql-template", "$x", "$_SESSION['a']"]] := by
  decide +kernel

end SourceAudit.Taint
