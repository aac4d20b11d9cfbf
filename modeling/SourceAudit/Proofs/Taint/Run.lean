/-
# Runs of the analysis, step by step

What each step of a run does to the memory, and the rule for putting runs together:
`Holds I Q r` says that `r` keeps `I` however it ends, and that its result, if it has
one, satisfies `Q`. The store only grows. What is known about a value may be extended by
further transforms and by the mark of a dangerous name, and by nothing else
(`Trace.Extends`, `Memory.Grows`).

A quiet run always gives a result, and it visits no node, binds no name and checks no
expression (`Quiet`). Most quiet runs leave what is known as it is, and only put further
values and findings behind those that are there (`Reports`), the checks among them.
-/
import Mathlib.Tactic.Common
import SourceAudit.Taint.Row

namespace SourceAudit.Taint

variable {m m' n o : Memory} {f : Trace → Trace}

variable {α β : Type}

/-! ### The steps -/

theorem bind_apply (r : Run α) (k : α → Run β) (m : Memory) :
    (r >>= k) m = match r m with
      | (.ok a, m') => k a m'
      | (.error e, m') => (.error e, m') := by
  show (r m >>= fun p => ExceptT.bindCont k p.1 p.2) = _
  rcases r m with ⟨_ | a, m'⟩ <;> rfl

theorem bind_ok {r : Run α} {k : α → Run β} {a : α} (h : r m = (.ok a, m')) : (r >>= k) m = k a m' := by
  rw [bind_apply, h]

theorem bind_error {r : Run α} {k : α → Run β} {e : Stop} (h : r m = (.error e, m')) :
    (r >>= k) m = (.error e, m') := by
  rw [bind_apply, h]

theorem bind_eq_ok {r : Run α} {k : α → Run β} {b : β} (h : (r >>= k) m = (.ok b, m')) :
    ∃ a n, r m = (.ok a, n) ∧ k a n = (.ok b, m') := by
  rw [bind_apply] at h
  rcases hr : r m with ⟨_ | a, n⟩
  · rw [hr] at h
    exact absurd (congrArg Prod.fst h) (by simp)
  · rw [hr] at h
    exact ⟨a, n, rfl, h⟩

theorem fresh_apply (t : Trace) (m : Memory) :
    fresh t m = (.ok m.store.size, { m with store := m.store.push t }) := rfl

theorem read_bind (v : ValueId) (k : Trace → Run α) (m : Memory) : (read v >>= k) m = k (m.trace v) m := rfl

theorem learn_apply (v : ValueId) (f : Trace → Trace) (m : Memory) :
    learn v f m = (.ok (), { m with store := m.store.modify v f }) := rfl

theorem bindName_apply (name : String) (v : ValueId) (m : Memory) :
    bindName name v m = (.ok (), { m with names := setName name v m.names }) := rfl

theorem record_apply (f : Finding) (m : Memory) :
    record f m = (.ok (), { m with findings := m.findings.push f }) := rfl

theorem traceOf_apply (name : String) (m : Memory) : traceOf name m = (.ok (m.traceOf name), m) := rfl

theorem lookup?_apply (name : String) (m : Memory) : lookup? name m = (.ok (m.lookup? name), m) := rfl

theorem isChecked_apply (key : String) (m : Memory) :
    isChecked key m = (.ok (m.checked.any (·.contains key)), m) := rfl

theorem tick_apply (m : Memory) :
    tick m = (if budget < m.visited + 1 then .error .budget else .ok (),
      { m with visited := m.visited + 1 }) := by
  by_cases h : budget < m.visited + 1
  · rw [if_pos h]
    show (if budget < m.visited + 1 then throw Stop.budget else pure () : Run Unit) _ = _
    rw [if_pos h]
    rfl
  · rw [if_neg h]
    show (if budget < m.visited + 1 then throw Stop.budget else pure () : Run Unit) _ = _
    rw [if_neg h]
    rfl

theorem valueOf_apply (name : String) (m : Memory) :
    valueOf name m = match m.lookup? name with
      | some v => (.ok v, m)
      | none => (.ok m.store.size, { m with store := m.store.push {} }) := by
  show (match m.lookup? name with
    | some v => pure v
    | none => fresh {} : Run ValueId) m = _
  cases m.lookup? name <;> rfl

theorem within_apply (expressions : List String) (body : Run α) (m : Memory) :
    within expressions body m =
      ((body { m with checked := expressions :: m.checked }).1,
        { (body { m with checked := expressions :: m.checked }).2 with
          checked := (body { m with checked := expressions :: m.checked }).2.checked.drop 1 }) := rfl

theorem bindJoined_cons_apply (name : String) (t : Trace) (rest : List (String × Trace)) (m : Memory) :
    bindJoined ((name, t) :: rest) m =
      bindJoined rest { m with
        store := m.store.push ((m.traceOf name).merge t)
        names := setName name m.store.size m.names } := rfl

theorem apply_of_toOption {r : Run α} {a : α} (h : (r m).1.toOption = some a) : r m = (.ok a, (r m).2) := by
  rcases hr : r m with ⟨_ | b, m'⟩
  · rw [hr] at h
    cases h
  · rw [hr] at h
    cases h
    rfl

theorem mergeRuns_append (start : Trace) (rs ss : List (Run ValueId)) :
    mergeRuns start (rs ++ ss) = mergeRuns start rs >>= fun t => mergeRuns t ss := by
  induction rs generalizing start with
  | nil => simp [mergeRuns]
  | cons r rs ih => simp [mergeRuns, ih]

theorem Run.outcome_memory (r : Run α) (m : Memory) : (r.outcome m).memory = (r m).2 := by
  unfold Run.outcome
  rcases r m with ⟨_ | a, m'⟩ <;> rfl

theorem Run.outcome_stop (r : Run α) (m : Memory) :
    (r.outcome m).stop = match (r m).1 with
      | .ok _ => none
      | .error e => some e := by
  unfold Run.outcome
  rcases r m with ⟨_ | a, m'⟩ <;> rfl

/-! ### Names -/

theorem mem_setName {name : String} {v : ValueId} : ∀ {ns : List (String × ValueId)} {p : String × ValueId},
    p ∈ setName name v ns → p = (name, v) ∨ p ∈ ns
  | [], p, h => Or.inl (List.mem_singleton.mp h)
  | (n, x) :: ns, p, h => by
    rw [setName] at h
    split at h
    · rename_i hn
      rw [beq_iff_eq.mp hn] at h
      exact (List.mem_cons.mp h).imp_right (List.mem_cons_of_mem _)
    · rcases List.mem_cons.mp h with rfl | h
      · exact Or.inr List.mem_cons_self
      · exact (mem_setName h).imp_right (List.mem_cons_of_mem _)

theorem find?_setName (name x : String) (v : ValueId) : ∀ ns : List (String × ValueId),
    ((setName name v ns).find? (·.1 == x)).map (·.2) =
      if x = name then some v else (ns.find? (·.1 == x)).map (·.2)
  | [] => by
    by_cases h : x = name
    · simp [setName, h]
    · simp [setName, h, Ne.symm h]
  | (n, w) :: ns => by
    by_cases hn : n = name
    · subst hn
      by_cases h : x = n
      · simp [setName, h]
      · simp [setName, h, Ne.symm h]
    · by_cases hx : n = x
      · have h : x ≠ name := fun h => hn (hx.trans h)
        simp [setName, hx, h]
      · simp only [setName, beq_iff_eq, hn, if_false, List.find?_cons, beq_false_of_ne hx]
        exact find?_setName name x v ns

theorem lookup?_setName (m : Memory) (name x : String) (v : ValueId) :
    ({ m with names := setName name v m.names } : Memory).lookup? x =
      if x = name then some v else m.lookup? x :=
  find?_setName name x v m.names

theorem mem_names_of_lookup? {x : String} {v : ValueId} (h : m.lookup? x = some v) : (x, v) ∈ m.names := by
  obtain ⟨p, hp, rfl⟩ := Option.map_eq_some_iff.mp h
  have hx : p.1 = x := by simpa using List.find?_some hp
  exact hx ▸ List.mem_of_find?_eq_some hp

/-! ### What the store keeps -/

/-- What is known later about the same value. -/
structure Trace.Extends (t u : Trace) : Prop where
  tainted : u.tainted = t.tainted
  upload : u.upload = t.upload
  statement : u.statement = t.statement
  sources : u.sources = t.sources
  literals : u.literals = t.literals
  transforms : t.transforms <+: u.transforms
  callable : t.callable = true → u.callable = true

theorem Trace.Extends.refl (t : Trace) : t.Extends t :=
  ⟨rfl, rfl, rfl, rfl, rfl, List.prefix_rfl, id⟩

theorem Trace.Extends.trans {t u w : Trace} (h : t.Extends u) (k : u.Extends w) : t.Extends w where
  tainted := k.tainted.trans h.tainted
  upload := k.upload.trans h.upload
  statement := k.statement.trans h.statement
  sources := k.sources.trans h.sources
  literals := k.literals.trans h.literals
  transforms := h.transforms.trans k.transforms
  callable := fun hc => k.callable (h.callable hc)

theorem Trace.Extends.eq {t u : Trace} (h : t.Extends u) (ht : u.transforms = t.transforms)
    (hc : u.callable = t.callable) : u = t := by
  obtain ⟨htainted, hupload, hstatement, hsources, hliterals, -, -⟩ := h
  cases t
  cases u
  rw [Trace.mk.injEq]
  exact ⟨htainted, hc, hstatement, hupload, hsources, ht, hliterals⟩

theorem Trace.Extends.append (t : Trace) (xs : List String) :
    t.Extends { t with transforms := t.transforms ++ xs } :=
  ⟨rfl, rfl, rfl, rfl, rfl, List.prefix_append _ _, id⟩

theorem Trace.Extends.note (t : Trace) (x : String) :
    t.Extends (if t.transforms.contains x then t else { t with transforms := t.transforms ++ [x] }) := by
  split
  · exact .refl t
  · exact .append t [x]

theorem Trace.Extends.mark (t : Trace) : t.Extends { t with callable := true } :=
  ⟨rfl, rfl, rfl, rfl, rfl, List.prefix_rfl, fun _ => rfl⟩

theorem trace_of_lt {v : ValueId} (h : v < m.store.size) : m.trace v = m.store[v] := by
  simp [Memory.trace, h]

theorem trace_push_lt {v : ValueId} (t : Trace) (h : v < m.store.size) :
    ({ m with store := m.store.push t } : Memory).trace v = m.trace v := by
  simp [Memory.trace, Array.getElem?_push, Nat.ne_of_lt h]

theorem trace_push_size (m : Memory) (t : Trace) :
    ({ m with store := m.store.push t } : Memory).trace m.store.size = t := by
  simp [Memory.trace]

theorem trace_push (m : Memory) (t : Trace) (v : ValueId) :
    ({ m with store := m.store.push t } : Memory).trace v = if v = m.store.size then t else m.trace v := by
  by_cases h : v = m.store.size
  · rw [if_pos h, h, trace_push_size]
  · rw [if_neg h]
    simp [Memory.trace, Array.getElem?_push, h]

theorem trace_modify (m : Memory) (v w : ValueId) (f : Trace → Trace) :
    ({ m with store := m.store.modify v f } : Memory).trace w =
      if v = w ∧ w < m.store.size then f (m.trace w) else m.trace w := by
  by_cases hw : w < m.store.size
  · by_cases h : v = w
    · simp [Memory.trace, Array.getElem_modify, hw, h]
    · simp [Memory.trace, Array.getElem_modify, hw, h]
  · simp [Memory.trace, hw]

/-- The store of the later memory has the values of the earlier one, with what is known extended. -/
structure Memory.Grows (m n : Memory) : Prop where
  size : m.store.size ≤ n.store.size
  trace : ∀ v < m.store.size, (m.trace v).Extends (n.trace v)

theorem Memory.Grows.of_store (h : n.store = m.store) : m.Grows n := by
  refine ⟨Nat.le_of_eq (by rw [h]), fun v _ => ?_⟩
  have : n.trace v = m.trace v := by simp only [Memory.trace, h]
  rw [this]
  exact .refl _

theorem Memory.Grows.refl (m : Memory) : m.Grows m := .of_store rfl

theorem Memory.Grows.trans (h : m.Grows n) (k : n.Grows o) : m.Grows o :=
  ⟨Nat.le_trans h.size k.size, fun v hv => (h.trace v hv).trans (k.trace v (Nat.lt_of_lt_of_le hv h.size))⟩

theorem Memory.Grows.push (m : Memory) (t : Trace) : m.Grows { m with store := m.store.push t } := by
  refine ⟨by simp, fun v hv => ?_⟩
  rw [trace_push_lt t hv]
  exact .refl _

theorem Memory.Grows.modify (m : Memory) (v : ValueId) (hf : ∀ t : Trace, t.Extends (f t)) :
    m.Grows { m with store := m.store.modify v f } := by
  refine ⟨by simp, fun w _ => ?_⟩
  rw [trace_modify]
  split
  · exact hf _
  · exact .refl _

/-! ### Runs that keep an invariant -/

/-- The run keeps `I` however it ends, and a result satisfies `Q`. -/
def Holds (I : Memory → Prop) (Q : α → Prop) (r : Run α) : Prop :=
  ∀ m, I m → I (r m).2 ∧ ∀ a, (r m).1 = .ok a → Q a

variable {I : Memory → Prop} {Q : α → Prop} {R : β → Prop}

theorem Holds.pure {a : α} (h : Q a) : Holds I Q (pure a) :=
  fun _ hm => ⟨hm, fun _ e => Except.ok.inj e ▸ h⟩

theorem Holds.throw (e : Stop) : Holds I Q (throw e) :=
  fun _ hm => ⟨hm, fun _ h => nomatch h⟩

theorem Holds.bind {r : Run α} {k : α → Run β} (hr : Holds I Q r) (hk : ∀ a, Q a → Holds I R (k a)) :
    Holds I R (r >>= k) := by
  intro m hm
  obtain ⟨h1, h2⟩ := hr m hm
  rw [bind_apply]
  rcases hrm : r m with ⟨_ | a, m'⟩
  · rw [hrm] at h1
    exact ⟨h1, fun b hb => nomatch hb⟩
  · rw [hrm] at h1 h2
    exact hk a (h2 a rfl) m' h1

theorem Holds.weaken {r : Run α} {Q' : α → Prop} (hr : Holds I Q r) (h : ∀ a, Q a → Q' a) : Holds I Q' r :=
  fun m hm => ⟨(hr m hm).1, fun a ha => h a ((hr m hm).2 a ha)⟩

abbrev Anything : α → Prop := fun _ => True

theorem Holds.any {r : Run α} (hr : Holds I Q r) : Holds I Anything r := hr.weaken fun _ _ => trivial

theorem Holds.ite {c : Prop} [Decidable c] {r s : Run α} (hr : c → Holds I Q r) (hs : ¬c → Holds I Q s) :
    Holds I Q (if c then r else s) := by
  split
  · exact hr ‹_›
  · exact hs ‹_›

theorem Holds.get {f : Memory → α} (h : ∀ m, I m → Q (f m)) : Holds I Q (fun m => (.ok (f m), m)) :=
  fun m hm => ⟨hm, fun _ e => Except.ok.inj e ▸ h m hm⟩

theorem Holds.modify {f : Memory → Memory} (h : ∀ m, I m → I (f m)) : Holds I Anything (modify f : Run Unit) :=
  fun m hm => ⟨h m hm, fun _ _ => trivial⟩

/-! ### Runs that only add to what is known -/

variable {α β : Type}

/-- The later memory has further values, and the same names. -/
structure Adds (m m' : Memory) : Prop where
  grows : m.Grows m'
  names : m'.names = m.names
  checked : m'.checked = m.checked

theorem Adds.refl (m : Memory) : Adds m m := ⟨.refl m, rfl, rfl⟩

theorem Adds.trans (h : Adds m n) (k : Adds n o) : Adds m o :=
  ⟨h.grows.trans k.grows, k.names.trans h.names, k.checked.trans h.checked⟩

theorem Adds.push (m : Memory) (t : Trace) : Adds m { m with store := m.store.push t } :=
  ⟨.push m t, rfl, rfl⟩

theorem Adds.learn (m : Memory) (v : ValueId) (hf : ∀ t : Trace, t.Extends (f t)) :
    Adds m { m with store := m.store.modify v f } :=
  ⟨.modify m v hf, rfl, rfl⟩

/-- The run gives a result, only adds to what the memory knows and visits no node. -/
def Quiet (r : Run α) : Prop := ∀ m, ∃ a m', r m = (.ok a, m') ∧ Adds m m' ∧ m'.visited = m.visited

theorem Quiet.pure (a : α) : Quiet (pure a : Run α) := fun m => ⟨a, m, rfl, .refl m, rfl⟩

theorem Quiet.bind {r : Run α} {k : α → Run β} (hr : Quiet r) (hk : ∀ a, Quiet (k a)) : Quiet (r >>= k) := by
  intro m
  obtain ⟨a, n, hra, hn, hvn⟩ := hr m
  obtain ⟨b, o, hkb, ho, hvo⟩ := hk a n
  exact ⟨b, o, (bind_ok hra).trans hkb, hn.trans ho, hvo.trans hvn⟩

theorem Quiet.ite {p : Prop} [Decidable p] {r s : Run α} (hr : Quiet r) (hs : Quiet s) :
    Quiet (if p then r else s) := by
  split
  · exact hr
  · exact hs

theorem quiet_learn (v : ValueId) (hf : ∀ t : Trace, t.Extends (f t)) : Quiet (learn v f) :=
  fun m => ⟨(), _, learn_apply v f m, .learn m v hf, rfl⟩

/-! ### Runs that leave what is known as it is -/

/-- The later memory has further values and findings behind those of the earlier one, and is the same
in all else. -/
structure Appends (m m' : Memory) : Prop where
  size : m.store.size ≤ m'.store.size
  trace : ∀ v < m.store.size, m'.trace v = m.trace v
  findings : m.findings.toList <+: m'.findings.toList
  names : m'.names = m.names
  checked : m'.checked = m.checked
  visited : m'.visited = m.visited

theorem Appends.refl (m : Memory) : Appends m m := ⟨Nat.le_refl _, fun _ _ => rfl, List.prefix_rfl, rfl, rfl, rfl⟩

theorem Appends.trans (h : Appends m n) (k : Appends n o) : Appends m o where
  size := Nat.le_trans h.size k.size
  trace := fun v hv => (k.trace v (Nat.lt_of_lt_of_le hv h.size)).trans (h.trace v hv)
  findings := h.findings.trans k.findings
  names := k.names.trans h.names
  checked := k.checked.trans h.checked
  visited := k.visited.trans h.visited

theorem Appends.push (m : Memory) (t : Trace) : Appends m { m with store := m.store.push t } where
  size := by simp
  trace := fun _ hv => trace_push_lt t hv
  findings := List.prefix_rfl
  names := rfl
  checked := rfl
  visited := rfl

theorem Appends.record (m : Memory) (f : Finding) : Appends m { m with findings := m.findings.push f } where
  size := Nat.le_refl _
  trace := fun _ _ => rfl
  findings := by simp
  names := rfl
  checked := rfl
  visited := rfl

theorem Appends.adds (h : Appends m m') : Adds m m' where
  grows := ⟨h.size, fun v hv => by rw [h.trace v hv]; exact .refl _⟩
  names := h.names
  checked := h.checked

variable {c : Nat}

/-- The run gives a result, and only puts values and at most `c` findings behind those that are there. -/
def Reports (c : Nat) (r : Run α) : Prop :=
  ∀ m, ∃ a m', r m = (.ok a, m') ∧ Appends m m' ∧ m'.findings.size ≤ m.findings.size + c

theorem Reports.quiet {r : Run α} (h : Reports c r) : Quiet r := fun m =>
  have ⟨a, m', hr, hm, _⟩ := h m
  ⟨a, m', hr, hm.adds, hm.visited⟩

theorem Reports.pure (a : α) : Reports c (pure a : Run α) := fun m => ⟨a, m, rfl, .refl m, Nat.le_add_right _ _⟩

theorem Reports.bind {r : Run α} {k : α → Run β} (hr : Reports 0 r) (hk : ∀ a, Reports c (k a)) :
    Reports c (r >>= k) := by
  intro m
  obtain ⟨a, n, hra, hn, hsize⟩ := hr m
  obtain ⟨b, o, hkb, ho, hsize'⟩ := hk a n
  exact ⟨b, o, (bind_ok hra).trans hkb, hn.trans ho, by omega⟩

theorem Reports.ite {p : Prop} [Decidable p] {r s : Run α} (hr : Reports c r) (hs : Reports c s) :
    Reports c (if p then r else s) := by
  split
  · exact hr
  · exact hs

theorem Reports.get (f : Memory → α) : Reports c (fun m => (.ok (f m), m)) := fun m =>
  ⟨f m, m, rfl, .refl m, Nat.le_add_right _ _⟩

theorem reports_read (v : ValueId) : Reports c (read v) := .get fun m => m.trace v

theorem reports_fresh (t : Trace) : Reports c (fresh t) := fun m =>
  ⟨_, _, fresh_apply t m, .push m t, Nat.le_add_right _ _⟩

theorem quiet_fresh (t : Trace) : Quiet (fresh t) := (reports_fresh (c := 0) t).quiet

/-! ### Notes -/

theorem quiet_markCallable (v : ValueId) : Quiet (markCallable v) :=
  (reports_read (c := 0) v).quiet.bind fun _ => .ite (quiet_learn v .mark) (.pure ())

theorem quiet_noteStatement (name : String) (right : Option Code) (v : ValueId) :
    Quiet (noteStatement name right v) := by
  cases right with
  | none => exact .pure ()
  | some r =>
    have hnote : Quiet (learn v fun t =>
        let named : Trace := if t.transforms.contains name then t else { t with transforms := t.transforms ++ [name] }
        if named.transforms.contains r.text then named
        else { named with transforms := named.transforms ++ [r.text] }) :=
      quiet_learn v fun t => (Trace.Extends.note t name).trans (.note _ r.text)
    exact (reports_read (c := 0) v).quiet.bind fun _ => .ite hnote (.pure ())

/-! ### The checks -/

section

variable (here : Code) (name : String) (v : ValueId)

theorem reports_report (rule : Rule) (description : String) : Reports 1 (report here rule description v) :=
  fun m => ⟨(), _, record_apply _ m, .record m _, by simp⟩

theorem reports_fresh_report (rule : Rule) (description : String) (t : Trace) :
    Reports 1 (do report here rule description (← fresh t)) :=
  (reports_fresh t).bind fun v => reports_report here v rule description

theorem reports_checkNamedSink : Reports 1 (checkNamedSink here name v) := by
  refine (reports_read v).bind fun t => ?_
  iterate 6
    refine .ite (reports_report here v _ _) ?_
  exact .pure ()

theorem reports_checkNamedSink_of_harmless (h : name ∉ dangerousNames) (hi : name ∉ includeSinks) :
    Reports 0 (checkNamedSink here name v) := by
  simp only [dangerousNames, List.mem_append, List.mem_singleton, not_or] at h
  obtain ⟨⟨hcode, hcommand⟩, hpreg⟩ := h
  have hcode : codeSinks.contains name = false := by simpa using hcode
  have hcommand : commandSinks.contains name = false := by simpa using hcommand
  have hinclude : includeSinks.contains name = false := by simpa using hi
  have hpreg : (name == "preg_replace") = false := by simpa using hpreg
  unfold checkNamedSink
  simp only [hcode, hcommand, hinclude, hpreg, Bool.false_and, Bool.false_eq_true, if_false]
  exact (reports_read v).bind fun _ => .pure ()

theorem reports_checkQuery : Reports 1 (checkQuery here name v) :=
  (reports_read v).bind fun _ => .ite (.pure ()) (reports_report here v _ _)

theorem reports_checkSessionWrite (key : String) : Reports 1 (checkSessionWrite here key v) :=
  (reports_read v).bind fun _ => .ite (reports_report here v _ _) (.pure ())

theorem reports_checkOutput : Reports 1 (checkOutput here name v) :=
  (reports_read v).bind fun _ => .ite (reports_report here v _ _) (.pure ())

theorem reports_checkInclude : Reports 1 (checkInclude here v) :=
  (reports_read v).bind fun _ => .ite (reports_report here v _ _) (.pure ())

theorem reports_checkUploadDestination : Reports 1 (checkUploadDestination here v) :=
  (reports_read v).bind fun _ => .ite (reports_report here v _ _) (.pure ())

theorem reports_checkUnserialize : Reports 1 (checkUnserialize here v) :=
  (reports_read v).bind fun _ => .ite (reports_report here v _ _) (.pure ())

theorem reports_checkDynamicCall (t u : Trace) : Reports 1 (checkDynamicCall here name t u v) := by
  iterate 3
    refine .ite (reports_fresh_report here _ _ _) ?_
  exact .ite (reports_report here v _ _) (.pure ())

theorem reports_checkCallback (callback : Option String) (t u : Trace) :
    Reports 1 (checkCallback here name callback t u) := by
  iterate 4
    refine .ite (reports_fresh_report here _ _ _) ?_
  exact .pure ()

end

end SourceAudit.Taint
