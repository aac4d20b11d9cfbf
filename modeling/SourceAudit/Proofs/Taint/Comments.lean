/-
# Comments and what the analysis finds

A comment that stands where the analysis does not count children (`quietPlace`) changes
nothing in what is found. In front of an operand it takes the place of the operand, and
a finding may be lost.

The two runs number their values differently, since a comment is a value too. Two
memories are the same up to the numbers of their values (`Renamed`) if a map takes the
values of the first one to values of the second one of which the same is known, and the
names and the findings of the first one, renamed, are those of the second one. What is
shown does not depend on the numbers (`Outcome.shown_eq_of_renamed`). Merging the value
of a comment cuts lists to their greatest lengths; so the comparison ends when the first
run has a longer list (`Trace.Overlong`).
-/
import SourceAudit.Proofs.Taint.Lockstep

namespace SourceAudit.Taint

open Tree

/-! ### Lists that a merge would cut -/

/-- A list of the trace is longer than a merge leaves it. -/
def Trace.Overlong (t : Trace) : Prop :=
  maxItems < t.sources.length ∨ maxItems < t.transforms.length ∨ maxLiterals < t.literals.length

instance (t : Trace) : Decidable t.Overlong := inferInstanceAs (Decidable (_ ∨ _ ∨ _))

theorem mergeLimited_nil_of_le {xs : List String} {limit : Int} (h : xs.length ≤ limit) :
    mergeLimited xs [] limit = xs :=
  mergeLimited_of_length_le h

theorem Trace.merge_empty {t : Trace} (h : ¬t.Overlong) : t.merge {} = t := by
  simp only [Trace.Overlong, not_or, Int.not_lt, Nat.not_lt] at h
  obtain ⟨hs, ht, hl⟩ := h
  simp only [Trace.merge, mergeLimited_nil_of_le hs, mergeLimited_nil_of_le ht,
    mergeLimited_nil_of_le (Int.ofNat_le.mpr hl), Bool.or_false]

theorem Trace.Overlong.extends {t u : Trace} (h : t.Extends u) (ht : t.Overlong) : u.Overlong := by
  have hlen := h.transforms.length_le
  simp only [Trace.Overlong, h.sources, h.literals] at ht ⊢
  omega

/-! ### Memories up to the numbers of values -/

/-- The second memory has the values of the first one under the numbers that `f` gives them. -/
structure Renamed (f : ValueId → ValueId) (m m' : Memory) : Prop where
  lt : ∀ v < m.store.size, f v < m'.store.size
  inj : ∀ v < m.store.size, ∀ w < m.store.size, f v = f w → v = w
  trace : ∀ v < m.store.size, m'.trace (f v) = m.trace v
  names : m'.names = m.names.map fun p => (p.1, f p.2)
  bound : ∀ p ∈ m.names, p.2 < m.store.size
  findings : m'.findings.toList = m.findings.toList.map fun x => { x with value := f x.value }
  reported : ∀ x ∈ m.findings.toList, x.value < m.store.size
  checked : m.checked = m'.checked

theorem setName_map (f : ValueId → ValueId) (name : String) (v : ValueId) :
    ∀ ns : List (String × ValueId),
      setName name (f v) (ns.map fun p => (p.1, f p.2)) = (setName name v ns).map fun p => (p.1, f p.2)
  | [] => rfl
  | (n, x) :: ns => by
    by_cases h : n = name
    · simp [setName, h]
    · simp [setName, h, setName_map f name v ns]

namespace Renamed

variable {f g : ValueId → ValueId} {m m' : Memory} (h : Renamed f m m')

theorem empty : Renamed id Memory.empty Memory.empty where
  lt := fun _ hv => hv
  inj := fun _ _ _ _ h => h
  trace := fun _ _ => rfl
  names := rfl
  bound := fun _ h => nomatch h
  findings := rfl
  reported := fun _ h => nomatch h
  checked := rfl

include h

theorem congr (hg : ∀ v < m.store.size, g v = f v) : Renamed g m m' where
  lt := fun v hv => by rw [hg v hv]; exact h.lt v hv
  inj := fun v hv w hw => by rw [hg v hv, hg w hw]; exact h.inj v hv w hw
  trace := fun v hv => by rw [hg v hv]; exact h.trace v hv
  names := by
    rw [h.names]
    exact List.map_congr_left fun p hp => by rw [hg _ (h.bound p hp)]
  bound := h.bound
  findings := by
    rw [h.findings]
    exact List.map_congr_left fun x hx => by rw [hg _ (h.reported x hx)]
  reported := h.reported
  checked := h.checked

theorem lookup (name : String) : m'.lookup? name = (m.lookup? name).map f := by
  simp only [Memory.lookup?, h.names, List.find?_map, Option.map_map]
  rfl

theorem lookup_lt {name : String} {v : ValueId} (hv : m.lookup? name = some v) : v < m.store.size :=
  h.bound _ (mem_names_of_lookup? hv)

theorem traceOf (name : String) : m'.traceOf name = m.traceOf name := by
  unfold Memory.traceOf
  rw [h.lookup]
  cases hv : m.lookup? name with
  | none => rfl
  | some v => exact h.trace v (h.lookup_lt hv)

theorem push (t : Trace) (hf : f m.store.size = m'.store.size) :
    Renamed f { m with store := m.store.push t } { m' with store := m'.store.push t } := by
  have hsplit : ∀ v, v < (m.store.push t).size → v < m.store.size ∨ v = m.store.size := by
    intro v hv
    rw [Array.size_push] at hv
    omega
  have hlt : ∀ v, v < m.store.size → v < (m.store.push t).size := by
    intro v hv
    rw [Array.size_push]
    omega
  refine ⟨?_, ?_, ?_, h.names, fun p hp => hlt _ (h.bound p hp), h.findings,
    fun x hx => hlt _ (h.reported x hx), h.checked⟩
  · intro v hv
    rw [Array.size_push]
    rcases hsplit v hv with hv | rfl
    · exact Nat.lt_succ_of_lt (h.lt v hv)
    · rw [hf]
      exact Nat.lt_succ_self _
  · intro v hv w hw hvw
    rcases hsplit v hv with hv | rfl <;> rcases hsplit w hw with hw | rfl
    · exact h.inj v hv w hw hvw
    · exact absurd (hvw.trans hf) (Nat.ne_of_lt (h.lt v hv))
    · exact absurd (hvw.symm.trans hf) (Nat.ne_of_lt (h.lt w hw))
    · rfl
  · intro v hv
    rcases hsplit v hv with hv | rfl
    · rw [trace_push_lt t (h.lt v hv), trace_push_lt t hv, h.trace v hv]
    · rw [hf, trace_push_size, trace_push_size]

theorem skip (t : Trace) : Renamed f m { m' with store := m'.store.push t } where
  lt := fun v hv => by
    rw [Array.size_push]
    exact Nat.lt_succ_of_lt (h.lt v hv)
  inj := h.inj
  trace := fun v hv => by rw [trace_push_lt t (h.lt v hv), h.trace v hv]
  names := h.names
  bound := h.bound
  findings := h.findings
  reported := h.reported
  checked := h.checked

theorem learn {v : ValueId} (hv : v < m.store.size) (k : Trace → Trace) :
    Renamed f { m with store := m.store.modify v k } { m' with store := m'.store.modify (f v) k } where
  lt := fun w hw => by
    rw [Array.size_modify] at hw ⊢
    exact h.lt w hw
  inj := fun w hw x hx => by
    rw [Array.size_modify] at hw hx
    exact h.inj w hw x hx
  trace := fun w hw => by
    rw [Array.size_modify] at hw
    rw [trace_modify, trace_modify, h.trace w hw]
    by_cases hvw : v = w
    · rw [if_pos ⟨by rw [hvw], h.lt w hw⟩, if_pos ⟨hvw, hw⟩]
    · rw [if_neg fun hf => hvw (h.inj v hv w hw hf.1), if_neg fun he => hvw he.1]
  names := h.names
  bound := fun p hp => by
    rw [Array.size_modify]
    exact h.bound p hp
  findings := h.findings
  reported := fun x hx => by
    rw [Array.size_modify]
    exact h.reported x hx
  checked := h.checked

theorem bindName {v : ValueId} (hv : v < m.store.size) (name : String) :
    Renamed f { m with names := setName name v m.names } { m' with names := setName name (f v) m'.names } :=
  { h with
    names := by rw [h.names, setName_map]
    bound := fun p hp => (mem_setName hp).elim (fun e => by rw [e]; exact hv) (h.bound p) }

theorem record {x : Finding} (hx : x.value < m.store.size) :
    Renamed f { m with findings := m.findings.push x }
      { m' with findings := m'.findings.push { x with value := f x.value } } :=
  { h with
    findings := by
      simp only [Array.toList_push, h.findings, List.map_append, List.map_cons, List.map_nil]
    reported := fun y hy => by
      rw [Array.toList_push, List.mem_append, List.mem_singleton] at hy
      exact hy.elim (h.reported y) fun e => e ▸ hx }

theorem joinNames (js : List (String × Trace)) : joinNames m js = joinNames m' js := by
  unfold Taint.joinNames
  simp only [h.names, List.foldl_map]
  refine List.foldl_ext _ _ _ fun ks p hp => ?_
  rw [h.trace _ (h.bound p hp)]

end Renamed

/-! ### The comparison -/

/-- Two memories, and where the second one has the values of the first one. -/
structure Numbering where
  map : ValueId → ValueId
  left : Memory
  right : Memory
  renamed : Renamed map left right

namespace Numbering

/-- The later memories have the values of the earlier ones at the same places. -/
structure Later (w u : Numbering) : Prop where
  size : w.left.store.size ≤ u.left.store.size
  map : ∀ v < w.left.store.size, u.map v = w.map v

theorem Later.of_map {w u : Numbering} (hs : u.left.store.size = w.left.store.size) (hm : u.map = w.map) :
    Later w u :=
  ⟨Nat.le_of_eq hs.symm, fun _ _ => by rw [hm]⟩

theorem Later.trans {w u x : Numbering} (h : Later w u) (k : Later u x) : Later w x :=
  ⟨Nat.le_trans h.size k.size, fun v hv => (k.map v (Nat.lt_of_lt_of_le hv h.size)).trans (h.map v hv)⟩

/-- The values correspond. -/
structure Same (w : Numbering) (v v' : ValueId) : Prop where
  lt : v < w.left.store.size
  eq : v' = w.map v

end Numbering

/-- Two runs compared up to the numbers of their values. -/
abbrev upToNumbers : Comparison where
  World := Numbering
  left := Numbering.left
  right := Numbering.right
  later := Numbering.Later
  same := Numbering.Same
  alike := Eq
  joined := fun _ => Eq
  tooMuch := Trace.Overlong
  readable := fun _ => True
  writable := fun _ => True
  switches := True

namespace Numbering

variable {α β : Type} {w : Numbering} {v v' : ValueId} {c d : Code}

def push (w : Numbering) (t : Trace) : Numbering where
  map := Function.update w.map w.left.store.size w.right.store.size
  left := { w.left with store := w.left.store.push t }
  right := { w.right with store := w.right.store.push t }
  renamed :=
    (w.renamed.congr fun _ hv => Function.update_of_ne (Nat.ne_of_lt hv) _ _).push t
      (Function.update_self _ _ _)

theorem later_push (w : Numbering) (t : Trace) : Later w (w.push t) where
  size := by
    show _ ≤ (w.left.store.push t).size
    rw [Array.size_push]
    exact Nat.le_succ _
  map := fun _ hv => Function.update_of_ne (Nat.ne_of_lt hv) _ _

theorem same_push (w : Numbering) (t : Trace) :
    Same (w.push t) w.left.store.size w.right.store.size where
  lt := by
    show _ < (w.left.store.push t).size
    rw [Array.size_push]
    exact Nat.lt_succ_self _
  eq := by
    show _ = Function.update w.map w.left.store.size w.right.store.size w.left.store.size
    rw [Function.update_self]

/-- Both runs learn something about a value. -/
def learn (w : Numbering) (h : Same w v v') (k : Trace → Trace) : Numbering where
  map := w.map
  left := { w.left with store := w.left.store.modify v k }
  right := { w.right with store := w.right.store.modify v' k }
  renamed := h.eq ▸ w.renamed.learn h.lt k

def bindName (w : Numbering) (h : Same w v v') (name : String) : Numbering where
  map := w.map
  left := { w.left with names := setName name v w.left.names }
  right := { w.right with names := setName name v' w.right.names }
  renamed := h.eq ▸ w.renamed.bindName h.lt name

theorem later_bindName (h : Same w v v') (name : String) : Later w (w.bindName h name) := .of_map rfl rfl

def record (w : Numbering) (h : Same w v v') (x : Finding) : Numbering where
  map := w.map
  left := { w.left with findings := w.left.findings.push { x with value := v } }
  right := { w.right with findings := w.right.findings.push { x with value := v' } }
  renamed := h.eq ▸ w.renamed.record (x := { x with value := v }) h.lt

theorem later_record (h : Same w v v') (x : Finding) : Later w (w.record h x) := .of_map rfl rfl

theorem sim_learn (h : Same w v v') (k : Trace → Trace) :
    upToNumbers.Sim w upToNumbers.Free (Taint.learn v k) (Taint.learn v' k) :=
  .ok (u := w.learn h k) (Later.of_map (u := w.learn h k) (Array.size_modify ..) rfl) rfl rfl trivial

theorem sim_read {Q : Numbering → α → β → Prop} (h : Same w v v') {k : Trace → Run α} {l : Trace → Run β}
    (hk : ∀ t, upToNumbers.Sim w Q (k t) (l t)) : upToNumbers.Sim w Q (read v >>= k) (read v' >>= l) := by
  refine .of_apply _ _ (read_bind v k _) (read_bind v' l _) ?_
  show upToNumbers.Sim w Q (k (w.left.trace v)) (l (w.right.trace v'))
  rw [h.eq, w.renamed.trace v h.lt]
  exact hk _

theorem sim_nothing : upToNumbers.Sim w upToNumbers.Free (pure ()) (pure ()) :=
  .ok (u := w) (Later.of_map rfl rfl) rfl rfl trivial

theorem sim_report (hp : c.part = d.part) (h : Same w v v') (rule : Rule) (description : String) :
    upToNumbers.Sim w upToNumbers.Free (report c rule description v) (report d rule description v') := by
  rw [report_eq hp]
  exact .ok (later_record h ⟨rule, d.line, description, d.text, v⟩) rfl rfl trivial

theorem sim_fresh_report (hp : c.part = d.part) (t : Trace) (rule : Rule) (description : String) :
    upToNumbers.Sim w upToNumbers.Free (do report c rule description (← fresh t))
      (do report d rule description (← fresh t)) := by
  simp only [report_eq hp]
  let x : Finding := ⟨rule, d.line, description, d.text, w.left.store.size⟩
  exact .ok ((w.later_push t).trans (later_record (w.same_push t) x)) rfl rfl trivial

/-- The names of an earlier world are set again. -/
def restore {w u : Numbering} (h : Later w u) : Numbering where
  map := u.map
  left := { u.left with names := w.left.names }
  right := { u.right with names := w.right.names }
  renamed :=
    { u.renamed with
      names := by
        show w.right.names = w.left.names.map _
        rw [w.renamed.names]
        exact List.map_congr_left fun p hp => by rw [h.map _ (w.renamed.bound p hp)]
      bound := fun p hp => Nat.lt_of_lt_of_le (w.renamed.bound p hp) h.size }

theorem bindJoined_later : ∀ (js : List (String × Trace)) (w : Numbering), ∃ u, Later w u ∧
    bindJoined js w.left = (.ok (), u.left) ∧ bindJoined js w.right = (.ok (), u.right)
  | [], w => ⟨w, .of_map rfl rfl, rfl, rfl⟩
  | (name, t) :: js, w => by
    let before := (w.left.traceOf name).merge t
    let next := (w.push before).bindName (w.same_push before) name
    obtain ⟨u, hu, hl, hr⟩ := bindJoined_later js next
    have hnext : Later w next := (w.later_push before).trans (later_bindName _ name)
    refine ⟨u, hnext.trans hu, hl, ?_⟩
    rw [← hr, bindJoined_cons_apply, w.renamed.traceOf]
    rfl

theorem sim_mark (h : Same w v v') : upToNumbers.Sim w upToNumbers.Free (markCallable v) (markCallable v') :=
  sim_read h fun _ => .ite Iff.rfl (fun _ => sim_learn h _) fun _ => sim_nothing

theorem sim_note (name : String) {a b : Option Code} (hab : Option.Rel (fun x y => x.text = y.text) a b)
    (h : Same w v v') : upToNumbers.Sim w upToNumbers.Free (noteStatement name a v) (noteStatement name b v') := by
  cases hab with
  | none => exact sim_nothing
  | some hxy =>
    refine sim_read h fun t => .ite Iff.rfl (fun _ => ?_) fun _ => sim_nothing
    rw [hxy]
    exact sim_learn h _

/-! ### The checks -/

theorem sim_checks {r s : Run Unit} (hp : c.part = d.part) (h : Checks Eq (Same w) c d r s) :
    upToNumbers.Sim w upToNumbers.Free r s := by
  cases h with
  | namedSink name ha hv =>
    unfold checkNamedSink
    rw [ha]
    refine sim_read hv fun t => ?_
    iterate 6
      refine .ite Iff.rfl (fun _ => sim_report hp hv _ _) fun _ => ?_
    exact sim_nothing
  | query name ha hv =>
    unfold checkQuery
    rw [ha]
    exact sim_read hv fun t => .ite Iff.rfl (fun _ => sim_nothing) fun _ => sim_report hp hv _ _
  | sessionWrite _ hv | output _ hv | uploadDestination hv | unserialize hv =>
    exact sim_read hv fun _ => .ite Iff.rfl (fun _ => sim_report hp hv _ _) fun _ => sim_nothing
  | included hv =>
    unfold checkInclude
    rw [show c.kind = d.kind from congrArg Part.kind hp]
    exact sim_read hv fun _ => .ite Iff.rfl (fun _ => sim_report hp hv _ _) fun _ => sim_nothing
  | dynamicCall name ht hu hv =>
    obtain ⟨rfl, rfl⟩ := And.intro ht hu
    iterate 3
      refine .ite Iff.rfl (fun _ => sim_fresh_report hp _ _ _) fun _ => ?_
    exact .ite Iff.rfl (fun _ => sim_report hp hv _ _) fun _ => sim_nothing
  | callback name callback ht hu =>
    obtain ⟨rfl, rfl⟩ := And.intro ht hu
    iterate 4
      refine .ite Iff.rfl (fun _ => sim_fresh_report hp _ _ _) fun _ => ?_
    exact sim_nothing

end Numbering

open Numbering in
/-- Two runs keep memories together that are the same up to the numbers of values. -/
theorem upToNumbers_lockstep : Lockstep upToNumbers where
  refl := fun _ => .of_map rfl rfl
  trans := Later.trans
  same_later := fun h hv => ⟨Nat.lt_of_lt_of_le hv.lt h.size, hv.eq.trans (h.map _ hv.lt).symm⟩
  over_extends := Trace.Overlong.extends
  over_note := fun {t} xs h => by
    simp only [Trace.Overlong, List.length_append] at h ⊢
    omega
  equal := fun _ => rfl
  tainted := fun h => congrArg Trace.tainted h
  upload := fun h => congrArg Trace.upload h
  merge := fun h h' => congrArg₂ Trace.merge h h'
  concat := fun h h' => congrArg₂ Trace.concat h h'
  note := fun xs h => by rw [show _ = _ from h]
  decoded := fun name xs ys h hxy => by
    obtain rfl := h
    simp only [decodedTrace, hxy]
  clip := fun {t u} _ h => by
    by_cases ho : t.Overlong
    · exact Or.inr ho
    · exact Or.inl ((Trace.merge_empty ho).symm.trans h)
  known := fun {w v v'} h => by
    rw [h.eq]
    exact (w.renamed.trace v h.lt).symm
  lookup := fun {w name} _ => by
    show Option.Rel (Same w) (w.left.lookup? name) (w.right.lookup? name)
    rw [w.renamed.lookup]
    cases hv : w.left.lookup? name with
    | none => exact .none
    | some v => exact .some ⟨w.renamed.lookup_lt hv, rfl⟩
  checked := fun w => w.renamed.checked
  count := fun w =>
    .tick rfl rfl (u := ⟨w.map, { w.left with visited := w.left.visited + 1 },
      { w.right with visited := w.right.visited + 1 }, { w.renamed with }⟩) (Later.of_map rfl rfl) rfl rfl
  make := fun {t u} w h => by
    obtain rfl := h
    exact .ok (u := w.push t) (w.later_push t) rfl rfl (w.same_push t)
  rename := fun {w v v' name} _ h =>
    .ok (later_bindName h name) rfl rfl trivial
  check := fun w xs => by
    let check (x : Numbering) (f : List (List String) → List (List String)) : Numbering :=
      ⟨x.map, { x.left with checked := f x.left.checked }, { x.right with checked := f x.right.checked },
        { x.renamed with checked := congrArg f x.renamed.checked }⟩
    refine ⟨check w (xs :: ·), rfl, rfl, fun x hx => ⟨check x (List.drop 1), ?_, rfl, rfl⟩⟩
    have hfirst : Later w (check w (xs :: ·)) := .of_map rfl rfl
    have hlast : Later x (check x (List.drop 1)) := .of_map rfl rfl
    exact hfirst.trans (Later.trans hx hlast)
  escape := fun _ h => sim_learn h _
  mark := sim_mark
  remark := fun name _ _ hcd h => sim_note name hcd h
  comment := fun _ w =>
    .comment rfl (u := ⟨w.map, w.left,
      { w.right with visited := w.right.visited + 1, store := w.right.store.push {} },
      { w.renamed.skip {} with }⟩) (Later.of_map rfl rfl) rfl rfl
  checks := sim_checks
  restore := fun h => ⟨restore h, .of_map rfl rfl, rfl, rfl⟩
  joined_nil := fun _ => rfl
  joined_later := fun _ h => h
  join := fun {w js ks} _ h => by
    obtain rfl := h
    exact w.renamed.joinNames js
  settle := fun {w js ks} _ h => by
    obtain rfl := h
    obtain ⟨u, hu, hl, hr⟩ := bindJoined_later js w
    exact .ok hu hl hr trivial

end SourceAudit.Taint

namespace SourceAudit

variable {α : Type}

/-! ### The first of each -/

theorem firstOfEachFrom_map {same : α → α → Bool} {g : α → α} (h : ∀ x y, same (g x) (g y) = same x y) :
    ∀ done xs : List α,
      firstOfEachFrom same (done.map g) (xs.map g) = (firstOfEachFrom same done xs).map g
  | done, [] => List.map_reverse.symm
  | done, x :: xs => by
    have hany : (done.map g).any (same · (g x)) = done.any (same · x) := by
      simp only [List.any_map, Function.comp_def, h]
    rw [List.map_cons, firstOfEachFrom, firstOfEachFrom, hany]
    split
    · exact firstOfEachFrom_map h done xs
    · exact firstOfEachFrom_map h (x :: done) xs

theorem mem_of_mem_firstOfEachFrom {same : α → α → Bool} {y : α} :
    ∀ {done xs : List α}, y ∈ firstOfEachFrom same done xs → y ∈ done ∨ y ∈ xs
  | done, [], h => Or.inl (List.mem_reverse.mp h)
  | done, x :: xs, h => by
    rw [firstOfEachFrom] at h
    split at h
    · exact (mem_of_mem_firstOfEachFrom h).imp_right (List.mem_cons_of_mem x)
    · rcases mem_of_mem_firstOfEachFrom h with h | h
      · exact (List.mem_cons.mp h).elim (fun e => Or.inr (e ▸ List.mem_cons_self)) Or.inl
      · exact Or.inr (List.mem_cons_of_mem x h)

theorem firstOfEach_map {same : α → α → Bool} {g : α → α} (h : ∀ x y, same (g x) (g y) = same x y)
    (xs : List α) : firstOfEach same (xs.map g) = (firstOfEach same xs).map g :=
  firstOfEachFrom_map h [] xs

theorem mem_of_mem_firstOfEach {same : α → α → Bool} {xs : List α} {y : α} (h : y ∈ firstOfEach same xs) : y ∈ xs :=
  (mem_of_mem_firstOfEachFrom h).resolve_left List.not_mem_nil

namespace Taint

open Tree

/-! ### What is shown does not depend on the numbers of values -/

theorem Results.stop_eq {β : Type} {Q : α → β → Prop} {r : Run α} {s : Run β} {m m' : Memory}
    (h : Results Q (r m).1 (s m').1) : (s.outcome m').stop = (r.outcome m).stop := by
  rw [Run.outcome_stop, Run.outcome_stop]
  generalize (r m).1 = a at h
  generalize (s m').1 = b at h
  cases h <;> rfl

theorem Outcome.mem_findings {o : Outcome} {x : Finding} (h : x ∈ o.findings) : x ∈ o.memory.findings.toList := by
  unfold Outcome.findings at h
  split at h
  · exact mem_of_mem_firstOfEach h
  · exact absurd h List.not_mem_nil
  · exact h

theorem Outcome.findings_of_renamed {o o' : Outcome} {f : ValueId → ValueId} (hs : o'.stop = o.stop)
    (h : Renamed f o.memory o'.memory) :
    o'.findings = o.findings.map fun x => { x with value := f x.value } := by
  unfold Outcome.findings
  rw [hs, h.findings]
  split
  · have hsame : ∀ x y : Finding, sameFinding { x with value := f x.value } { y with value := f y.value } =
        sameFinding x y := fun _ _ => rfl
    exact firstOfEach_map hsame _
  · rfl
  · rfl

/-- Outcomes that are the same up to the numbers of values show the same. -/
theorem Outcome.shown_eq_of_renamed {o o' : Outcome} {f : ValueId → ValueId} (hs : o'.stop = o.stop)
    (h : Renamed f o.memory o'.memory) : o'.shown = o.shown := by
  unfold Outcome.shown
  rw [Outcome.findings_of_renamed hs h, List.map_map]
  refine List.map_congr_left fun x hx => ?_
  simp only [Function.comp, Memory.shown, h.trace x.value (h.reported x (mem_findings hx))]

/-! ### Comments in quiet places -/

theorem suited_upToNumbers (t : Tree Part) : Suited upToNumbers t :=
  ⟨fun _ _ => trivial, fun _ _ => trivial, fun _ _ _ => trivial⟩

theorem analyze_renamed {t u : Tree Part} (h : Commented quietPlace (fun _ _ => True) t u)
    (ht : (analyze t).stop ≠ some .budget) (hu : (analyze u).stop ≠ some .budget)
    (hlong : ∀ k ∈ (analyze t).memory.store, ¬k.Overlong) :
    (analyze u).stop = (analyze t).stop ∧ ∃ f, Renamed f (analyze t).memory (analyze u).memory := by
  let start : Numbering := ⟨id, Memory.empty, Memory.empty, Renamed.empty⟩
  have hsim : upToNumbers.Sim start upToNumbers.Free (meaningOf t).block (meaningOf u).block :=
    (upToNumbers_lockstep.linked h).related.block (fun _ _ => suited_upToNumbers _) start
  have hstop {r : Run Unit} (hr : (r Memory.empty).1 = .error .budget) :
      (r.outcome Memory.empty).stop = some .budget := by
    rw [Run.outcome_stop, hr]
  rcases hsim with (⟨-, ⟨_, rfl, hb⟩ | ⟨v, hv, ho⟩ | ⟨_, _, ho⟩⟩ | ⟨-, hb⟩) | ⟨w, -, hl, hr, hres⟩
  · exact absurd (hstop hb) ht
  · unfold analyze at hlong
    rw [Run.outcome_memory] at hlong
    rw [trace_of_lt hv] at ho
    exact absurd ho (hlong _ (Array.getElem_mem hv))
  · exact ho.elim
  · exact absurd (hstop hb) hu
  · refine ⟨hres.stop_eq, w.map, ?_⟩
    unfold analyze
    rw [Run.outcome_memory, Run.outcome_memory, ← show w.left = _ from hl, ← show w.right = _ from hr]
    exact w.renamed

/-- **Comments in quiet places change nothing.** The two programs end for the same reason, show the
same findings and know the same about each name, if neither is stopped for its length and the lists of
what is known stay within their lengths. -/
theorem shown_eq_of_commented {t u : Tree Part} (h : Commented quietPlace (fun _ _ => True) t u)
    (ht : (analyze t).stop ≠ some .budget) (hu : (analyze u).stop ≠ some .budget)
    (hlong : ∀ k ∈ (analyze t).memory.store, ¬k.Overlong) :
    (analyze u).stop = (analyze t).stop ∧ (analyze u).shown = (analyze t).shown ∧
      ∀ name, (analyze u).memory.traceOf name = (analyze t).memory.traceOf name := by
  obtain ⟨hs, f, hf⟩ := analyze_renamed h ht hu hlong
  exact ⟨hs, Outcome.shown_eq_of_renamed hs hf, hf.traceOf⟩

def emptyComment : Tree Part := .plain "comment" "" []

theorem isComment_emptyComment : IsComment emptyComment := ⟨rfl, rfl, rfl, rfl, rfl⟩

theorem emptyComment_refl (place : Part → Place) : Commented place (fun _ _ => True) emptyComment emptyComment :=
  .refl place _ fun _ _ => trivial

/-- `if ($_GET) { $x = $_GET; } echo $x . $y;` with some nodes among the children of the program, of
the `if`, of its block and of the operands. -/
def echoed (program test body operands : List (Tree Part)) : Tree Part :=
  .plain "program" "" (program ++ [
    .plain "if_statement" "if ($_GET) { $x = $_GET; }" (test ++ [
      .plain "parenthesized_expression" "($_GET)" [.plain "variable_name" "$_GET" []],
      .filling "body" "compound_statement" "{ $x = $_GET; }" (body ++ [
        .plain "expression_statement" "$x = $_GET;" [
          .plain "assignment_expression" "$x = $_GET" [
            .filling "left" "variable_name" "$x" [], .filling "right" "variable_name" "$_GET" []]]])]),
    .plain "echo_statement" "echo $x . $y;" [
      .plain "binary_expression" "$x . $y" ([
        .filling "left" "variable_name" "$x" [], .filling "right" "variable_name" "$y" []] ++ operands)]])

theorem echoed_commented : Commented quietPlace (fun _ _ => True) (echoed [] [] [] [])
    (echoed [emptyComment] [emptyComment] [emptyComment] [emptyComment]) := by
  have same (t : Tree Part) : Commented quietPlace (fun _ _ => True) t t := .refl _ t fun _ _ => trivial
  have comment {cs ds : List (Tree Part)} {q : Place} (hq : q.after = some 0)
      (h : Inserted (Commented quietPlace fun _ _ => True) q cs ds) :
      Inserted (Commented quietPlace fun _ _ => True) q cs (emptyComment :: ds) :=
    .comment hq isComment_emptyComment (emptyComment_refl _) h
  refine .node rfl trivial (comment rfl (.keep (.node rfl trivial ?_) (.keep (.node rfl trivial ?_) .nil)))
  · refine comment rfl (.keep (same _) (.keep (.node rfl trivial ?_) .nil))
    exact comment rfl (.keep (same _) .nil)
  · refine .keep (.node rfl trivial ?_) .nil
    exact .keep (same _) (.keep (same _) (comment rfl .nil))

theorem shown_eq_of_commented_echoed :
    let t := echoed [] [] [] []
    let u := echoed [emptyComment] [emptyComment] [emptyComment] [emptyComment]
    (analyze t).shown.map (·.rule) = [.output] ∧
      (analyze u).stop = (analyze t).stop ∧ (analyze u).shown = (analyze t).shown ∧
      ∀ name, (analyze u).memory.traceOf name = (analyze t).memory.traceOf name :=
  ⟨by decide +kernel, shown_eq_of_commented echoed_commented (by decide +kernel) (by decide +kernel)
    (by decide +kernel)⟩

/-- **A comment hides an operand.** With a comment in front of the second operand, the program writes
a value from the request, and nothing is found. -/
theorem comment_hides_operand :
    let echo (operands : List (Tree Part)) : Tree Part := .plain "program" "" [
      .plain "echo_statement" "echo $x . $_GET;" [.plain "binary_expression" "$x . $_GET" operands]]
    let x : Tree Part := .filling "left" "variable_name" "$x" []
    let y : Tree Part := .filling "right" "variable_name" "$_GET" []
    Commented (fun _ => Place.anywhere) (fun _ _ => True) (echo [x, y]) (echo [x, emptyComment, y]) ∧
      (analyze (echo [x, y])).stop = none ∧ (analyze (echo [x, emptyComment, y])).stop = none ∧
      (analyze (echo [x, y])).findings.map (fun f => (f.rule.id, f.line, f.excerpt)) =
        [("PHP_OUTPUT_TAINT", 1, "echo $x . $_GET;")] ∧
      (analyze (echo [x, emptyComment, y])).findings = [] := by
  intro echo x y
  refine ⟨?_, by decide +kernel, by decide +kernel, by decide +kernel, by decide +kernel⟩
  have same (t : Tree Part) : Commented (fun _ => Place.anywhere) (fun _ _ => True) t t :=
    .refl _ t fun _ _ => trivial
  refine .node rfl trivial (.keep (.node rfl trivial (.keep (.node rfl trivial ?_) .nil)) .nil)
  exact .keep (same x) (.comment rfl isComment_emptyComment (same _) (.keep (same y) .nil))

end Taint

end SourceAudit
