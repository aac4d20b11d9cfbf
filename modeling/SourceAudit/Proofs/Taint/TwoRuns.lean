/-
# Two runs side by side

A `Comparison` of two runs says what is compared: its worlds hold the memories of both
runs and say which values correspond (`same`), and `alike` says what must agree in what
is known about such values. `Sim w Q r s` says that `r` and `s`, run from the memories
of `w`, end alike: in a later world, with results related by `Q`, or stopped for the
same reason, unless the comparison ends before (`Ends`). It ends if the first run stops
for a reason that is forgiven, learns too much about a value or records a finding that
it is to record (`Over`). If both runs have the same program, the second one must then
have been stopped; if that of the second one has comments, nothing is said of it, and it
may also run out of its budget.

`Lockstep` lists what the comparison owes for each step of a run.
-/
import SourceAudit.Proofs.Syntax.Commented
import SourceAudit.Proofs.Taint.Discipline

namespace SourceAudit.Taint

open Tree

variable {α β γ δ : Type}

/-- What two runs are compared in. -/
structure Comparison where
  World : Type
  /-- The memory of the first run. -/
  left : World → Memory
  /-- The memory of the second run. -/
  right : World → Memory
  /-- The second world comes after the first one. -/
  later : World → World → Prop
  /-- The values of the two runs correspond. -/
  same : World → ValueId → ValueId → Prop
  /-- What is known about corresponding values. -/
  alike : Trace → Trace → Prop
  /-- What is joined from the branches of corresponding `switch` statements. -/
  joined : World → List (String × Trace) → List (String × Trace) → Prop
  /-- Too much is known about a value of the first run. -/
  tooMuch : Trace → Prop
  /-- The findings that the first run is to record. -/
  sought : Finding → Prop := fun _ => False
  /-- The names that both runs may look up. -/
  readable : String → Prop
  /-- The names that both runs may bind. -/
  writable : String → Prop
  /-- Both runs may meet a `switch`. -/
  switches : Prop
  /-- The comparison ends if the first run stops for the reason. -/
  forgives : Stop → Prop := (· = .budget)
  /-- The second program may have comments put into it. -/
  comments : Bool := true

def Memory.Has (m : Memory) (p : Finding → Prop) : Prop := ∃ f ∈ m.findings, p f

/-- Results of two runs that end alike. -/
inductive Results (Q : α → β → Prop) : Except Stop α → Except Stop β → Prop where
  | stop (e : Stop) : Results Q (.error e) (.error e)
  | ok {a : α} {b : β} : Q a b → Results Q (.ok a) (.ok b)

namespace Comparison

variable (F : Comparison)

/-- Too much is known about some value, or a finding that is sought has been recorded. -/
def Over (m : Memory) : Prop := (∃ v < m.store.size, F.tooMuch (m.trace v)) ∨ m.Has F.sought

/-- The comparison ends before the two runs do, which end with `o` and `o'`. -/
def Ends (o : Except Stop α × Memory) (o' : Except Stop β × Memory) : Prop :=
  (F.comments = false → o'.1 = .error .fileRead) ∧ ((∃ e, F.forgives e ∧ o.1 = .error e) ∨ F.Over o.2) ∨
    F.comments = true ∧ o'.1 = .error .budget

/-- The runs end alike, unless the comparison ends before. -/
def Sim (w : F.World) (Q : F.World → α → β → Prop) (r : Run α) (s : Run β) : Prop :=
  F.Ends (r (F.left w)) (s (F.right w)) ∨ ∃ u, F.later w u ∧ F.left u = (r (F.left w)).2 ∧
    F.right u = (s (F.right w)).2 ∧ Results (Q u) (r (F.left w)).1 (s (F.right w)).1

abbrev Free : F.World → α → β → Prop := fun _ _ _ => True

/-- Alike, or because of comments only once the lists of the first trace are cut to their greatest lengths. -/
def Near (t u : Trace) : Prop := F.alike t u ∨ F.comments = true ∧ F.alike (t.merge {}) u

end Comparison

section

variable (alike : Trace → Trace → Prop) (same : ValueId → ValueId → Prop)

/-- The same check at two nodes. -/
inductive Checks (c d : Code) : Run Unit → Run Unit → Prop
  | namedSink {v v'} (name : String) (ha : evaluatesReplacement (arguments c) = evaluatesReplacement (arguments d))
    (hv : same v v') : Checks c d (checkNamedSink c name v) (checkNamedSink d name v')
  | query {v v'} (name : String) (ha : isParameterized (arguments c) = isParameterized (arguments d)) (hv : same v v') :
    Checks c d (checkQuery c name v) (checkQuery d name v')
  | sessionWrite {v v'} (key : String) (hv : same v v') :
    Checks c d (checkSessionWrite c key v) (checkSessionWrite d key v')
  | output {v v'} (name : String) (hv : same v v') : Checks c d (checkOutput c name v) (checkOutput d name v')
  | included {v v'} (hv : same v v') : Checks c d (checkInclude c v) (checkInclude d v')
  | uploadDestination {v v'} (hv : same v v') : Checks c d (checkUploadDestination c v) (checkUploadDestination d v')
  | unserialize {v v'} (hv : same v v') : Checks c d (checkUnserialize c v) (checkUnserialize d v')
  | dynamicCall {v v' t t' u u'} (name : String) (ht : alike t t') (hu : alike u u') (hv : same v v') :
    Checks c d (checkDynamicCall c name t u v) (checkDynamicCall d name t' u' v')
  | callback {t t' u u'} (name : String) (callback : Option String) (ht : alike t t') (hu : alike u u') :
    Checks c d (checkCallback c name callback t u) (checkCallback d name callback t' u')

variable {alike same}

theorem Checks.reports {c d : Code} {r s : Run Unit} (h : Checks alike same c d r s) : Reports 1 r ∧ Reports 1 s := by
  cases h <;> simp only [reports_checkNamedSink, reports_checkQuery, reports_checkSessionWrite, reports_checkOutput,
    reports_checkInclude, reports_checkUploadDestination, reports_checkUnserialize, reports_checkDynamicCall,
    reports_checkCallback, and_self]

end

/-- What a comparison owes for each step. -/
structure Lockstep (F : Comparison) : Prop where
  refl : ∀ w, F.later w w
  trans : ∀ {w u x}, F.later w u → F.later u x → F.later w x
  same_later : ∀ {w u v v'}, F.later w u → F.same w v v' → F.same u v v'
  over_extends : ∀ {t u : Trace}, t.Extends u → F.tooMuch t → F.tooMuch u
  over_note : ∀ {t : Trace} (xs : List String), F.tooMuch t →
    F.tooMuch { t with statement := true, transforms := t.transforms ++ xs }
  -- what is known
  equal : ∀ t, F.alike t t
  tainted : ∀ {t u : Trace}, F.alike t u → t.tainted = u.tainted
  upload : ∀ {t u : Trace}, F.alike t u → t.upload = u.upload
  merge : ∀ {t u t' u' : Trace}, F.alike t u → F.alike t' u' → F.alike (t.merge t') (u.merge u')
  concat : ∀ {t u t' u' : Trace}, F.alike t u → F.alike t' u' → F.alike (t.concat t') (u.concat u')
  note : ∀ {t u : Trace} (xs : List String), F.alike t u →
    F.alike { t with statement := true, transforms := t.transforms ++ xs }
      { u with statement := true, transforms := u.transforms ++ xs }
  decoded : ∀ {t u : Trace} (name : String) {xs ys : List Code}, F.alike t u →
    xs.flatMap (decodedLiterals name) = ys.flatMap (decodedLiterals name) →
    F.alike (decodedTrace name xs t) (decodedTrace name ys u)
  clip : ∀ {t u : Trace}, F.comments = true → F.alike (t.merge {}) u → F.alike t u ∨ F.tooMuch t
  -- what the memories say
  known : ∀ {w v v'}, F.same w v v' → F.alike ((F.left w).trace v) ((F.right w).trace v')
  lookup : ∀ {w name}, F.readable name →
    Option.Rel (F.same w) ((F.left w).lookup? name) ((F.right w).lookup? name)
  checked : ∀ w, (F.left w).checked = (F.right w).checked
  -- the steps of both runs
  count : ∀ w, F.Sim w F.Free tick tick
  make : ∀ {t u} w, F.alike t u → F.Sim w F.same (fresh t) (fresh u)
  rename : ∀ {w v v' name}, F.writable name → F.same w v v' →
    F.Sim w F.Free (bindName name v) (bindName name v')
  check : ∀ w (xs : List String), ∃ u, F.left u = { F.left w with checked := xs :: (F.left w).checked } ∧
    F.right u = { F.right w with checked := xs :: (F.right w).checked } ∧
    ∀ x, F.later u x → ∃ y, F.later w y ∧ F.left y = { F.left x with checked := (F.left x).checked.drop 1 } ∧
      F.right y = { F.right x with checked := (F.right x).checked.drop 1 }
  escape : ∀ {w v v'} (name : String), F.same w v v' →
    F.Sim w F.Free (learn v fun t => { t with transforms := t.transforms ++ [name] })
      (learn v' fun t => { t with transforms := t.transforms ++ [name] })
  mark : ∀ {w v v'}, F.same w v v' → F.Sim w F.Free (markCallable v) (markCallable v')
  remark : ∀ {w v v'} (name : String) {c d : Option Code},
    Option.Rel (fun x y => x.text = y.text) c d → F.same w v v' →
    F.Sim w F.Free (noteStatement name c v) (noteStatement name d v')
  -- a comment that only the second run meets
  comment : F.comments = true → ∀ w, F.Sim w (fun u (_ : Unit) v' => (F.right u).trace v' = {}) (pure ())
    (do tick; fresh {})
  checks : ∀ {w c d r s}, c.part = d.part → Checks F.alike (F.same w) c d r s → F.Sim w F.Free r s
  -- the branches of a switch
  restore : ∀ {w u}, F.later w u → ∃ x, F.later u x ∧ F.left x = { F.left u with names := (F.left w).names } ∧
    F.right x = { F.right u with names := (F.right w).names }
  joined_nil : ∀ w, F.joined w [] []
  joined_later : ∀ {w u js ks}, F.later w u → F.joined w js ks → F.joined u js ks
  join : ∀ {w js ks}, F.switches → F.joined w js ks →
    F.joined w (joinNames (F.left w) js) (joinNames (F.right w) ks)
  settle : ∀ {w js ks}, F.switches → F.joined w js ks →
    F.Sim w F.Free (bindJoined js) (bindJoined ks)

/-! ### Putting steps together -/

section

variable {F : Comparison} {w : F.World} {Q : F.World → α → β → Prop} {R : F.World → γ → δ → Prop}
  {t u : Trace} {rs ss : List (Run ValueId)} {r s : Run Unit} {v v' : ValueId} {name : String}

theorem Comparison.Sim.ok {u : F.World} (hu : F.later w u) {r : Run α} {s : Run β} {a : α} {b : β}
    (hr : r (F.left w) = (.ok a, F.left u)) (hs : s (F.right w) = (.ok b, F.right u)) (hq : Q u a b) :
    F.Sim w Q r s := by
  refine Or.inr ⟨u, hu, ?_, ?_, ?_⟩
  · rw [hr]
  · rw [hs]
  · rw [hr, hs]
    exact .ok hq

/-- Two runs that gave a result and know too much of no value. -/
theorem Comparison.Sim.world {r : Run α} {s : Run β} {a : α} {b : β} {m m' : Memory} (h : F.Sim w Q r s)
    (ho : ¬F.Over m) (hr : r (F.left w) = (.ok a, m)) (hs : s (F.right w) = (.ok b, m')) :
    ∃ u, F.later w u ∧ F.left u = m ∧ F.right u = m' := by
  unfold Comparison.Sim at h
  rw [hr, hs] at h
  rcases h with (⟨-, ⟨e, -, h⟩ | h⟩ | ⟨-, h⟩) | ⟨u, hu, hl, hr, -⟩
  · cases h
  · exact absurd h ho
  · cases h
  · exact ⟨u, hu, hl, hr⟩

/-- With comments, the second run alone may use up its budget. -/
theorem Comparison.Ends.of_budget (hc : F.comments = true) {o : Except Stop α × Memory} {o' : Except Stop β × Memory}
    (h : o'.1 = .error .budget) : F.Ends o o' :=
  Or.inr ⟨hc, h⟩

/-- With comments, nothing is said of the second run once the first one has ended the comparison. -/
theorem Comparison.Ends.of_left (hc : F.comments = true) {o : Except Stop α × Memory} {o' : Except Stop β × Memory}
    (h : (∃ e, F.forgives e ∧ o.1 = .error e) ∨ F.Over o.2) : F.Ends o o' :=
  Or.inl ⟨fun hn => absurd (hc.symm.trans hn) (by simp), h⟩

theorem Comparison.Ends.bind {r : Run α} {s : Run β} {k : α → Run γ} {l : β → Run δ} {m n : Memory}
    (h : F.Ends (r m) (s n)) (keep : ∀ a, Holds F.Over Anything (k a)) : F.Ends ((r >>= k) m) ((s >>= l) n) := by
  have herror : ∀ e, (s n).1 = .error e → ((s >>= l) n).1 = .error e := by
    intro e he
    rw [bind_apply]
    rcases hs : s n with ⟨_ | b, n'⟩ <;> rw [hs] at he <;> cases he
    rfl
  refine Or.imp (And.imp (fun hs hc => herror _ (hs hc)) fun h => ?_) (And.imp_right (herror _)) h
  rw [bind_apply]
  rcases hr : r m with ⟨e | a, m'⟩ <;> rw [hr] at h
  · exact h.imp (fun ⟨e', hf, he⟩ => ⟨e', hf, congrArg Except.error (Except.error.inj he)⟩) id
  · rcases h with ⟨_, _, he⟩ | h
    · cases he
    · exact Or.inr (keep a m' h).1

theorem Comparison.Sim.tick (hc : F.comments = true) (hf : F.forgives .budget) {u : F.World} (hu : F.later w u)
    (hl : F.left u = { F.left w with visited := (F.left w).visited + 1 })
    (hr : F.right u = { F.right w with visited := (F.right w).visited + 1 }) :
    F.Sim w F.Free tick tick := by
  by_cases hbl : budget < (F.left w).visited + 1
  · exact Or.inl (.of_left hc (Or.inl ⟨_, hf, by rw [tick_apply, if_pos hbl]⟩))
  by_cases hbr : budget < (F.right w).visited + 1
  · exact Or.inl (.of_budget hc (by rw [tick_apply, if_pos hbr]))
  refine .ok hu (a := ()) (b := ()) ?_ ?_ trivial
  · rw [tick_apply, if_neg hbl, hl]
  · rw [tick_apply, if_neg hbr, hr]

/-- Only the second run counts a node, and makes a value of which nothing is known. -/
theorem Comparison.Sim.comment (hc : F.comments = true) {u : F.World} (hu : F.later w u) (hl : F.left u = F.left w)
    (hr : F.right u = { F.right w with
      visited := (F.right w).visited + 1, store := (F.right w).store.push {} }) :
    F.Sim w (fun u (_ : Unit) v => (F.right u).trace v = {}) (pure ()) (do Taint.tick; fresh {}) := by
  by_cases hbr : budget < (F.right w).visited + 1
  · refine Or.inl (.of_budget hc ?_)
    rw [bind_apply, tick_apply, if_pos hbr]
  refine .ok hu (a := ()) (b := (F.right w).store.size) (by rw [hl]; rfl) ?_ ?_
  · rw [bind_apply, tick_apply, if_neg hbr, hr]
    rfl
  · rw [hr]
    exact trace_push_size { F.right w with visited := (F.right w).visited + 1 } {}

theorem Comparison.Sim.of_apply {r : Run α} {s : Run β} (r' : Run α) (s' : Run β)
    (hr : r (F.left w) = r' (F.left w)) (hs : s (F.right w) = s' (F.right w)) (h : F.Sim w Q r' s') :
    F.Sim w Q r s := by
  unfold Comparison.Sim
  rw [hr, hs]
  exact h

theorem Comparison.Sim.ite {p q : Prop} [Decidable p] [Decidable q] (hpq : p ↔ q) {r r' : Run α} {s s' : Run β}
    (h : p → F.Sim w Q r s) (h' : ¬p → F.Sim w Q r' s') :
    F.Sim w Q (if p then r else r') (if q then s else s') := by
  by_cases hp : p
  · rw [if_pos hp, if_pos (hpq.mp hp)]
    exact h hp
  · rw [if_neg hp, if_neg fun hq => hp (hpq.mpr hq)]
    exact h' hp

theorem report_eq {c d : Code} (hp : c.part = d.part) : report c = report d := by
  funext rule description v
  simp only [report, line, text, hp]

theorem has_invariant (p : Finding → Prop) : Invariant Anything Anything (·.Has p) where
  good := fun _ _ => trivial
  count := fun hm => hm
  make := fun hm _ => hm
  extend := fun _ hm _ => hm
  rename := fun _ hm => hm
  find := fun ⟨f, hf, hp⟩ _ => ⟨f, Array.mem_push.mpr (Or.inl hf), hp⟩
  check := fun _ hm => hm

theorem Lockstep.over_invariant (L : Lockstep F) : Invariant Anything Anything F.Over where
  good := fun _ _ => trivial
  count := fun h => h
  make := by
    rintro m t (⟨v, hv, ho⟩ | hhas) -
    · refine Or.inl ⟨v, Nat.lt_of_lt_of_le hv (Memory.Grows.push m t).size, ?_⟩
      rw [trace_push_lt t hv]
      exact ho
    · exact Or.inr hhas
  extend := by
    rintro m f v (⟨v', hv, ho⟩ | hhas) hf
    · have hg := Memory.Grows.modify m v hf
      exact Or.inl ⟨v', Nat.lt_of_lt_of_le hv hg.size, L.over_extends (hg.trace v' hv) ho⟩
    · exact Or.inr hhas
  rename := fun _ h => h
  find := fun h hf => h.imp_right fun hhas => (has_invariant F.sought).find hhas hf
  check := fun _ h => h

namespace Lockstep

variable (L : Lockstep F)

include L

protected theorem pure {a : α} {b : β} (h : Q w a b) : F.Sim w Q (pure a) (pure b) :=
  Or.inr ⟨w, L.refl w, rfl, rfl, .ok h⟩

protected theorem throw (e : Stop) : F.Sim w Q (throw e) (throw e) :=
  Or.inr ⟨w, L.refl w, rfl, rfl, .stop e⟩

/-- One run after the other. If the comparison ends in the first ones, the rest of the first run must
keep it so. -/
protected theorem bind {r : Run α} {s : Run β} {k : α → Run γ} {l : β → Run δ} (h : F.Sim w Q r s)
    (keep : ∀ a, Holds F.Over Anything (k a)) (hk : ∀ u a b, F.later w u → Q u a b → F.Sim u R (k a) (l b)) :
    F.Sim w R (r >>= k) (s >>= l) := by
  rcases h with h | ⟨u, hu, hl, hr, h⟩
  · exact Or.inl (h.bind keep)
  · unfold Comparison.Sim
    rw [bind_apply, bind_apply]
    generalize r (F.left w) = o at hl h
    generalize s (F.right w) = o' at hr h
    obtain ⟨o, m⟩ := o
    obtain ⟨o', m'⟩ := o'
    obtain rfl : F.left u = m := hl
    obtain rfl : F.right u = m' := hr
    dsimp only at h
    cases h with
    | stop e => exact Or.inr ⟨u, hu, rfl, rfl, .stop e⟩
    | ok hq =>
      refine (hk u _ _ hu hq).imp_right ?_
      rintro ⟨x, hx, hl, hr, h⟩
      exact ⟨x, L.trans hu hx, hl, hr, h⟩

theorem step {u : F.World} (hu : F.later w u) {r : Run α} {s : Run β} (r' : Run α) (s' : Run β)
    (hr : r (F.left w) = r' (F.left u)) (hs : s (F.right w) = s' (F.right u)) (h : F.Sim u Q r' s') :
    F.Sim w Q r s := by
  unfold Comparison.Sim
  rw [hr, hs]
  refine h.imp_right ?_
  rintro ⟨x, hx, hl, hr, h⟩
  exact ⟨x, L.trans hu hx, hl, hr, h⟩

theorem tick_bind {k : Unit → Run γ} {l : Unit → Run δ} (keep : Holds F.Over Anything (k ()))
    (hk : ∀ u, F.later w u → F.Sim u R (k ()) (l ())) : F.Sim w R (tick >>= k) (tick >>= l) :=
  L.bind (L.count w) (fun _ => keep) fun u _ _ hu _ => hk u hu

protected theorem read_bind (hv : F.same w v v') {k : Trace → Run γ} {l : Trace → Run δ}
    (hk : ∀ t t', F.alike t t' → F.Sim w R (k t) (l t')) : F.Sim w R (read v >>= k) (read v' >>= l) :=
  .of_apply _ _ (Taint.read_bind v k _) (Taint.read_bind v' l _) (hk _ _ (L.known hv))

theorem value_bind {r s : Run ValueId} (h : F.Sim w F.same r s) {k : Trace → Run γ} {l : Trace → Run δ}
    (keep : ∀ t, Holds F.Over Anything (k t)) (hk : ∀ u t t', F.later w u → F.alike t t' → F.Sim u R (k t) (l t')) :
    F.Sim w R (do k (← read (← r))) (do l (← read (← s))) :=
  L.bind h (fun v => (L.over_invariant.read_holds v).bind fun t _ => keep t) fun u _ _ hu hv =>
    L.read_bind hv fun t t' => hk u t t' hu

theorem comment_bind (hc : F.comments = true) {r : Run γ} (keep : Holds F.Over Anything r) {l : Trace → Run δ}
    (hk : ∀ u, F.later w u → F.Sim u R r (l {})) : F.Sim w R r ((do tick; fresh {}) >>= fun v => read v >>= l) := by
  refine L.bind (k := fun _ => r) (L.comment hc w) (fun _ => keep) fun u _ v hu hv => ?_
  refine .of_apply r (l {}) rfl ?_ (hk u hu)
  rw [Taint.read_bind, hv]

theorem then_return (h : F.Sim w F.Free r s) (hv : F.same w v v') :
    F.Sim w F.same (do r; return v) (do s; return v') :=
  L.bind h (fun _ => Holds.pure trivial) fun _ _ _ hu _ => L.pure (L.same_later hu hv)

theorem lookup_bind (hn : F.readable name) {k : Option ValueId → Run γ}
    {l : Option ValueId → Run δ} (hk : ∀ x y, Option.Rel (F.same w) x y → F.Sim w R (k x) (l y)) :
    F.Sim w R (lookup? name >>= k) (lookup? name >>= l) :=
  .of_apply (k ((F.left w).lookup? name)) (l ((F.right w).lookup? name)) rfl rfl (hk _ _ (L.lookup hn))

theorem traceOf_alike (hn : F.readable name) : F.alike ((F.left w).traceOf name) ((F.right w).traceOf name) := by
  have h := L.lookup (w := w) hn
  unfold Memory.traceOf
  generalize (F.left w).lookup? name = x at h
  generalize (F.right w).lookup? name = y at h
  cases h with
  | none => exact L.equal _
  | some h => exact L.known h

theorem traceOf_bind (hn : F.readable name) {k : Trace → Run γ} {l : Trace → Run δ}
    (hk : ∀ t t', F.alike t t' → F.Sim w R (k t) (l t')) :
    F.Sim w R (traceOf name >>= k) (traceOf name >>= l) :=
  .of_apply (k ((F.left w).traceOf name)) (l ((F.right w).traceOf name)) rfl rfl
    (hk _ _ (L.traceOf_alike hn))

theorem read_paired (hv : F.same w v v') : F.Sim w (fun _ => F.alike) (read v) (read v') :=
  .of_apply (Pure.pure ((F.left w).trace v)) (Pure.pure ((F.right w).trace v')) rfl rfl (L.pure (L.known hv))

theorem within_paired (xs : List String) {r : Run α} {s : Run β} (h : ∀ u, F.Sim u F.Free r s) :
    F.Sim w F.Free (within xs r) (within xs s) := by
  obtain ⟨u, hl, hr, hback⟩ := L.check w xs
  have hbody := h u
  unfold Comparison.Sim at hbody ⊢
  rw [hl, hr] at hbody
  rw [within_apply, within_apply]
  refine hbody.imp (fun ho => ho) ?_
  rintro ⟨x, hx, hxl, hxr, hres⟩
  obtain ⟨y, hy, hyl, hyr⟩ := hback x hx
  refine ⟨y, hy, ?_, ?_, hres⟩
  · rw [hyl, hxl]
  · rw [hyr, hxr]

theorem isChecked_bind {key : String} {k : Bool → Run γ} {l : Bool → Run δ}
    (hk : ∀ b, F.Sim w R (k b) (l b)) : F.Sim w R (isChecked key >>= k) (isChecked key >>= l) := by
  have h := L.checked w
  refine .of_apply (k ((F.left w).checked.any (·.contains key)))
    (l ((F.right w).checked.any (·.contains key))) rfl rfl ?_
  rw [h]
  exact hk _

/-! ### Merging -/

end Lockstep

theorem mergeLimited_clip (xs ys : List String) {limit : Int} (hl : 0 ≤ limit) :
    mergeLimited (mergeLimited xs [] limit) ys limit = mergeLimited xs ys limit := by
  simp [mergeLimited, takeTo, extendTo, hl, List.take_take]

/-- A merge cuts the lists of its first trace, so it does not matter if they are cut before. -/
theorem Trace.merge_clip (t u : Trace) : (t.merge {}).merge u = t.merge u := by
  have hi : (0 : Int) ≤ maxItems := by decide
  have hl : (0 : Int) ≤ (maxLiterals : Int) := by decide
  simp [Trace.merge, mergeLimited_clip _ _ hi, mergeLimited_clip _ _ hl]

namespace Lockstep

variable (L : Lockstep F)

include L

theorem near_merge {t' u' : Trace} (h : F.Near t u) (h' : F.alike t' u') : F.alike (t.merge t') (u.merge u') := by
  rcases h with h | ⟨-, h⟩
  · exact L.merge h h'
  · rw [← Trace.merge_clip t t']
    exact L.merge h h'

/-- A comment leaves what is merged as it is, but for the length of its lists. -/
theorem near_comment (hc : F.comments = true) (h : F.Near t u) : F.Near t (u.merge {}) :=
  Or.inr ⟨hc, L.near_merge h (L.equal {})⟩

omit L in
theorem over_fresh (hc : F.comments = true) (h : F.tooMuch t) {Q : F.World → ValueId → β → Prop}
    {s : Run β} : F.Sim w Q (fresh t) s := by
  refine Or.inl (.of_left hc (Or.inr (Or.inl ⟨(F.left w).store.size, ?_, ?_⟩)))
  · simp [fresh_apply]
  · rw [fresh_apply, trace_push_size]
    exact h

theorem make_near (h : F.Near t u) : F.Sim w F.same (fresh t) (fresh u) := by
  rcases h with h | ⟨hc, h⟩
  · exact L.make w h
  · exact (L.clip hc h).elim (L.make w) fun h => over_fresh hc h

theorem make_note (h : F.Near t u) (xs : List String) : F.Sim w F.same
    (fresh { t with statement := true, transforms := t.transforms ++ xs })
    (fresh { u with statement := true, transforms := u.transforms ++ xs }) := by
  rcases h with h | ⟨hc, h⟩
  · exact L.make w (L.note xs h)
  · exact (L.clip hc h).elim (fun h => L.make w (L.note xs h)) fun h => over_fresh hc (L.over_note xs h)

end Lockstep

/-- The runs of the second list are those of the first, and comments. -/
inductive Comparison.MixedRuns (F : Comparison) : List (Run ValueId) → List (Run ValueId) → Prop where
  | nil : F.MixedRuns [] []
  | keep {r s : Run ValueId} {rs ss : List (Run ValueId)} : (∀ w, F.Sim w F.same r s) →
      Holds F.Over Anything r → F.MixedRuns rs ss → F.MixedRuns (r :: rs) (s :: ss)
  | comment {rs ss : List (Run ValueId)} : F.comments = true → F.MixedRuns rs ss →
      F.MixedRuns rs ((do tick; fresh {}) :: ss)

theorem Comparison.MixedRuns.holds (h : F.MixedRuns rs ss) : ∀ r ∈ rs, Holds F.Over Anything r := by
  induction h with
  | nil => simp
  | comment _ _ ih => exact ih
  | keep _ hr _ ih => exact List.forall_mem_cons.mpr ⟨hr, ih⟩

def Lockstep.over (L : Lockstep F) : Discipline := L.over_invariant.discipline vouched_all

namespace Lockstep

variable (L : Lockstep F)

include L

theorem over_allows (n : Tree Part) : L.over.Allows n := L.over_invariant.allows vouched_anything trivial

theorem mergeRuns_holds (h : ∀ r ∈ rs, Holds F.Over Anything r) (t : Trace) :
    Holds F.Over Anything (mergeRuns t rs) :=
  L.over.mergeRuns (g := 0) h trivial

theorem fresh_holds (t : Trace) : Holds F.Over Anything (fresh t) := L.over_invariant.fresh_holds trivial

theorem then_fresh (h : F.Sim w F.Free r s) (hn : F.Near t u) : F.Sim w F.same (do r; fresh t) (do s; fresh u) :=
  L.bind h (fun _ => L.fresh_holds _) fun _ _ _ _ _ => L.make_near hn

theorem mergeRuns_near (h : F.MixedRuns rs ss) : ∀ {w : F.World} {t u : Trace},
    F.Near t u → F.Sim w (fun _ => F.Near) (mergeRuns t rs) (mergeRuns u ss) := by
  induction h with
  | nil => exact fun hn => L.pure hn
  | @keep r s rs ss hrs hr hrest ih =>
    intro w t u hn
    refine L.value_bind (hrs w) (fun _ => L.mergeRuns_holds hrest.holds _) fun x t' u' _ htu => ?_
    exact ih (Or.inl (L.near_merge hn htu))
  | @comment rs ss hc hrest ih =>
    intro w t u hn
    -- the first run does nothing here
    exact L.comment_bind (l := fun t => mergeRuns (u.merge t) ss) hc (L.mergeRuns_holds hrest.holds t)
      fun _ _ => ih (L.near_comment hc hn)

theorem mergeRuns_alike (h : List.Forall₂ (fun r s => ∀ w, F.Sim w F.same r s) rs ss) :
    (∀ r ∈ rs, Holds F.Over Anything r) → ∀ {w : F.World} {t u : Trace}, F.alike t u →
      F.Sim w (fun _ => F.alike) (mergeRuns t rs) (mergeRuns u ss) := by
  induction h with
  | nil => exact fun _ _ _ _ ha => L.pure ha
  | cons hrs _ ih =>
    intro hall w t u ha
    have hrest := (List.forall_mem_cons.mp hall).2
    refine L.value_bind (hrs w) (fun _ => L.mergeRuns_holds hrest _) fun x t' u' _ htu => ?_
    exact ih hrest (L.merge ha htu)

theorem mergedValue (h : F.MixedRuns rs ss) : F.Sim w F.same (mergedValue rs) (mergedValue ss) :=
  L.bind (L.mergeRuns_near h (Or.inl (L.equal {}))) L.fresh_holds fun _ _ _ _ hn => L.make_near hn

end Lockstep

end

end SourceAudit.Taint
