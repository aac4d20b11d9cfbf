/-
# The flags of names

Whether a value comes from a request, and whether it describes an uploaded file, is
settled when it is made. `Memory.flagsOf` gives these flags of a name. A merge joins
them, so a `switch` leaves a name with the flags that it has before or after one of the
cases (`bindJoined_flags`).

Two runs of the same program from different memories are compared by the flags of their
names (`upToFlags`): a name that the program assigns has the same flags in both, or else
each run leaves it as it found it. With one memory on both sides it is a frame: names
that are not assigned keep their flags.
-/
import SourceAudit.Proofs.Taint.TwoRuns

namespace SourceAudit.Taint

open Tree

/-! ### Flags -/

/-- Whether a value comes from a request, and whether it describes an uploaded file. -/
def Trace.flags (t : Trace) : Bool × Bool := (t.tainted, t.upload)

def orFlags (f g : Bool × Bool) : Bool × Bool := (f.1 || g.1, f.2 || g.2)

theorem orFlags_self (f : Bool × Bool) : orFlags f f = f := by simp [orFlags]

theorem orFlags_none (f : Bool × Bool) : orFlags (false, false) f = f := by simp [orFlags]

theorem Trace.flags_merge (t u : Trace) : (t.merge u).flags = orFlags t.flags u.flags := rfl

theorem Trace.Extends.flags {t u : Trace} (h : t.Extends u) : u.flags = t.flags := by
  rw [Trace.flags, h.tainted, h.upload, Trace.flags]

def Memory.flagsOf (m : Memory) (name : String) : Option (Bool × Bool) :=
  (m.lookup? name).map fun v => (m.trace v).flags

def flagsIn (js : List (String × Trace)) (name : String) : Option (Bool × Bool) :=
  (js.find? (·.1 == name)).map (·.2.flags)

theorem flags_traceOf (m : Memory) (name : String) :
    (m.traceOf name).flags = (m.flagsOf name).getD (false, false) := by
  unfold Memory.traceOf Memory.flagsOf
  cases m.lookup? name <;> rfl

/-! ### Sound memories -/

/-- Each name has one value, which the store has. -/
structure Memory.Sound (m : Memory) : Prop where
  bound : ∀ p ∈ m.names, p.2 < m.store.size
  nodup : (m.names.map (·.1)).Nodup

theorem sound_empty : Memory.empty.Sound := ⟨fun _ h => absurd h List.not_mem_nil, List.nodup_nil⟩

theorem mem_keys_setName {name x : String} {v : ValueId} {ns : List (String × ValueId)}
    (h : x ∈ (setName name v ns).map (·.1)) : x = name ∨ x ∈ ns.map (·.1) := by
  obtain ⟨p, hp, rfl⟩ := List.mem_map.mp h
  rcases mem_setName hp with rfl | hp
  · exact Or.inl rfl
  · exact Or.inr (List.mem_map_of_mem hp)

theorem nodup_setName (name : String) (v : ValueId) : ∀ {ns : List (String × ValueId)},
    (ns.map (·.1)).Nodup → ((setName name v ns).map (·.1)).Nodup
  | [], _ => List.nodup_singleton name
  | (n, w) :: ns, h => by
    obtain ⟨hn, hns⟩ := List.nodup_cons.mp h
    by_cases hname : n = name
    · simpa [setName, hname] using h
    · simp only [setName, beq_iff_eq, hname, if_false, List.map_cons]
      refine List.nodup_cons.mpr ⟨fun hmem => ?_, nodup_setName name v hns⟩
      exact (mem_keys_setName hmem).elim hname hn

namespace Memory.Sound

variable {m m' : Memory}

theorem lt_of_lookup? (h : m.Sound) {name : String} {v : ValueId} (hv : m.lookup? name = some v) :
    v < m.store.size :=
  h.bound _ (mem_names_of_lookup? hv)

theorem grows (h : m.Sound) (hg : m.Grows m') (hn : m'.names = m.names) : m'.Sound where
  bound := fun p hp => Nat.lt_of_lt_of_le (h.bound p (hn ▸ hp)) hg.size
  nodup := by rw [hn]; exact h.nodup

theorem flagsOf_grows (h : m.Sound) (hg : m.Grows m') (hn : m'.names = m.names) (name : String) :
    m'.flagsOf name = m.flagsOf name := by
  have hl : m'.lookup? name = m.lookup? name := by rw [Memory.lookup?, hn, Memory.lookup?]
  unfold Memory.flagsOf
  rw [hl]
  cases hv : m.lookup? name with
  | none => rfl
  | some v => exact congrArg some (hg.trace v (h.lt_of_lookup? hv)).flags

theorem bindName (h : m.Sound) (name : String) {v : ValueId} (hv : v < m.store.size) :
    ({ m with names := setName name v m.names } : Memory).Sound where
  bound := fun p hp => (mem_setName hp).elim (fun e => by rw [e]; exact hv) (h.bound p)
  nodup := nodup_setName name v h.nodup

end Memory.Sound

theorem flagsOf_bindName (m : Memory) (name x : String) (v : ValueId) :
    ({ m with names := setName name v m.names } : Memory).flagsOf x =
      if x = name then some (m.trace v).flags else m.flagsOf x := by
  unfold Memory.flagsOf
  rw [lookup?_setName]
  split <;> rfl

/-! ### What a switch joins -/

section

variable {js : List (String × Trace)} {name : String}

theorem find?_eq_none_of_notMem {β : Type} {ps : List (String × β)} (h : name ∉ ps.map (·.1)) :
    ps.find? (·.1 == name) = none := by
  rw [List.find?_eq_none]
  intro p hp he
  exact h (List.mem_map.mpr ⟨p, hp, beq_iff_eq.mp he⟩)

theorem keys_joinName (js : List (String × Trace)) (name : String) (t : Trace) :
    (joinName js name t).map (·.1) =
      if name ∈ js.map (·.1) then js.map (·.1) else js.map (·.1) ++ [name] := by
  unfold joinName
  split
  · rename_i p hp
    have hname : name ∈ js.map (·.1) :=
      List.mem_map.mpr ⟨p, List.mem_of_find?_eq_some hp, by simpa using List.find?_some hp⟩
    rw [if_pos hname, List.map_map]
    refine List.map_congr_left fun q _ => ?_
    by_cases hq : q.1 = name <;> simp [hq]
  · rename_i hnone
    have hname : name ∉ js.map (·.1) := by
      rintro hmem
      obtain ⟨q, hq, rfl⟩ := List.mem_map.mp hmem
      exact List.find?_eq_none.mp hnone q hq (by simp)
    rw [if_neg hname, List.map_append]
    rfl

theorem nodup_joinName (h : (js.map (·.1)).Nodup) (name : String) (t : Trace) :
    ((joinName js name t).map (·.1)).Nodup := by
  rw [keys_joinName]
  split
  · exact h
  · rename_i hname
    exact List.nodup_append.mpr ⟨h, List.nodup_singleton name, fun x hx y hy => by
      rintro rfl
      exact hname (List.mem_singleton.mp hy ▸ hx)⟩

theorem nodup_joinNames (m : Memory) (h : (js.map (·.1)).Nodup) : ((joinNames m js).map (·.1)).Nodup := by
  unfold joinNames
  generalize m.names = ns
  induction ns generalizing js with
  | nil => exact h
  | cons p ns ih => exact ih (nodup_joinName h _ _)

theorem flagsIn_joinName (js : List (String × Trace)) (name x : String) (t : Trace) :
    flagsIn (joinName js name t) x =
      if x = name then Option.merge orFlags (flagsIn js x) (some t.flags) else flagsIn js x := by
  unfold flagsIn joinName
  split
  · rename_i p hp
    rw [List.find?_map, Option.map_map]
    have hkey : ((fun q : String × Trace => q.1 == x) ∘ fun q => if q.1 == name then (name, q.2.merge t) else q) =
        fun q => q.1 == x := by
      funext q
      by_cases hq : q.1 = name <;> simp [hq]
    rw [hkey]
    by_cases hx : x = name
    · subst hx
      have hname : p.1 = x := by simpa using List.find?_some hp
      simp [hp, hname, Trace.flags_merge]
    · rw [if_neg hx]
      cases hq : js.find? (·.1 == x) with
      | none => rfl
      | some q =>
        have hne : q.1 ≠ name := fun h => hx ((by simpa using List.find?_some hq : q.1 = x).symm.trans h)
        simp [hne]
  · rename_i hnone
    rw [List.find?_append]
    by_cases hx : x = name
    · subst hx
      simp [hnone, Trace.flags_merge, orFlags_none, show ({} : Trace).flags = (false, false) from rfl]
    · simp [hx, Ne.symm hx]

theorem flagsIn_joinNames {m : Memory} (hm : m.Sound) (js : List (String × Trace)) (x : String) :
    flagsIn (joinNames m js) x = Option.merge orFlags (flagsIn js x) (m.flagsOf x) := by
  have key : ∀ {ns : List (String × ValueId)} {js : List (String × Trace)}, (ns.map (·.1)).Nodup →
      flagsIn (ns.foldl (fun js p => joinName js p.1 (m.trace p.2)) js) x =
        Option.merge orFlags (flagsIn js x) ((ns.find? (·.1 == x)).map fun p => (m.trace p.2).flags) := by
    intro ns
    induction ns with
    | nil => simp
    | cons p ns ih =>
      intro js h
      obtain ⟨hp, hns⟩ := List.nodup_cons.mp h
      rw [List.foldl_cons, ih hns, flagsIn_joinName]
      by_cases hx : x = p.1
      · rw [if_pos hx, find?_eq_none_of_notMem (hx ▸ hp), List.find?_cons_of_pos (by simp [hx])]
        simp
      · rw [if_neg hx, List.find?_cons_of_neg (by simpa using Ne.symm hx)]
  rw [joinNames, key hm.nodup, Memory.flagsOf, Memory.lookup?, Option.map_map]
  rfl

end

/-- The joined names are bound: each has the flags that it had and those that are joined. -/
theorem bindJoined_flags : ∀ {js : List (String × Trace)} {m : Memory}, (js.map (·.1)).Nodup → m.Sound →
    ∃ m', bindJoined js m = (.ok (), m') ∧ m.Grows m' ∧ m'.Sound ∧ m'.checked = m.checked ∧
      ∀ x, m'.flagsOf x = Option.merge orFlags (m.flagsOf x) (flagsIn js x)
  | [], m, _, hm => ⟨m, rfl, .refl m, hm, rfl, fun x => by simp [flagsIn]⟩
  | (name, t) :: js, m, h, hm => by
    obtain ⟨hname, hjs⟩ := List.nodup_cons.mp h
    let value := (m.traceOf name).merge t
    let pushed : Memory := { m with store := m.store.push value }
    let next : Memory := { pushed with names := setName name m.store.size pushed.names }
    have hgrows : m.Grows pushed := .push m value
    have hgrows' : m.Grows next := hgrows.trans (.of_store rfl)
    have hnext : next.Sound := (hm.grows hgrows rfl).bindName name (by simp [pushed])
    obtain ⟨m', hrun, hg, hs, hc, hflags⟩ := bindJoined_flags hjs hnext
    refine ⟨m', hrun, hgrows'.trans hg, hs, hc, fun x => ?_⟩
    rw [hflags, flagsOf_bindName, hm.flagsOf_grows hgrows rfl]
    by_cases hx : x = name
    · subst hx
      have hvalue : (pushed.trace m.store.size).flags =
          orFlags ((m.flagsOf x).getD (false, false)) t.flags := by
        rw [trace_push_size, Trace.flags_merge, flags_traceOf]
      rw [if_pos rfl, hvalue, flagsIn, flagsIn, find?_eq_none_of_notMem hname,
        List.find?_cons_of_pos (by simp)]
      cases m.flagsOf x with
      | none => simp [orFlags_none]
      | some f => simp
    · rw [if_neg hx, flagsIn, flagsIn, List.find?_cons_of_neg (by simpa using Ne.symm hx)]

/-! ### The comparison -/

section

variable (a a' : Memory) (assigned : String → Prop)

/-- Memories of two runs that started from `a` and `a'`: a name that may be assigned has the same
flags in both, or else each run has left it as it was. -/
structure Twins (m m' : Memory) : Prop where
  left : m.Sound
  right : m'.Sound
  checked : m.checked = m'.checked
  names : ∀ x, assigned x ∧ m.flagsOf x = m'.flagsOf x ∨ m.flagsOf x = a.flagsOf x ∧ m'.flagsOf x = a'.flagsOf x

/-- Two memories of which this holds. -/
structure TwinWorld where
  left : Memory
  right : Memory
  twins : Twins a a' assigned left right

/-- What is joined in two runs has the same flags if it may be assigned, and else those that it had. -/
structure JoinedTwins (js ks : List (String × Trace)) : Prop where
  left : (js.map (·.1)).Nodup
  right : (ks.map (·.1)).Nodup
  both : ∀ x, assigned x → flagsIn js x = flagsIn ks x
  others : ∀ x, ¬assigned x → (flagsIn js x = none ∨ flagsIn js x = a.flagsOf x) ∧
    (flagsIn ks x = none ∨ flagsIn ks x = a'.flagsOf x)

end

namespace TwinWorld

variable {a a' : Memory} {assigned : String → Prop}

/-- The later memories have further values, and the same expressions are checked. -/
structure Later (w u : TwinWorld a a' assigned) : Prop where
  left : w.left.Grows u.left
  right : w.right.Grows u.right
  checked : u.left.checked = w.left.checked

/-- Two values with the same flags. -/
structure Same (w : TwinWorld a a' assigned) (v v' : ValueId) : Prop where
  left : v < w.left.store.size
  right : v' < w.right.store.size
  flags : (w.left.trace v).flags = (w.right.trace v').flags

end TwinWorld

/-- Two runs compared by the flags of their names. A `switch` joins what is known of every name. -/
abbrev upToFlags (a a' : Memory) (assigned : String → Prop) : Comparison where
  World := TwinWorld a a' assigned
  left := TwinWorld.left
  right := TwinWorld.right
  later := TwinWorld.Later
  same := TwinWorld.Same
  alike := fun t u => t.flags = u.flags
  joined := fun _ => JoinedTwins a a' assigned
  tooMuch := fun _ => False
  readable := fun x => a.flagsOf x = a'.flagsOf x
  writable := assigned
  switches := ∀ x, assigned x → a.flagsOf x = a'.flagsOf x

namespace TwinWorld

variable {a a' : Memory} {assigned : String → Prop} {w u : TwinWorld a a' assigned}

theorem Later.refl (w : TwinWorld a a' assigned) : Later w w := ⟨.refl _, .refl _, rfl⟩

theorem Later.trans {x : TwinWorld a a' assigned} (h : Later w u) (k : Later u x) : Later w x :=
  ⟨h.left.trans k.left, h.right.trans k.right, k.checked.trans h.checked⟩

theorem Same.later {v v' : ValueId} (hv : Same w v v') (h : Later w u) : Same u v v' where
  left := Nat.lt_of_lt_of_le hv.left h.left.size
  right := Nat.lt_of_lt_of_le hv.right h.right.size
  flags := by
    rw [(h.left.trace v hv.left).flags, (h.right.trace v' hv.right).flags]
    exact hv.flags

theorem flagsOf_eq (w : TwinWorld a a' assigned) {x : String} (hx : a.flagsOf x = a'.flagsOf x) :
    w.left.flagsOf x = w.right.flagsOf x := by
  rcases w.twins.names x with ⟨-, h⟩ | ⟨h, h'⟩
  · exact h
  · rw [h, h', hx]

def add (w : TwinWorld a a' assigned) {m m' : Memory} (hm : Adds w.left m) (hm' : Adds w.right m') :
    TwinWorld a a' assigned where
  left := m
  right := m'
  twins :=
    { left := w.twins.left.grows hm.grows hm.names
      right := w.twins.right.grows hm'.grows hm'.names
      checked := by rw [hm.checked, hm'.checked, w.twins.checked]
      names := fun x => by
        rw [w.twins.left.flagsOf_grows hm.grows hm.names, w.twins.right.flagsOf_grows hm'.grows hm'.names]
        exact w.twins.names x }

theorem later_add (w : TwinWorld a a' assigned) {m m' : Memory} (hm : Adds w.left m) (hm' : Adds w.right m') :
    Later w (w.add hm hm') :=
  ⟨hm.grows, hm'.grows, hm.checked⟩

theorem sim_quiet {α β : Type} {r : Run α} {s : Run β} (hr : Quiet r) (hs : Quiet s) :
    (upToFlags a a' assigned).Sim w (upToFlags a a' assigned).Free r s := by
  obtain ⟨x, m, hx, hm, -⟩ := hr w.left
  obtain ⟨y, m', hy, hm', -⟩ := hs w.right
  exact .ok (w.later_add hm hm') hx hy trivial

/-- Both runs bind a name that may be assigned. -/
def bindName (w : TwinWorld a a' assigned) {name : String} (hname : assigned name) {v v' : ValueId}
    (hv : Same w v v') : TwinWorld a a' assigned where
  left := { w.left with names := setName name v w.left.names }
  right := { w.right with names := setName name v' w.right.names }
  twins :=
    { left := w.twins.left.bindName name hv.left
      right := w.twins.right.bindName name hv.right
      checked := w.twins.checked
      names := fun x => by
        rw [flagsOf_bindName, flagsOf_bindName]
        by_cases hx : x = name
        · rw [if_pos hx, if_pos hx, hv.flags]
          exact Or.inl ⟨hx ▸ hname, rfl⟩
        · rw [if_neg hx, if_neg hx]
          exact w.twins.names x }

theorem later_bindName {name : String} (hname : assigned name) {v v' : ValueId} (hv : Same w v v') :
    Later w (w.bindName hname hv) :=
  ⟨.of_store rfl, .of_store rfl, rfl⟩

/-- The expressions checked are changed in the same way. -/
def check (w : TwinWorld a a' assigned) (f : List (List String) → List (List String)) :
    TwinWorld a a' assigned where
  left := { w.left with checked := f w.left.checked }
  right := { w.right with checked := f w.right.checked }
  twins :=
    { left := ⟨w.twins.left.bound, w.twins.left.nodup⟩
      right := ⟨w.twins.right.bound, w.twins.right.nodup⟩
      checked := congrArg f w.twins.checked
      names := w.twins.names }

/-- The names of an earlier world are set again. -/
def restore (h : Later w u) : TwinWorld a a' assigned :=
  have hl : w.left.Grows { u.left with names := w.left.names } := h.left.trans (.of_store rfl)
  have hr : w.right.Grows { u.right with names := w.right.names } := h.right.trans (.of_store rfl)
  { left := { u.left with names := w.left.names }
    right := { u.right with names := w.right.names }
    twins :=
      { left := w.twins.left.grows hl rfl
        right := w.twins.right.grows hr rfl
        checked := u.twins.checked
        names := fun x => by
          rw [w.twins.left.flagsOf_grows hl rfl, w.twins.right.flagsOf_grows hr rfl]
          exact w.twins.names x } }

theorem later_restore (h : Later w u) : Later u (restore h) := ⟨.of_store rfl, .of_store rfl, rfl⟩

/-! ### The branches of a switch -/

variable {js ks : List (String × Trace)}

theorem kept (w : TwinWorld a a' assigned) {x : String} (hx : ¬assigned x) :
    w.left.flagsOf x = a.flagsOf x ∧ w.right.flagsOf x = a'.flagsOf x :=
  (w.twins.names x).resolve_left fun h => hx h.1

theorem merge_eq_of_none_or {f g : Option (Bool × Bool)} (h : f = none ∨ f = g) :
    Option.merge orFlags f g = g ∧ Option.merge orFlags g f = g := by
  rcases h with rfl | rfl
  · simp
  · cases f with
    | none => exact ⟨rfl, rfl⟩
    | some f => simp [orFlags_self f]

theorem joined_join (hs : ∀ x, assigned x → a.flagsOf x = a'.flagsOf x) (h : JoinedTwins a a' assigned js ks) :
    JoinedTwins a a' assigned (joinNames w.left js) (joinNames w.right ks) where
  left := nodup_joinNames _ h.left
  right := nodup_joinNames _ h.right
  both := fun x hx => by
    rw [flagsIn_joinNames w.twins.left, flagsIn_joinNames w.twins.right, h.both x hx, w.flagsOf_eq (hs x hx)]
  others := fun x hx => by
    obtain ⟨hl, hr⟩ := h.others x hx
    rw [flagsIn_joinNames w.twins.left, flagsIn_joinNames w.twins.right, (w.kept hx).1, (w.kept hx).2]
    exact ⟨Or.inr (merge_eq_of_none_or hl).1, Or.inr (merge_eq_of_none_or hr).1⟩

theorem sim_settle (hs : ∀ x, assigned x → a.flagsOf x = a'.flagsOf x) (h : JoinedTwins a a' assigned js ks) :
    (upToFlags a a' assigned).Sim w (upToFlags a a' assigned).Free (bindJoined js) (bindJoined ks) := by
  obtain ⟨m, hrun, hg, hsound, hc, hflags⟩ := bindJoined_flags h.left w.twins.left
  obtain ⟨m', hrun', hg', hsound', hc', hflags'⟩ := bindJoined_flags h.right w.twins.right
  have hnames : ∀ x, assigned x ∧ m.flagsOf x = m'.flagsOf x ∨
      m.flagsOf x = a.flagsOf x ∧ m'.flagsOf x = a'.flagsOf x := by
    intro x
    rw [hflags, hflags']
    by_cases hx : assigned x
    · rw [h.both x hx, w.flagsOf_eq (hs x hx)]
      exact Or.inl ⟨hx, rfl⟩
    · obtain ⟨hl, hr⟩ := h.others x hx
      rw [(w.kept hx).1, (w.kept hx).2]
      exact Or.inr ⟨(merge_eq_of_none_or hl).2, (merge_eq_of_none_or hr).2⟩
  have hchecked : m.checked = m'.checked := by rw [hc, hc', w.twins.checked]
  let next : TwinWorld a a' assigned := ⟨m, m', ⟨hsound, hsound', hchecked, hnames⟩⟩
  have hnext : Later w next := ⟨hg, hg', hc⟩
  exact .ok hnext hrun hrun' trivial

end TwinWorld

open TwinWorld in
/-- Two runs keep memories together by the flags of their names. -/
theorem upToFlags_lockstep (a a' : Memory) (assigned : String → Prop) : Lockstep (upToFlags a a' assigned) where
  refl := Later.refl
  trans := Later.trans
  same_later := fun h hv => Same.later hv h
  over_extends := fun _ h => h
  over_note := fun _ h => h
  equal := fun _ => rfl
  tainted := fun h => congrArg Prod.fst h
  upload := fun h => congrArg Prod.snd h
  merge := fun h h' => congrArg₂ orFlags h h'
  concat := fun h h' => congrArg₂ orFlags h h'
  note := fun _ h => h
  decoded := fun _ _ _ h _ => congrArg (fun f => (f.1, false)) h
  clip := fun {t u} _ h => by
    have hempty : (t.merge {}).flags = t.flags := by
      show (t.tainted || false, t.upload || false) = _
      rw [Bool.or_false, Bool.or_false]
      rfl
    exact Or.inl (hempty.symm.trans h)
  known := fun h => h.flags
  lookup := fun {w name} hx => by
    have h := w.flagsOf_eq hx
    unfold Memory.flagsOf at h
    show Option.Rel (Same w) (w.left.lookup? name) (w.right.lookup? name)
    cases hv : w.left.lookup? name with
    | none =>
      rw [hv] at h
      rw [Option.map_eq_none_iff.mp h.symm]
      exact .none
    | some v =>
      rw [hv] at h
      obtain ⟨v', hv', hf⟩ := Option.map_eq_some_iff.mp h.symm
      rw [hv']
      exact .some ⟨w.twins.left.lt_of_lookup? hv, w.twins.right.lt_of_lookup? hv', hf.symm⟩
  checked := fun w => w.twins.checked
  count := fun w =>
    have hl : Adds w.left { w.left with visited := w.left.visited + 1 } := ⟨.of_store rfl, rfl, rfl⟩
    have hr : Adds w.right { w.right with visited := w.right.visited + 1 } := ⟨.of_store rfl, rfl, rfl⟩
    .tick rfl rfl (w.later_add hl hr) rfl rfl
  make := fun {t u} w h => by
    have hl := congrArg Trace.flags (trace_push_size w.left t)
    have hr := congrArg Trace.flags (trace_push_size w.right u)
    refine .ok (w.later_add (.push _ t) (.push _ u)) (fresh_apply t _) (fresh_apply u _) ⟨?_, ?_, ?_⟩
    · simp [TwinWorld.add]
    · simp [TwinWorld.add]
    · exact hl.trans (h.trans hr.symm)
  rename := fun {w v v' name} hname hv =>
    .ok (later_bindName hname hv) rfl rfl trivial
  check := fun w xs => by
    refine ⟨w.check (xs :: ·), rfl, rfl, fun x hx => ⟨x.check (List.drop 1), ?_, rfl, rfl⟩⟩
    have hl : w.left.Grows x.left := ⟨hx.left.size, hx.left.trace⟩
    have hr : w.right.Grows x.right := ⟨hx.right.size, hx.right.trace⟩
    refine ⟨hl.trans (.of_store rfl), hr.trans (.of_store rfl), ?_⟩
    show x.left.checked.drop 1 = _
    rw [hx.checked]
    rfl
  escape := fun name _ => sim_quiet (quiet_learn _ fun t => .append t [name]) (quiet_learn _ fun t => .append t [name])
  mark := fun _ => sim_quiet (quiet_markCallable _) (quiet_markCallable _)
  remark := fun _ _ _ _ _ => sim_quiet (quiet_noteStatement _ _ _) (quiet_noteStatement _ _ _)
  comment := fun _ w =>
    have hr : Adds w.right { w.right with visited := w.right.visited + 1, store := w.right.store.push {} } :=
      (Adds.push w.right {}).trans ⟨.of_store rfl, rfl, rfl⟩
    .comment rfl (w.later_add (.refl _) hr) rfl rfl
  checks := fun _ h => sim_quiet h.reports.1.quiet h.reports.2.quiet
  restore := fun h => ⟨restore h, later_restore h, rfl, rfl⟩
  joined_nil := fun _ => ⟨List.nodup_nil, List.nodup_nil, fun _ _ => rfl, fun _ _ => ⟨Or.inl rfl, Or.inl rfl⟩⟩
  joined_later := fun _ h => h
  join := joined_join
  settle := sim_settle

/-! ### What two runs, or one run twice, do to the flags of names -/

section

variable {α : Type} {a a' m m' : Memory} {assigned : String → Prop} {r : Run α} {x y : α}

theorem Twins.start (ha : a.Sound) (ha' : a'.Sound) (hc : a.checked = a'.checked) : Twins a a' assigned a a' :=
  ⟨ha, ha', hc, fun _ => Or.inr ⟨rfl, rfl⟩⟩

theorem not_over_upToFlags : ¬(upToFlags a a' assigned).Over m := by
  rintro (⟨_, _, h⟩ | ⟨_, _, h⟩) <;> exact h

theorem twins_of_sim {Q : TwinWorld a a' assigned → α → α → Prop} (ha : a.Sound) (ha' : a'.Sound)
    (hc : a.checked = a'.checked) (h : ∀ w, (upToFlags a a' assigned).Sim w Q r r) (hr : r a = (.ok x, m))
    (hr' : r a' = (.ok y, m')) : Twins a a' assigned m m' := by
  obtain ⟨u, -, rfl, rfl⟩ := (h ⟨a, a', .start ha ha' hc⟩).world not_over_upToFlags hr hr'
  exact u.twins

/-- A run leaves names that it does not assign with the flags that they had. -/
theorem frame_of_sim {Q : TwinWorld a a assigned → α → α → Prop} (ha : a.Sound)
    (h : ∀ w, (upToFlags a a assigned).Sim w Q r r) (hr : r a = (.ok x, m)) :
    m.Sound ∧ m.checked = a.checked ∧ ∀ name, ¬assigned name → m.flagsOf name = a.flagsOf name := by
  obtain ⟨u, hu, hl, -⟩ := (h ⟨a, a, .start ha ha rfl⟩).world not_over_upToFlags hr hr
  obtain rfl : u.left = m := hl
  exact ⟨u.twins.left, hu.checked, fun name hname => (u.kept hname).1⟩

end

end SourceAudit.Taint
