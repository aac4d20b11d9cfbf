/-
# The cases of a `switch`

Each case of a `switch` starts from the names after the condition, but what is known
about their values is shared: an earlier case may have noted or marked a value, or made
values and findings of its own. Whether a value comes from a request and whether it
describes an uploaded file is settled when it is made, so a case in its turn leaves each
name with the flags that it leaves alone (`case_alone`).

Two runs that are compared visit nodes together, so the one that started with fewer
visited nodes stays behind in the count (`Comparison.paced`). A case starts alone with
fewer, so it is complete alone if it is complete in its turn (`Sim.complete`).

What is known after the cases is joined, so a name has a flag after a `switch` if it has
it after the condition or after one of the cases alone (`switch_flags`).
-/
import SourceAudit.Proofs.Taint.Branches

namespace SourceAudit.Taint

variable {v : ValueId} {js : List (String × Trace)} {t : Tree Part} {m' m₀ : Memory} {known : Trace}

variable {α β : Type}

/-! ### Runs that visit no node -/

def Steady (r : Run α) : Prop := ∀ m, ∃ a m', r m = (.ok a, m') ∧ m'.visited = m.visited

theorem Quiet.steady {r : Run α} (h : Quiet r) : Steady r := fun m =>
  have ⟨a, m', hr, _, hv⟩ := h m
  ⟨a, m', hr, hv⟩

theorem steady_bindName (name : String) (v : ValueId) : Steady (bindName name v) := fun m =>
  ⟨(), _, bindName_apply name v m, rfl⟩

theorem steady_bindJoined : ∀ js : List (String × Trace), Steady (bindJoined js)
  | [], m => ⟨(), m, rfl, rfl⟩
  | (name, t) :: js, m => by
    obtain ⟨a, m', hr, hv⟩ := steady_bindJoined js
      { m with store := m.store.push ((m.traceOf name).merge t), names := setName name m.store.size m.names }
    exact ⟨a, m', (bindJoined_cons_apply name t js m).trans hr, hv⟩

/-! ### The paced comparison -/

/-- The comparison where the first run has visited no more nodes than the second one. Its budget is not
forgiven. -/
def Comparison.paced (F : Comparison) : Comparison where
  World := { w : F.World // (F.left w).visited ≤ (F.right w).visited }
  left := fun w => F.left w
  right := fun w => F.right w
  later := fun w u => F.later w u
  same := fun w => F.same w
  alike := F.alike
  joined := fun w => F.joined w
  tooMuch := F.tooMuch
  readable := F.readable
  writable := F.writable
  sought := F.sought
  switches := F.switches
  forgives := fun _ => False
  comments := F.comments

variable {F : Comparison} {w : F.paced.World}

/-- Where the first run gives a result, its end is not forgiven. -/
theorem Comparison.Ends.paced {o : Except Stop α × Memory} {o' : Except Stop β × Memory} (h : F.Ends o o')
    (ho : ∀ e, o.1 ≠ .error e) : F.paced.Ends o o' :=
  h.imp_left (And.imp_right fun h => Or.inr (h.resolve_left fun ⟨e, _, he⟩ => ho e he))

theorem Comparison.Sim.paced {Q : F.World → α → β → Prop} {r : Run α} {s : Run β} (h : F.Sim w.1 Q r s)
    (hr : Steady r) (hs : Steady s) : F.paced.Sim w (fun u => Q u.1) r s := by
  obtain ⟨a, m, hra, hm⟩ := hr (F.left w.1)
  obtain ⟨b, n, hsb, hn⟩ := hs (F.right w.1)
  rcases h with h | ⟨u, hu, hl, hr, h⟩
  · refine Or.inl (h.paced fun e => ?_)
    rw [hra]
    simp
  · have hpace : (F.left u).visited ≤ (F.right u).visited := by
      rw [hl, hr, hra, hsb, hm, hn]
      exact w.2
    exact Or.inr ⟨⟨u, hpace⟩, hu, hl, hr, h⟩

/-- Both runs visit a node: if the first one may not, the second one may not either. -/
theorem Comparison.Sim.paced_tick (hc : F.comments = true) (h : F.Sim w.1 F.Free Taint.tick Taint.tick) :
    F.paced.Sim w F.paced.Free Taint.tick Taint.tick := by
  have hpace := w.2
  by_cases hb : budget < (F.left w.1).visited + 1
  · have hb' : budget < (F.right w.1).visited + 1 := by omega
    refine Or.inl (Comparison.Ends.of_budget (F := F.paced) hc ?_)
    show (Taint.tick (F.right w.1)).1 = _
    rw [tick_apply, if_pos hb']
  · rcases h with h | ⟨u, hu, hl, hr, h⟩
    · refine Or.inl (h.paced fun e => ?_)
      rw [tick_apply, if_neg hb]
      simp
    · have hpace : (F.left u).visited ≤ (F.right u).visited := by
        rw [hl, hr, tick_apply, tick_apply]
        exact Nat.succ_le_succ hpace
      exact Or.inr ⟨⟨u, hpace⟩, hu, hl, hr, h⟩

theorem Comparison.Sim.paced_comment {Q : F.World → Unit → ValueId → Prop}
    (h : F.Sim w.1 Q (pure ()) (do Taint.tick; fresh {})) :
    F.paced.Sim w (fun u => Q u.1) (pure ()) (do Taint.tick; fresh {}) := by
  rcases h with h | ⟨u, hu, hl, hr, h⟩
  · exact Or.inl (h.paced fun e (he : (Except.ok () : Except Stop Unit) = .error e) => nomatch he)
  · have hvisited : (F.right w.1).visited ≤ (F.right u).visited := by
      rw [hr, bind_apply, tick_apply]
      by_cases hb : budget < (F.right w.1).visited + 1
      · rw [if_pos hb]
        exact Nat.le_succ _
      · rw [if_neg hb]
        exact Nat.le_succ _
    have hpace : (F.left u).visited ≤ (F.right u).visited := by
      rw [hl]
      exact Nat.le_trans w.2 hvisited
    exact Or.inr ⟨⟨u, hpace⟩, hu, hl, hr, h⟩

theorem Lockstep.paced (L : Lockstep F) (hc : F.comments = true) : Lockstep F.paced where
  refl := fun w => L.refl w.1
  trans := L.trans
  same_later := L.same_later
  over_extends := L.over_extends
  over_note := L.over_note
  equal := L.equal
  tainted := L.tainted
  upload := L.upload
  merge := L.merge
  concat := L.concat
  note := L.note
  decoded := L.decoded
  clip := L.clip
  known := L.known
  lookup := L.lookup
  checked := fun w => L.checked w.1
  count := fun w => (L.count w.1).paced_tick hc
  make := fun w h => (L.make w.1 h).paced (quiet_fresh _).steady (quiet_fresh _).steady
  rename := fun hname hv => (L.rename hname hv).paced (steady_bindName _ _) (steady_bindName _ _)
  check := fun w xs => by
    obtain ⟨u, hl, hr, hback⟩ := L.check w.1 xs
    have hpace : (F.left u).visited ≤ (F.right u).visited := by
      rw [hl, hr]
      exact w.2
    refine ⟨⟨u, hpace⟩, hl, hr, fun x hx => ?_⟩
    obtain ⟨y, hy, hyl, hyr⟩ := hback x.1 hx
    have hpace : (F.left y).visited ≤ (F.right y).visited := by
      rw [hyl, hyr]
      exact x.2
    exact ⟨⟨y, hpace⟩, hy, hyl, hyr⟩
  escape := fun name hv =>
    have hquiet := fun v => (quiet_learn v fun t => .append t [name]).steady
    (L.escape name hv).paced (hquiet _) (hquiet _)
  mark := fun hv => (L.mark hv).paced (quiet_markCallable _).steady (quiet_markCallable _).steady
  remark := fun name _ _ hcd hv =>
    (L.remark name hcd hv).paced (quiet_noteStatement _ _ _).steady (quiet_noteStatement _ _ _).steady
  comment := fun hc w => (L.comment hc w.1).paced_comment
  checks := fun hp h => (L.checks hp h).paced h.reports.1.quiet.steady h.reports.2.quiet.steady
  restore := fun {w u} h => by
    obtain ⟨x, hx, hl, hr⟩ := L.restore h
    have hpace : (F.left x).visited ≤ (F.right x).visited := by
      rw [hl, hr]
      exact u.2
    exact ⟨⟨x, hpace⟩, hx, hl, hr⟩
  joined_nil := fun w => L.joined_nil w.1
  joined_later := L.joined_later
  join := L.join
  settle := fun hs h => (L.settle hs h).paced (steady_bindJoined _) (steady_bindJoined _)

/-- If the second run is complete, so is the first, unless it knows too much of a value. -/
theorem Comparison.Sim.complete {Q : F.paced.World → α → β → Prop} {r : Run α} {s : Run β} {b : β} {n : Memory}
    (h : F.paced.Sim w Q r s) (ho : ∀ m, ¬F.Over m) (hs : s (F.right w.1) = (.ok b, n)) :
    ∃ a u, r (F.left w.1) = (.ok a, F.left u) ∧ F.right u = n ∧ F.later w.1 u := by
  rcases h with (⟨-, ⟨e, h, -⟩ | h⟩ | ⟨-, h⟩) | ⟨u, hu, hl, hr, h⟩
  · exact h.elim
  · exact absurd h (ho _)
  · rw [show s (F.paced.right w) = _ from hs] at h
    cases h
  · rw [show s (F.paced.right w) = _ from hs] at h hr
    rcases hrun : r (F.left w.1) with ⟨_ | a, m⟩
    · rw [show r (F.paced.left w) = _ from hrun] at h
      cases h
    · rw [show r (F.paced.left w) = _ from hrun] at hl
      exact ⟨a, u.1, by rw [show F.left u.1 = m from hl], hr, hu⟩

open Tree

/-! ### Memories that are ahead -/

/-- The second memory has further values and has visited further nodes. -/
structure Ahead (m n : Memory) : Prop where
  grows : m.Grows n
  visited : m.visited ≤ n.visited
  checked : n.checked = m.checked

section

variable {m n o : Memory}

theorem Ahead.refl (m : Memory) : Ahead m m := ⟨.refl m, Nat.le_refl _, rfl⟩

theorem Ahead.trans (h : Ahead m n) (k : Ahead n o) : Ahead m o :=
  ⟨h.grows.trans k.grows, Nat.le_trans h.visited k.visited, k.checked.trans h.checked⟩

theorem Ahead.names (h : Ahead m n) (ns : List (String × ValueId)) : Ahead m { n with names := ns } :=
  ⟨h.grows.trans (.of_store rfl), h.visited, h.checked⟩

/-- The store grows, and nodes that are visited count. -/
theorem onward_invariant (m : Memory) :
    Invariant (fun _ => True) (fun _ => True) fun n => m.Grows n ∧ m.visited ≤ n.visited where
  good := fun _ _ => trivial
  count := fun h => ⟨h.1.trans (.of_store rfl), Nat.le_succ_of_le h.2⟩
  make := fun {n t} h _ => ⟨h.1.trans (.push n t), h.2⟩
  extend := fun {n _} v h hf => ⟨h.1.trans (.modify n v hf), h.2⟩
  rename := fun _ h => ⟨h.1.trans (.of_store rfl), h.2⟩
  find := fun h _ => ⟨h.1.trans (.of_store rfl), h.2⟩
  check := fun _ h => ⟨h.1.trans (.of_store rfl), h.2⟩

theorem process_ahead {c : Tree Part} (hm : m.Sound) (h : (meaningOf c).process m = (.ok v, n)) :
    n.Sound ∧ Ahead m n := by
  have hsuited : Suited (upToFlags m m (· ∈ assignedNames c)) (meaningOf c).bare := by
    rw [bare_meaningOf]
    exact suited_frame m c
  obtain ⟨hsound, hchecked, -⟩ :=
    frame_of_sim hm (((upToFlags_lockstep m m _).paired_self c).related.process hsuited) h
  have hkeeps := meaningOf_keeps vouched_anything (onward_invariant m) c (fun _ _ => trivial) _ (mem_preorder_self _)
  have honward := (hkeeps.process m ⟨.refl m, Nat.le_refl _⟩).1
  rw [h] at honward
  exact ⟨hsound, honward.1, honward.2, hchecked⟩

/-- A case in its turn leaves the names with the flags that it leaves alone, where it is complete too. -/
theorem case_alone {c : Tree Part} (hm : m.Sound) (hn : Ahead m n) (hnames : n.names = m.names)
    (h : (meaningOf c).process n = (.ok v, o)) :
    ∃ w m', (meaningOf c).process m = (.ok w, m') ∧ ∀ x, m'.flagsOf x = o.flagsOf x := by
  have hflags : ∀ x, m.flagsOf x = n.flagsOf x := fun x => (hm.flagsOf_grows hn.grows hnames x).symm
  -- all names start with the same flags, so both runs may read and join any of them
  let F := upToFlags m n (· ∈ assignedNames c)
  have hsuited : Suited F.paced (meaningOf c).bare := by
    rw [bare_meaningOf]
    exact ⟨fun x _ => hflags x, fun _ hx => hx, fun _ _ _ x _ => hflags x⟩
  let w : F.paced.World := ⟨⟨m, n, .start hm (hm.grows hn.grows hnames) hn.checked.symm⟩, hn.visited⟩
  have hsim := (((upToFlags_lockstep m n (· ∈ assignedNames c)).paced rfl).paired_self c).related.process hsuited w
  obtain ⟨a, u, hrun, hright, -⟩ := hsim.complete (fun _ => not_over_upToFlags) h
  obtain rfl : u.right = o := hright
  refine ⟨a, u.left, hrun, fun x => ?_⟩
  rcases u.twins.names x with ⟨-, hx⟩ | ⟨hl, hr⟩
  · exact hx
  · rw [hl, hr, hflags]

end

/-! ### What the cases join -/

def alone (m : Memory) (c : Tree Part) : Memory := ((meaningOf c).process m).2

/-- The cases among the parts of a `switch`: the named children of its blocks. -/
def casesIn (ps : List (Tree Part)) : List (Tree Part) :=
  ps.flatMap fun p => if p.kind = "switch_block" then p.namedChildren else []

def casesOf (t : Tree Part) : List (Tree Part) := casesIn (branches t)

def joinFlags (x : String) (f : Option (Bool × Bool)) (es : List Memory) : Option (Bool × Bool) :=
  es.foldl (fun f e => Option.merge orFlags f (e.flagsOf x)) f

theorem namedChildren_meaningOf (t : Tree Part) : (meaningOf t).namedChildren = t.namedChildren.map meaningOf := by
  simp [namedChildren, isNamed, List.filter_map, Function.comp_def]

section

variable {m : Memory}

/-- The cases are complete alone, and the names have the flags that these leave. -/
structure Joins (m n : Memory) (cs : List (Tree Part)) (js ks : List (String × Trace)) : Prop where
  sound : n.Sound
  ahead : Ahead m n
  nodup : (ks.map (·.1)).Nodup
  complete : ∀ c ∈ cs, ∃ w, (meaningOf c).process m = (.ok w, alone m c)
  flags : ∀ x, flagsIn ks x = joinFlags x (flagsIn js x) (cs.map (alone m))

theorem Joins.append {n o : Memory} {cs ds : List (Tree Part)} {ks ls : List (String × Trace)}
    (h : Joins m n cs js ks) (k : Joins m o ds ks ls) : Joins m o (cs ++ ds) js ls where
  sound := k.sound
  ahead := k.ahead
  nodup := k.nodup
  complete := fun c hc => (List.mem_append.mp hc).elim (h.complete c) (k.complete c)
  flags := fun x => by
    rw [k.flags, h.flags, List.map_append, joinFlags, joinFlags, joinFlags, List.foldl_append]

theorem Joins.nil {n : Memory} (hn : n.Sound) (ha : Ahead m n) (hj : (js.map (·.1)).Nodup) : Joins m n [] js js :=
  ⟨hn, ha, hj, fun _ h => absurd h List.not_mem_nil, fun _ => rfl⟩

theorem switchCases_joins (hm : m.Sound) : ∀ {cs : List (Tree Part)} {known : Trace} {js : List (String × Trace)}
    {n n' : Memory} {r : Trace × List (String × Trace)}, n.Sound → Ahead m n → (js.map (·.1)).Nodup →
    switchCases m.names known js (cs.map meaningOf) n = (.ok r, n') → Joins m n' cs js r.2
  | [], known, js, n, n', r, hn, ha, hj, h => by
    obtain ⟨hr, rfl⟩ := Prod.mk.inj (h : (Except.ok (known, js), n) = _)
    obtain rfl := Except.ok.inj hr
    exact .nil hn ha hj
  | c :: cs, known, js, n, n', r, hn, ha, hj, h => by
    have hstart : Ahead m { n with names := m.names } := ha.names m.names
    have hsound : ({ n with names := m.names } : Memory).Sound := hm.grows hstart.grows rfl
    rw [List.map_cons, switchCases] at h
    obtain ⟨_, n₁, hmodify, h⟩ := bind_eq_ok h
    obtain rfl : { n with names := m.names } = n₁ := congrArg Prod.snd hmodify
    obtain ⟨v, o, hcase, h⟩ := bind_eq_ok h
    obtain ⟨ho, hahead⟩ := process_ahead hsound hcase
    obtain ⟨w, e, halone, hflags⟩ := case_alone hm hstart rfl hcase
    obtain rfl : alone m c = e := congrArg Prod.snd halone
    have hone : Joins m o [c] js (joinNames o js) :=
      { sound := ho
        ahead := hstart.trans hahead
        nodup := nodup_joinNames o hj
        complete := fun d hd => List.mem_singleton.mp hd ▸ ⟨w, halone⟩
        flags := fun x => by
          rw [flagsIn_joinNames ho, ← hflags]
          rfl }
    exact hone.append (switchCases_joins hm ho hone.ahead hone.nodup h)

theorem switchParts_joins (hm : m.Sound) : ∀ {ps : List (Tree Part)} {known : Trace} {js : List (String × Trace)}
    {n n' : Memory} {r : Trace × List (String × Trace)}, n.Sound → Ahead m n → (js.map (·.1)).Nodup →
    switchParts m.names known js (ps.map meaningOf) n = (.ok r, n') → Joins m n' (casesIn ps) js r.2
  | [], known, js, n, n', r, hn, ha, hj, h => by
    obtain ⟨hr, rfl⟩ := Prod.mk.inj (h : (Except.ok (known, js), n) = _)
    obtain rfl := Except.ok.inj hr
    exact .nil hn ha hj
  | p :: ps, known, js, n, n', r, hn, ha, hj, h => by
    rw [List.map_cons, switchParts, kind_meaningOf] at h
    by_cases hk : p.kind = "switch_block"
    · rw [if_pos (beq_iff_eq.mpr hk), namedChildren_meaningOf] at h
      obtain ⟨r₁, o, hcases, h⟩ := bind_eq_ok h
      have hblock := switchCases_joins hm hn ha hj hcases
      have hrest := switchParts_joins hm hblock.sound hblock.ahead hblock.nodup h
      have hsplit : casesIn (p :: ps) = p.namedChildren ++ casesIn ps := by simp [casesIn, hk]
      rw [hsplit]
      exact hblock.append hrest
    · rw [if_neg fun hb => hk (beq_iff_eq.mp hb)] at h
      -- what another part does to the names is lost: the next case and the end set them again
      obtain ⟨v, o, hpart, h⟩ := bind_eq_ok h
      obtain ⟨ho, hahead⟩ := process_ahead hn hpart
      have hsplit : casesIn (p :: ps) = casesIn ps := by simp [casesIn, hk]
      rw [hsplit]
      exact switchParts_joins hm ho (ha.trans hahead) hj h

end

/-! ### What a `switch` does to the flags of names -/

theorem process_switch (hk : t.kind = "switch_statement") {m : Memory} (h : (meaningOf t).process m = (.ok v, m')) :
    ∃ known m₀ r n, (do tick; conditionOf t) m = (.ok known, m₀) ∧
      switchParts m₀.names (({} : Trace).merge known) [] ((branches t).map meaningOf) m₀ = (.ok r, n) ∧
      leaveSwitch m₀.names r.1 r.2 n = (.ok v, m') := by
  have hrule : statementRule (surface t) = switchRule (surface t) := by
    unfold statementRule
    rw [kind_surface, hk]
    rfl
  rw [process_meaningOf, processRule, hrule] at h
  obtain ⟨_, m₁, htick, h⟩ := bind_eq_ok h
  unfold switchRule at h
  rw [condition_surface] at h
  obtain ⟨known, m₀, hcond, h⟩ := bind_eq_ok h
  change switchBody (surface t) known m₀.names m₀ = _ at h
  unfold switchBody at h
  rw [branches_surface] at h
  obtain ⟨r, n, hparts, h⟩ := bind_eq_ok h
  exact ⟨known, m₀, r, n, (bind_ok htick).trans hcond, hparts, h⟩

/-- The end of a `switch`: each name has the flags that it had before the cases and those that are joined. -/
theorem leaveSwitch_flags {m n : Memory} (hm : m.Sound) (hn : m.Grows n) (hj : (js.map (·.1)).Nodup)
    (h : leaveSwitch m.names known js n = (.ok v, m')) (x : String) :
    m'.flagsOf x = Option.merge orFlags (m.flagsOf x) (flagsIn js x) := by
  have hstart : m.Grows { n with names := m.names } := hn.trans (.of_store rfl)
  obtain ⟨o, hbind, -, hsound, -, hflags⟩ := bindJoined_flags hj (hm.grows hstart rfl)
  unfold leaveSwitch at h
  obtain ⟨_, _, hmodify, h⟩ := bind_eq_ok h
  obtain rfl := congrArg Prod.snd hmodify
  obtain ⟨_, o', hbind', h⟩ := bind_eq_ok h
  obtain rfl : o = o' := congrArg Prod.snd (hbind.symm.trans hbind')
  obtain rfl : { o with store := o.store.push known } = m' := congrArg Prod.snd h
  rw [hsound.flagsOf_grows (.push o known) rfl, hflags, hm.flagsOf_grows hstart rfl]

/-- After a `switch` each name has the flags that it has after the condition and after each case alone. -/
theorem switch_flags (hk : t.kind = "switch_statement") {m : Memory} (hm : m.Sound)
    (hcond : (do tick; conditionOf t) m = (.ok known, m₀))
    (h : (meaningOf t).process m = (.ok v, m')) :
    (∀ c ∈ casesOf t, ∃ w, (meaningOf c).process m₀ = (.ok w, alone m₀ c)) ∧
      ∀ x, m'.flagsOf x = Option.merge orFlags (m₀.flagsOf x) (joinFlags x none ((casesOf t).map (alone m₀))) := by
  obtain ⟨known', m₁, r, n, hcond', hparts, hleave⟩ := process_switch hk h
  obtain rfl : m₀ = m₁ := congrArg Prod.snd (hcond.symm.trans hcond')
  have hm₀ : m₀.Sound := condition_sound hm hcond
  have hjoins := switchParts_joins hm₀ hm₀ (.refl m₀) (by simp) hparts
  refine ⟨hjoins.complete, fun x => ?_⟩
  rw [leaveSwitch_flags hm₀ hjoins.ahead.grows hjoins.nodup hleave, hjoins.flags]
  rfl

/-! ### Names that stay -/

/-- The names of the first memory are names of the second. -/
def KeepsNames (m n : Memory) : Prop := ∀ x, (m.lookup? x).isSome → (n.lookup? x).isSome

theorem KeepsNames.adds {m n n' : Memory} (h : KeepsNames m n) (ha : Adds n n') : KeepsNames m n' := fun x hx => by
  rw [Memory.lookup?, ha.names]
  exact h x hx

theorem KeepsNames.bindName {m n : Memory} (h : KeepsNames m n) (name : String) (v : ValueId) :
    KeepsNames m { n with names := setName name v n.names } := fun x hx => by
  rw [lookup?_setName]
  split
  · rfl
  · exact h x hx

theorem quiet_keepsNames {α : Type} {m : Memory} {r : Run α} (h : Quiet r) : Holds (KeepsNames m) Anything r := by
  intro n hn
  obtain ⟨a, n', hr, ha, -⟩ := h n
  rw [hr]
  exact ⟨hn.adds ha, fun _ _ => trivial⟩

theorem tick_keepsNames (m : Memory) : Holds (KeepsNames m) Anything tick := by
  intro n hn
  rw [tick_apply]
  exact ⟨hn, fun _ _ => trivial⟩

def keepingNames (m : Memory) : Discipline where
  Obeys := fun _ => Holds (KeepsNames m)
  mayBranch := False
  pure := Holds.pure
  bind := Holds.bind
  weaken := Holds.weaken
  mono := id
  tick := fun h => (tick_keepsNames m).bind fun a _ => h a
  stop := fun _ => Holds.throw _
  look := fun h => Holds.get fun n _ => h n fun _ => trivial
  reports := fun h _ => quiet_keepsNames h.quiet
  make := fun _ => quiet_keepsNames (quiet_fresh _)
  find := fun _ => Holds.get fun _ _ _ _ => trivial
  append := fun _ name => quiet_keepsNames (quiet_learn _ fun t => .append t [name])
  mark := fun _ => quiet_keepsNames (quiet_markCallable _)
  note := fun _ name right => quiet_keepsNames (quiet_noteStatement name right _)
  store := fun _ _ _ _ hn => ⟨hn.bindName _ _, fun _ _ => trivial⟩
  check := fun h expressions n hn => h { n with checked := expressions :: n.checked } hn
  rename := False.elim

theorem condition_names {m : Memory} (h : (do tick; conditionOf t) m = (.ok known, m₀)) : KeepsNames m m₀ := by
  have hcond : Holds (KeepsNames m) Anything (do tick; conditionOf t) := by
    refine (tick_keepsNames m).bind fun _ _ => ?_
    unfold conditionOf
    cases t.children.find? isCondition with
    | none => exact Holds.pure trivial
    | some d =>
      have hobeys : ActsObey (keepingNames m) (meaningOf d) :=
        meaningOf_obeys d (fun _ _ => { node := trivial }) _ (mem_preorder_self _)
      exact Holds.bind hobeys.eval fun v _ => ((keepingNames m).read (g := 0) v).any
  have hkept := (hcond m fun _ hx => hx).1
  rw [h] at hkept
  exact hkept

/-! ### The join -/

def Memory.Uploads (m : Memory) (x : String) : Prop := (m.traceOf x).upload = true

instance (m : Memory) (x : String) : Decidable (m.Uploads x) := inferInstanceAs (Decidable (_ = true))

section

variable (flag : Bool × Bool → Bool) (hflag : ∀ f g, flag (orFlags f g) = (flag f || flag g))
  (hnone : flag (false, false) = false)

include hflag hnone

theorem flag_merge (f g : Option (Bool × Bool)) :
    flag ((Option.merge orFlags f g).getD (false, false)) =
      (flag (f.getD (false, false)) || flag (g.getD (false, false))) := by
  cases f <;> cases g <;> simp [hflag, hnone]

theorem flag_joinFlags (x : String) : ∀ (es : List Memory) (f : Option (Bool × Bool)),
    flag ((joinFlags x f es).getD (false, false)) = true ↔
      flag (f.getD (false, false)) = true ∨ ∃ e ∈ es, flag (e.traceOf x).flags = true
  | [], f => by simp [joinFlags]
  | e :: es, f => by
    have hstep : joinFlags x f (e :: es) = joinFlags x (Option.merge orFlags f (e.flagsOf x)) es := rfl
    rw [hstep, flag_joinFlags x es, flag_merge flag hflag hnone, ← flags_traceOf, Bool.or_eq_true, or_assoc,
      List.exists_mem_cons_iff]

/-- A name has the flag after a `switch` if it has it after the condition or after one of the cases alone. -/
theorem flag_switch_iff {m : Memory} {x : String} {cs : List (Tree Part)}
    (h : m.flagsOf x = Option.merge orFlags (m₀.flagsOf x) (joinFlags x none (cs.map (alone m₀)))) :
    flag (m.traceOf x).flags = true ↔
      flag (m₀.traceOf x).flags = true ∨ ∃ c ∈ cs, flag ((alone m₀ c).traceOf x).flags = true := by
  rw [flags_traceOf, h, flag_merge flag hflag hnone, Bool.or_eq_true, flag_joinFlags flag hflag hnone, ← flags_traceOf]
  simp [hnone]

end

/-- **The cases of a `switch` are joined.** After the `switch` a name has a flag if it has it after
the condition or after one of the cases alone, whatever the order of the cases, and every name from
before the `switch` stays. -/
theorem tainted_switch_iff {t : Tree Part} (hk : t.kind = "switch_statement") {m m' : Memory} (hm : m.Sound)
    {v : ValueId} (h : (meaningOf t).process m = (.ok v, m')) :
    ∃ known m₀, (do tick; conditionOf t) m = (.ok known, m₀) ∧
      (∀ c ∈ casesOf t, ∃ w, (meaningOf c).process m₀ = (.ok w, alone m₀ c)) ∧
      (∀ x, (m'.Taints x ↔ m₀.Taints x ∨ ∃ c ∈ casesOf t, (alone m₀ c).Taints x) ∧
        (m'.Uploads x ↔ m₀.Uploads x ∨ ∃ c ∈ casesOf t, (alone m₀ c).Uploads x)) ∧
      (∀ u w n, u.kind = "switch_statement" → u.children.find? isCondition = t.children.find? isCondition →
        (casesOf u).Perm (casesOf t) → (meaningOf u).process m = (.ok w, n) →
          ∀ x, (n.Taints x ↔ m'.Taints x) ∧ (n.Uploads x ↔ m'.Uploads x)) ∧
      ∀ x, (m.lookup? x).isSome → (m'.lookup? x).isSome := by
  obtain ⟨known, m₀, _, _, hcond, -, -⟩ := process_switch hk h
  obtain ⟨hcomplete, hflags⟩ := switch_flags hk hm hcond h
  have htaints : ∀ {u n w}, u.kind = "switch_statement" → (do tick; conditionOf u) m = (.ok known, m₀) →
      (meaningOf u).process m = (.ok w, n) →
      ∀ x, (n.Taints x ↔ m₀.Taints x ∨ ∃ c ∈ casesOf u, (alone m₀ c).Taints x) ∧
        (n.Uploads x ↔ m₀.Uploads x ∨ ∃ c ∈ casesOf u, (alone m₀ c).Uploads x) := by
    intro u n w hu hcondu hrun x
    have hx := (switch_flags hu hm hcondu hrun).2 x
    exact ⟨flag_switch_iff Prod.fst (fun _ _ => rfl) rfl hx,
      flag_switch_iff Prod.snd (fun _ _ => rfl) rfl hx⟩
  refine ⟨known, m₀, hcond, hcomplete, htaints hk hcond h, fun u w n hu hsame hperm hrun x => ?_, fun x hx => ?_⟩
  · have hcondu : (do tick; conditionOf u) m = (.ok known, m₀) := by
      rw [conditionOf, hsame]
      exact hcond
    have hany : ∀ p : Memory → Prop, (∃ c ∈ casesOf u, p (alone m₀ c)) ↔ ∃ c ∈ casesOf t, p (alone m₀ c) :=
      fun p => exists_congr fun c => and_congr_left fun _ => hperm.mem_iff
    obtain ⟨htu, huu⟩ := htaints hu hcondu hrun x
    obtain ⟨htt, hut⟩ := htaints hk hcond h x
    rw [htu, htt, huu, hut, hany (·.Taints x), hany (·.Uploads x)]
    exact ⟨.rfl, .rfl⟩
  · have hbefore := condition_names hcond x hx
    have hsome : (m'.flagsOf x).isSome := by
      rw [hflags x]
      obtain ⟨w, hw⟩ := Option.isSome_iff_exists.mp hbefore
      rw [Memory.flagsOf, hw]
      cases joinFlags x none ((casesOf t).map (alone m₀)) <;> rfl
    simpa [Memory.flagsOf] using hsome

/-- `case 1: $x = $_GET;` -/
def requestCase : Tree Part :=
  .plain "case_statement" "" [.filling "value" "integer" "1" [], copyInto "$x" "$_GET"]

/-- `default: $x = $y;` -/
def localCase : Tree Part :=
  .plain "default_statement" "" [copyInto "$x" "$y"]

/-- `switch ($a) { … }` -/
def switchOn (cs : List (Tree Part)) : Tree Part :=
  .plain "switch_statement" "" [
    .filling "condition" "parenthesized_expression" "($a)" [.plain "variable_name" "$a" []],
    .filling "body" "switch_block" "" cs]

def switched (cs : List (Tree Part)) : Memory := ((do tick; conditionOf (switchOn cs)) Memory.empty).2

/-- The case that assigns a value from the request counts in either order. -/
theorem tainted_switch_iff_twoCases :
    ((meaningOf (switchOn [requestCase, localCase])).process Memory.empty).2.Taints "$x" ∧
      ((meaningOf (switchOn [localCase, requestCase])).process Memory.empty).2.Taints "$x" ∧
      ¬((meaningOf (switchOn [requestCase, localCase])).process Memory.empty).2.Taints "$y" := by
  have hcases : casesOf (switchOn [requestCase, localCase]) = [requestCase, localCase] := rfl
  have hcases' : casesOf (switchOn [localCase, requestCase]) = [localCase, requestCase] := rfl
  obtain ⟨_, h⟩ := exists_ok (r := (meaningOf (switchOn [requestCase, localCase])).process) (m := Memory.empty)
    (by decide +kernel)
  obtain ⟨_, h'⟩ := exists_ok (r := (meaningOf (switchOn [localCase, requestCase])).process) (m := Memory.empty)
    (by decide +kernel)
  obtain ⟨known, m₀, hcond, -, hflags, horder, -⟩ :=
    tainted_switch_iff (t := switchOn [requestCase, localCase]) rfl sound_empty h
  obtain rfl : switched [requestCase, localCase] = m₀ := congrArg Prod.snd hcond
  rw [hcases] at hflags horder
  have hx := (hflags "$x").1.mpr (Or.inr ⟨requestCase, List.mem_cons_self, by decide +kernel⟩)
  have hperm : (casesOf (switchOn [localCase, requestCase])).Perm [requestCase, localCase] := by
    rw [hcases']
    exact .swap requestCase localCase []
  have hswapped := horder (switchOn [localCase, requestCase]) _ _ rfl rfl hperm h' "$x"
  exact ⟨hx, hswapped.1.mpr hx, fun hy => absurd ((hflags "$y").1.mp hy) (by decide +kernel)⟩

end SourceAudit.Taint
