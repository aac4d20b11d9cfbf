/-
# The branches of an `if`

The branches of an `if` are run one after the other, each from the memory that the one
before has left (`process_if`). If the earlier branches assign nothing that a branch
reads (`Spares`), it does in its turn what it does alone; so the last branch that
assigns a name decides whether the name has a value from a request.

A condition that is made of validator calls by parentheses, `!`, `&&` and `||` is a
propositional formula. Its truth tells that an expression has been checked if one of the
calls that it is an argument of must have said yes (`Formula.needs`, `entails_iff`). The
analysis takes every argument of every call for checked (`mem_validatedInputs`). That is
right for conditions made with `&&` alone, and wrong under a negation or in one of two
alternatives.
-/
import SourceAudit.Proofs.Taint.Flags
import SourceAudit.Proofs.Taint.Lockstep

namespace SourceAudit.Taint

open Tree

variable {m n : Memory} {checked : List String} {t : Tree Part} {b : Branch}

/-! ### Branches -/

/-- A branch of an `if`. -/
structure Branch where
  node : Tree Part
  /-- It is the block that the condition guards. -/
  body : Bool
  block : body = true → node.kind = "compound_statement"

/-- The nodes as branches; the first block is the body. -/
def markBody : (bodySeen : Bool) → List (Tree Part) → List Branch
  | _, [] => []
  | bodySeen, c :: cs =>
    if h : (c.kind == "compound_statement" && !bodySeen) = true then
      ⟨c, true, fun _ => eq_of_beq (Bool.and_eq_true _ _ ▸ h).1⟩ :: markBody true cs
    else ⟨c, false, nofun⟩ :: markBody bodySeen cs

def branchesOf (t : Tree Part) : List Branch := markBody false (branches t)

/-- What is known about the condition of an `if` or a `switch`. -/
def conditionOf (t : Tree Part) : Run Trace :=
  conditionTrace ((t.children.find? isCondition).map meaningOf)

/-- The expressions that the condition of an `if` checks. -/
def checkedBy (t : Tree Part) : List String :=
  ((t.children.find? isCondition).map validatedInputs).getD []

/-- A branch alone. In the body the given expressions count as checked. -/
def Branch.run (checked : List String) (b : Branch) : Run Unit :=
  if b.body then within checked (meaningOf b.node).block else do let _ ← (meaningOf b.node).process

theorem ifBranches_run (checked : List String) : ∀ {cs : List (Tree Part)} {bodySeen : Bool} {t u : Trace}
    {m m' : Memory}, ifBranches checked bodySeen t (cs.map meaningOf) m = (.ok u, m') →
      runAll ((markBody bodySeen cs).map (·.run checked)) m = (.ok (), m')
  | [], _, _, _, m, m', h => congrArg (Prod.mk _) (congrArg Prod.snd h)
  | c :: cs, bodySeen, t, u, m, m', h => by
    rw [List.map_cons, ifBranches, kind_meaningOf] at h
    rw [markBody]
    split at h
    · rename_i hbody
      rw [dif_pos hbody]
      obtain ⟨x, n, hrun, h⟩ := bind_eq_ok h
      exact (bind_ok hrun).trans (ifBranches_run checked h)
    · rename_i hbody
      rw [dif_neg hbody]
      obtain ⟨v, n, hrun, h⟩ := bind_eq_ok h
      rw [read_bind] at h
      have hstep : Branch.run checked ⟨c, false, nofun⟩ m = (.ok (), n) := bind_ok hrun
      exact (bind_ok hstep).trans (ifBranches_run checked h)

theorem process_if (hk : t.kind = "if_statement") {m' : Memory} {v : ValueId}
    (h : (meaningOf t).process m = (.ok v, m')) :
    ∃ known m₀ n, (do tick; conditionOf t) m = (.ok known, m₀) ∧
      runAll ((branchesOf t).map (·.run (checkedBy t))) m₀ = (.ok (), n) ∧ Adds n m' := by
  have hrule : statementRule (surface t) = ifRule (surface t) := by
    unfold statementRule
    rw [kind_surface, hk]
    rfl
  have hchecked : (((t.children.find? isCondition).map meaningOf).map validatedInputs).getD [] = checkedBy t := by
    have hv : validatedInputs ∘ meaningOf = (validatedInputs : Tree Part → List String) := by
      funext d
      show validatedInputs (meaningOf d) = _
      rw [← validatedInputs_bare, bare_meaningOf]
    rw [Option.map_map, hv, checkedBy]
  rw [process_meaningOf, processRule, hrule] at h
  obtain ⟨_, m₁, htick, h⟩ := bind_eq_ok h
  unfold ifRule at h
  rw [condition_surface, branches_surface] at h
  obtain ⟨known, m₀, hcond, h⟩ := bind_eq_ok h
  obtain ⟨u, n, hbranches, h⟩ := bind_eq_ok h
  rw [hchecked] at hbranches
  refine ⟨known, m₀, n, (bind_ok htick).trans hcond, ifBranches_run _ hbranches, ?_⟩
  obtain ⟨w, n', hfresh, hadds, -⟩ := quiet_fresh u n
  obtain rfl : n' = m' := congrArg Prod.snd (hfresh.symm.trans h)
  exact hadds

/-! ### What a branch does to the flags of names -/

/-- Nothing that the first node assigns is read by the second one, nor assigned there if the second
one holds a `switch`. -/
def Spares (c d : Tree Part) : Prop :=
  ∀ x ∈ assignedNames c, x ∉ readNames d ∧ ((∃ n ∈ d.preorder, n.kind = "switch_statement") → x ∉ assignedNames d)

instance (c d : Tree Part) : Decidable (Spares c d) :=
  inferInstanceAs (Decidable (∀ x ∈ assignedNames c, _ ∧ (_ → _)))

theorem Lockstep.paired_self {F : Comparison} (L : Lockstep F) (t : Tree Part) :
    Paired F (meaningOf t) (meaningOf t) :=
  L.linked (.refl _ t fun _ _ => trivial)

theorem Lockstep.branch_paired {F : Comparison} (L : Lockstep F) (checked : List String)
    (hs : Suited F b.node) (w : F.World) : F.Sim w F.Free (b.run checked) (b.run checked) := by
  have hlinked := (L.paired_self b.node).related
  have hs : Suited F (meaningOf b.node).bare := by rw [bare_meaningOf]; exact hs
  unfold Branch.run
  split
  · rename_i hbody
    have hkind : (meaningOf b.node).kind ≠ "assignment_expression" := by
      rw [kind, part_meaningOf, show b.node.part.kind = _ from b.block hbody]
      decide
    exact L.within_paired checked (hlinked.block (hs.code hkind))
  · exact L.bind (hlinked.process hs w) (fun _ => Holds.pure trivial) fun _ _ _ _ _ => L.pure trivial

/-- Whatever it reads, a run does the same from the same memory twice. -/
theorem suited_frame (m : Memory) (t : Tree Part) : Suited (upToFlags m m (· ∈ assignedNames t)) t :=
  ⟨fun _ _ => rfl, fun _ h => h, fun _ _ _ _ _ => rfl⟩

theorem Branch.frame (hm : m.Sound) (h : b.run checked m = (.ok (), n)) :
    n.Sound ∧ n.checked = m.checked ∧ ∀ x, x ∉ assignedNames b.node → n.flagsOf x = m.flagsOf x :=
  frame_of_sim hm ((upToFlags_lockstep m m _).branch_paired checked (suited_frame m b.node)) h

theorem branches_frame : ∀ {bs : List Branch} {m n : Memory}, m.Sound →
    runAll (bs.map (·.run checked)) m = (.ok (), n) →
      n.Sound ∧ n.checked = m.checked ∧ ∀ x, (∀ b ∈ bs, x ∉ assignedNames b.node) → n.flagsOf x = m.flagsOf x
  | [], m, n, hm, h => by
    obtain rfl : m = n := congrArg Prod.snd h
    exact ⟨hm, rfl, fun _ _ => rfl⟩
  | b :: bs, m, n, hm, h => by
    obtain ⟨_, o, hb, hbs⟩ := bind_eq_ok h
    obtain ⟨ho, hco, hfo⟩ := Branch.frame hm hb
    obtain ⟨hn, hcn, hfn⟩ := branches_frame ho hbs
    refine ⟨hn, hcn.trans hco, fun x hx => ?_⟩
    obtain ⟨hxb, hxbs⟩ := List.forall_mem_cons.mp hx
    rw [hfn x hxbs, hfo x hxb]

/-- A branch that is spared does in its turn what it does alone: a name has the same flags, or it is
left as it was. -/
theorem Branch.twins {before : List Branch} {m₁ n₁ : Memory}
    (hm : m.Sound) (hbefore : runAll (before.map (·.run checked)) m = (.ok (), n))
    (hspares : ∀ c ∈ before, Spares c.node b.node) (hm₁ : b.run checked m = (.ok (), m₁))
    (hn₁ : b.run checked n = (.ok (), n₁)) : Twins m n (· ∈ assignedNames b.node) m₁ n₁ := by
  obtain ⟨hn, hc, hframe⟩ := branches_frame hm hbefore
  have hsuited : Suited (upToFlags m n (· ∈ assignedNames b.node)) b.node := by
    refine ⟨fun x hx => ?_, fun _ h => h, fun d hd hk x hx => ?_⟩
    · exact (hframe x fun c hc h => (hspares c hc x h).1 hx).symm
    · exact (hframe x fun c hc h => (hspares c hc x h).2 ⟨d, hd, hk⟩ hx).symm
  exact twins_of_sim hm hn hc.symm ((upToFlags_lockstep m n _).branch_paired checked hsuited) hm₁ hn₁

theorem runAll_append {rs ss : List (Run Unit)} {m' : Memory} (h : runAll (rs ++ ss) m = (.ok (), m')) :
    ∃ n, runAll rs m = (.ok (), n) ∧ runAll ss n = (.ok (), m') := by
  induction rs generalizing m with
  | nil => exact ⟨m, rfl, h⟩
  | cons r rs ih =>
    obtain ⟨_, o, hr, h⟩ := bind_eq_ok h
    obtain ⟨n, hn, h⟩ := ih h
    exact ⟨n, (bind_ok hr).trans hn, h⟩

/-! ### What an `if` does to the flags of names -/

/-- After the branches a name has the flags that the last branch to assign it gives it alone. -/
theorem flagsOf_branches {before after : List Branch} {m₁ : Memory}
    (hm : m.Sound) (hrun : runAll ((before ++ b :: after).map (·.run checked)) m = (.ok (), n))
    (hm₁ : b.run checked m = (.ok (), m₁)) (hspares : ∀ c ∈ before, Spares c.node b.node) {x : String}
    (hafter : ∀ c ∈ after, x ∉ assignedNames c.node)
    (hx : (∀ c ∈ before, x ∉ assignedNames c.node) ∨ m₁.flagsOf x ≠ m.flagsOf x) :
    n.flagsOf x = m₁.flagsOf x := by
  rw [List.map_append] at hrun
  obtain ⟨o, hbefore, hrun⟩ := runAll_append hrun
  obtain ⟨_, o₁, hb, hrest⟩ := bind_eq_ok hrun
  obtain ⟨ho, -, hframe⟩ := branches_frame hm hbefore
  obtain ⟨ho₁, -, -⟩ := Branch.frame ho hb
  rw [(branches_frame ho₁ hrest).2.2 x hafter]
  rcases (Branch.twins hm hbefore hspares hm₁ hb).names x with ⟨-, h⟩ | ⟨h, h'⟩
  · exact h.symm
  · rcases hx with hx | hx
    · rw [h, h', hframe x hx]
    · exact absurd h hx

theorem condition_sound {m₀ : Memory} {known : Trace} (hm : m.Sound)
    (h : (do tick; conditionOf t) m = (.ok known, m₀)) : m₀.Sound := by
  obtain ⟨_, m₁, htick, hcond⟩ := bind_eq_ok h
  have hm₁ : m₁.Sound := by
    rw [tick_apply] at htick
    obtain rfl := congrArg Prod.snd htick
    exact hm.grows (.of_store rfl) rfl
  unfold conditionOf at hcond
  cases hd : t.children.find? isCondition with
  | none =>
    rw [hd] at hcond
    obtain rfl : m₁ = m₀ := congrArg Prod.snd hcond
    exact hm₁
  | some d =>
    rw [hd] at hcond
    obtain ⟨v, n, heval, hread⟩ := bind_eq_ok hcond
    obtain rfl : n = m₀ := congrArg Prod.snd hread
    have hsuited : Suited (upToFlags m₁ m₁ (· ∈ assignedNames d)) (meaningOf d).bare := by
      rw [bare_meaningOf]
      exact suited_frame m₁ d
    exact (frame_of_sim hm₁ (((upToFlags_lockstep m₁ m₁ _).paired_self d).related.eval hsuited) heval).1

def Memory.Taints (m : Memory) (x : String) : Prop := (m.traceOf x).tainted = true

theorem taints_iff_of_flagsOf {x : String} (h : m.flagsOf x = n.flagsOf x) : m.Taints x ↔ n.Taints x := by
  have hflags : (m.traceOf x).flags = (n.traceOf x).flags := by rw [flags_traceOf, flags_traceOf, h]
  rw [Memory.Taints, Memory.Taints, show (m.traceOf x).tainted = _ from congrArg Prod.fst hflags]
  rfl

/-- **The last branch decides.** A name that no branch assigns has a value from a request if it has
one after the condition. If no branch after `b` assigns the name and those before `b` spare it, the
name has one if it has one after `b` alone. -/
theorem tainted_if_iff {t : Tree Part} (hk : t.kind = "if_statement") {m m' : Memory} (hm : m.Sound)
    {v : ValueId} (h : (meaningOf t).process m = (.ok v, m')) :
    ∃ known m₀, (do tick; conditionOf t) m = (.ok known, m₀) ∧ ∀ x,
      ((∀ b ∈ branchesOf t, x ∉ assignedNames b.node) → (m'.Taints x ↔ m₀.Taints x)) ∧
      ∀ before b after m₁, branchesOf t = before ++ b :: after → b.run (checkedBy t) m₀ = (.ok (), m₁) →
        (∀ c ∈ before, Spares c.node b.node) → (∀ c ∈ after, x ∉ assignedNames c.node) →
        (∀ c ∈ before, x ∉ assignedNames c.node) ∨ ¬(m₁.Taints x ↔ m₀.Taints x) →
        (m'.Taints x ↔ m₁.Taints x) := by
  obtain ⟨known, m₀, n, hcond, hrun, hadds⟩ := process_if hk h
  have hm₀ : m₀.Sound := condition_sound hm hcond
  obtain ⟨hn, -, hframe⟩ := branches_frame hm₀ hrun
  have hlast : ∀ x, m'.flagsOf x = n.flagsOf x := hn.flagsOf_grows hadds.grows hadds.names
  refine ⟨known, m₀, hcond, fun x => ⟨fun hx => ?_, ?_⟩⟩
  · exact taints_iff_of_flagsOf ((hlast x).trans (hframe x hx))
  · intro before b after m₁ hsplit hm₁ hspares hafter hx
    have hx : (∀ c ∈ before, x ∉ assignedNames c.node) ∨ m₁.flagsOf x ≠ m₀.flagsOf x :=
      hx.imp_right fun hne he => hne (taints_iff_of_flagsOf he)
    rw [hsplit] at hrun
    exact taints_iff_of_flagsOf ((hlast x).trans (flagsOf_branches hm₀ hrun hm₁ hspares hafter hx))

instance (m : Memory) (x : String) : Decidable (m.Taints x) := inferInstanceAs (Decidable (_ = true))

/-- A statement that assigns one variable to another. -/
def copyInto (target source : String) : Tree Part :=
  .plain "expression_statement" "" [
    .plain "assignment_expression" "" [
      .filling "left" "variable_name" target [], .filling "right" "variable_name" source []]]

/-- `{ $x = $_GET; }` -/
def guarded : Branch :=
  ⟨.filling "body" "compound_statement" "" [copyInto "$x" "$_GET"], true, fun _ => rfl⟩

/-- `else { target = $y; }` -/
def otherwise (target : String) : Branch :=
  ⟨.filling "alternative" "else_clause" "" [.plain "compound_statement" "" [copyInto target "$y"]], false, nofun⟩

/-- `if ($a) { $x = $_GET; } else { target = $y; }` -/
def twoBranches (target : String) : Tree Part :=
  .plain "if_statement" "" [
    .filling "condition" "parenthesized_expression" "($a)" [.plain "variable_name" "$a" []],
    guarded.node, (otherwise target).node]

def tested (target : String) : Memory := ((do tick; conditionOf (twoBranches target)) Memory.empty).2

theorem exists_ok {α : Type} {r : Run α} (h : (r m).1.isOk = true) : ∃ a, r m = (.ok a, (r m).2) := by
  rcases hr : r m with ⟨_ | a, m'⟩
  · rw [hr] at h
    exact absurd h (by simp [Except.isOk, Except.toBool])
  · exact ⟨a, rfl⟩

theorem tainted_if_iff_twoBranches :
    ((meaningOf (twoBranches "$z")).process Memory.empty).2.Taints "$x" ∧
      ¬((meaningOf (twoBranches "$z")).process Memory.empty).2.Taints "$y" ∧
      ¬((meaningOf (twoBranches "$z")).process Memory.empty).2.Taints "$z" := by
  obtain ⟨v, h⟩ := exists_ok (r := (meaningOf (twoBranches "$z")).process) (m := Memory.empty) (by decide +kernel)
  obtain ⟨known, m₀, hcond, hif⟩ := tainted_if_iff (t := twoBranches "$z") rfl sound_empty h
  obtain rfl : tested "$z" = m₀ := congrArg Prod.snd hcond
  obtain ⟨_, hbody⟩ := exists_ok (r := guarded.run (checkedBy (twoBranches "$z"))) (m := tested "$z")
    (by decide +kernel)
  obtain ⟨_, helse⟩ := exists_ok (r := (otherwise "$z").run (checkedBy (twoBranches "$z"))) (m := tested "$z")
    (by decide +kernel)
  have hx := (hif "$x").2 [] guarded [otherwise "$z"] _ rfl hbody
    (fun _ h => absurd h List.not_mem_nil) (by decide +kernel) (Or.inl fun _ h => absurd h List.not_mem_nil)
  have hy := (hif "$y").1 (by decide +kernel)
  have hz := (hif "$z").2 [guarded] (otherwise "$z") [] _ rfl helse
    (by decide +kernel) (fun _ h => absurd h List.not_mem_nil) (Or.inl (by decide +kernel))
  exact ⟨hx.mpr (by decide +kernel), fun hlast => absurd (hy.mp hlast) (by decide +kernel),
    fun hlast => absurd (hz.mp hlast) (by decide +kernel)⟩

/-- **A later branch clears a taint** that the body leaves in `$x`. -/
theorem later_branch_clears_taint :
    branchesOf (twoBranches "$x") = [guarded, otherwise "$x"] ∧
      (guarded.run (checkedBy (twoBranches "$x")) (tested "$x")).2.Taints "$x" ∧
      ((meaningOf (twoBranches "$x")).process Memory.empty).1.isOk = true ∧
      ¬((meaningOf (twoBranches "$x")).process Memory.empty).2.Taints "$x" :=
  ⟨rfl, by decide +kernel, by decide +kernel, by decide +kernel⟩

/-! ### Formulas -/

/-- A condition made of validator calls with their arguments. -/
inductive Formula where
  | call (arguments : List String)
  | not (φ : Formula)
  | and (φ ψ : Formula)
  | or (φ ψ : Formula)

namespace Formula

variable {φ ψ : Formula} {e : String}

def Answers : Formula → Type
  | call _ => Bool
  | not φ => φ.Answers
  | and φ ψ => φ.Answers × ψ.Answers
  | or φ ψ => φ.Answers × ψ.Answers

def eval : (φ : Formula) → φ.Answers → Bool
  | call _, ν => ν
  | not φ, ν => !φ.eval ν
  | and φ ψ, ν => φ.eval ν.1 && ψ.eval ν.2
  | or φ ψ, ν => φ.eval ν.1 || ψ.eval ν.2

/-- Some call that the expression is an argument of has said yes. -/
def confirms (e : String) : (φ : Formula) → φ.Answers → Bool
  | call arguments, ν => arguments.contains e && ν
  | not φ, ν => φ.confirms e ν
  | and φ ψ, ν => φ.confirms e ν.1 || ψ.confirms e ν.2
  | or φ ψ, ν => φ.confirms e ν.1 || ψ.confirms e ν.2

def arguments : Formula → List String
  | call arguments => arguments
  | not φ => φ.arguments
  | and φ ψ => φ.arguments ++ ψ.arguments
  | or φ ψ => φ.arguments ++ ψ.arguments

/-- The condition cannot have the value without a yes to the expression. -/
def needs (e : String) : Formula → (value : Bool) → Bool
  | call arguments, value => value && arguments.contains e
  | not φ, value => φ.needs e !value
  | and φ ψ, true => φ.needs e true || ψ.needs e true
  | and φ ψ, false => φ.needs e false && ψ.needs e false
  | or φ ψ, true => φ.needs e true && ψ.needs e true
  | or φ ψ, false => φ.needs e false || ψ.needs e false

/-- The condition is made with `&&` alone. -/
def conjunctive : Formula → Bool
  | call _ => true
  | not _ => false
  | and φ ψ => φ.conjunctive && ψ.conjunctive
  | or _ _ => false

def refusal : (φ : Formula) → φ.Answers
  | call _ => false
  | not φ => φ.refusal
  | and φ ψ => (φ.refusal, ψ.refusal)
  | or φ ψ => (φ.refusal, ψ.refusal)

theorem confirms_refusal (e : String) (φ : Formula) : φ.confirms e φ.refusal = false := by
  induction φ with
  | call arguments => exact Bool.and_false _
  | not φ ih => exact ih
  | and φ ψ ihφ ihψ => simp [confirms, refusal, ihφ, ihψ]
  | or φ ψ ihφ ihψ => simp [confirms, refusal, ihφ, ihψ]

/-- Whatever is answered, the value tells of a yes to the expression. -/
def Entails (φ : Formula) (value : Bool) (e : String) : Prop :=
  ∀ ν, φ.eval ν = value → φ.confirms e ν = true

/-- If both parts have the value, one of the two tells of a yes, and always the same one, since they are
answered independently. -/
theorem entails_both {b : Bool} :
    (∀ ν : φ.Answers × ψ.Answers, φ.eval ν.1 = b → ψ.eval ν.2 = b →
      φ.confirms e ν.1 = true ∨ ψ.confirms e ν.2 = true) ↔ φ.Entails b e ∨ ψ.Entails b e := by
  constructor
  · intro h
    by_contra hneither
    simp only [Entails, not_or, not_forall] at hneither
    obtain ⟨⟨ν, hν, hleft⟩, ⟨μ, hμ, hright⟩⟩ := hneither
    exact (h (ν, μ) hν hμ).elim hleft hright
  · rintro (h | h) ν hν hμ
    · exact Or.inl (h ν.1 hν)
    · exact Or.inr (h ν.2 hμ)

/-- If one of the parts has the value, it must tell of a yes itself: the calls of the other one may all
have said no. -/
theorem entails_either {b : Bool} :
    (∀ ν : φ.Answers × ψ.Answers, φ.eval ν.1 = b ∨ ψ.eval ν.2 = b →
      φ.confirms e ν.1 = true ∨ ψ.confirms e ν.2 = true) ↔ φ.Entails b e ∧ ψ.Entails b e := by
  constructor
  · intro h
    refine ⟨fun ν hν => ?_, fun μ hμ => ?_⟩
    · simpa [confirms_refusal] using h (ν, ψ.refusal) (Or.inl hν)
    · simpa [confirms_refusal] using h (φ.refusal, μ) (Or.inr hμ)
  · rintro ⟨hleft, hright⟩ ν (hν | hμ)
    · exact Or.inl (hleft ν.1 hν)
    · exact Or.inr (hright ν.2 hμ)

/-- The value tells of a yes to the expression if and only if the condition needs it. -/
theorem entails_iff (φ : Formula) (value : Bool) (e : String) : φ.Entails value e ↔ φ.needs e value = true := by
  induction φ generalizing value with
  | call arguments =>
    cases value with
    | true => simp [Entails, Answers, eval, confirms, needs]
    | false => simp [Entails, Answers, eval, confirms, needs]
  | not φ ih =>
    rw [needs, ← ih]
    simp only [Entails, Answers, eval, confirms]
    cases value <;> simp
  | and φ ψ ihφ ihψ =>
    cases value with
    | true =>
      rw [needs, Bool.or_eq_true, ← ihφ, ← ihψ, ← entails_both]
      simp only [Entails, Answers, eval, confirms, Bool.and_eq_true, Bool.or_eq_true, and_imp]
    | false =>
      rw [needs, Bool.and_eq_true, ← ihφ, ← ihψ, ← entails_either]
      simp only [Entails, Answers, eval, confirms, Bool.and_eq_false_iff, Bool.or_eq_true]
  | or φ ψ ihφ ihψ =>
    cases value with
    | true =>
      rw [needs, Bool.and_eq_true, ← ihφ, ← ihψ, ← entails_either]
      simp only [Entails, Answers, eval, confirms, Bool.or_eq_true]
    | false =>
      rw [needs, Bool.or_eq_true, ← ihφ, ← ihψ, ← entails_both]
      simp only [Entails, Answers, eval, confirms, Bool.or_eq_false_iff, Bool.or_eq_true, and_imp]

theorem mem_arguments_of_needs {value : Bool} (h : φ.needs e value = true) : e ∈ φ.arguments := by
  induction φ generalizing value with
  | call arguments =>
    simp only [needs, Bool.and_eq_true, List.contains_iff_mem] at h
    exact h.2
  | not φ ih => exact ih h
  | and φ ψ ihφ ihψ =>
    rw [arguments, List.mem_append]
    cases value with
    | true => exact (Bool.or_eq_true _ _ ▸ h).imp ihφ ihψ
    | false => exact Or.inl (ihφ (Bool.and_eq_true _ _ ▸ h).1)
  | or φ ψ ihφ ihψ =>
    rw [arguments, List.mem_append]
    cases value with
    | true => exact Or.inl (ihφ (Bool.and_eq_true _ _ ▸ h).1)
    | false => exact (Bool.or_eq_true _ _ ▸ h).imp ihφ ihψ

theorem needs_true_of_conjunctive (hφ : φ.conjunctive = true) (h : e ∈ φ.arguments) : φ.needs e true = true := by
  induction φ with
  | call args => simpa [needs, arguments] using h
  | not φ _ => exact absurd hφ (by simp [conjunctive])
  | and φ ψ ihφ ihψ =>
    obtain ⟨hleft, hright⟩ := Bool.and_eq_true _ _ ▸ hφ
    rw [needs, Bool.or_eq_true]
    exact (List.mem_append.mp h).imp (ihφ hleft) (ihψ hright)
  | or φ ψ _ _ => exact absurd hφ (by simp [conjunctive])

end Formula

/-! ### How conditions are written -/

def signs (t : Tree Part) : List String :=
  (t.children.filter (!·.isNamed)).map (·.kind)

/-- The tree writes the condition. -/
inductive Condition : Tree Part → Formula → Prop where
  | call {t : Tree Part} : isValidatorCall t = true →
      Condition t (.call ((arguments t).map fun x => Text.removeBlanks x.text))
  | group {t c : Tree Part} {φ : Formula} : t.kind = "parenthesized_expression" → t.namedChildren = [c] →
      Condition c φ → Condition t φ
  | not {t c : Tree Part} {φ : Formula} : t.kind = "unary_op_expression" → signs t = ["!"] →
      t.namedChildren = [c] → Condition c φ → Condition t (.not φ)
  | and {t l r : Tree Part} {φ ψ : Formula} : t.kind = "binary_expression" → signs t = ["&&"] →
      t.namedChildren = [l, r] → Condition l φ → Condition r ψ → Condition t (.and φ ψ)
  | or {t l r : Tree Part} {φ ψ : Formula} : t.kind = "binary_expression" → signs t = ["||"] →
      t.namedChildren = [l, r] → Condition l φ → Condition r ψ → Condition t (.or φ ψ)

theorem mem_validatedInputsAll {e : String} {cs : List (Tree Part)} :
    e ∈ validatedInputsAll cs ↔ ∃ c ∈ cs.filter (·.isNamed), e ∈ validatedInputs c := by
  induction cs with
  | nil => simp [validatedInputsAll]
  | cons c cs ih =>
    rw [validatedInputsAll, List.filter_cons]
    by_cases hc : c.isNamed = true
    · rw [if_pos hc, if_pos hc, mem_unite, ih, List.exists_mem_cons_iff]
    · rw [if_neg hc, if_neg hc, ih]

theorem mem_validatedInputs_of_kind (hk : t.kind ≠ "member_call_expression") {e : String} :
    e ∈ validatedInputs t ↔ ∃ c ∈ t.namedChildren, e ∈ validatedInputs c := by
  have hcall : isValidatorCall t = false := by simp [isValidatorCall, hk]
  cases t
  rw [validatedInputs, if_neg (by simp [hcall]), mem_validatedInputsAll]
  rfl

/-- Every argument of every call counts as checked, except for one without a text. -/
theorem mem_validatedInputs {φ : Formula} (h : Condition t φ) {e : String} :
    e ∈ validatedInputs t ↔ e ≠ "" ∧ e ∈ φ.arguments := by
  induction h with
  | @call t hcall =>
    cases t
    rw [validatedInputs, if_pos hcall, mem_unite]
    simp [Formula.arguments, and_comm]
  | group hk hc _ ih =>
    rw [mem_validatedInputs_of_kind (by rw [hk]; decide), hc]
    simpa using ih
  | not hk _ hc _ ih =>
    rw [mem_validatedInputs_of_kind (by rw [hk]; decide), hc]
    simpa [Formula.arguments] using ih
  | and hk _ hc _ _ ihl ihr =>
    rw [mem_validatedInputs_of_kind (by rw [hk]; decide), hc]
    simp only [List.exists_mem_cons_iff, ihl, ihr, Formula.arguments, List.mem_append, and_or_left]
    simp
  | or hk _ hc _ _ ihl ihr =>
    rw [mem_validatedInputs_of_kind (by rw [hk]; decide), hc]
    simp only [List.exists_mem_cons_iff, ihl, ihr, Formula.arguments, List.mem_append, and_or_left]
    simp

/-! ### Inside the body -/

theorem subscriptValue_of_checked {c : Tree Part}
    (hscope : checked ∈ m.checked) (hkey : Text.removeBlanks c.text ∈ checked) (hne : Text.removeBlanks c.text ≠ "") :
    subscriptValue (surface c) m = fresh {} m := by
  have hchecked : m.checked.any (·.contains (Text.removeBlanks c.text)) = true :=
    List.any_eq_true.mpr ⟨checked, hscope, List.contains_iff_mem.mpr hkey⟩
  unfold subscriptValue
  rw [text_surface, bind_ok (isChecked_apply _ m), bind_ok (lookup?_apply _ m), hchecked]
  simp [hne]

/-- **What a condition tells, and what the analysis takes for checked.** An expression counts as
checked if it is an argument of a call. The truth of the condition tells that it has been checked if
and only if the condition needs it; a condition made with `&&` alone needs everything that counts as
checked. -/
theorem validated_entails_iff {t : Tree Part} {φ : Formula} (h : Condition t φ) {e : String} (he : e ≠ "") :
    (e ∈ validatedInputs t ↔ e ∈ φ.arguments) ∧
    ((∀ ν, φ.eval ν = true → φ.confirms e ν = true) ↔ φ.needs e true = true) ∧
    (φ.needs e true = true → e ∈ validatedInputs t) ∧
    (φ.conjunctive = true → e ∈ validatedInputs t → ∀ ν, φ.eval ν = true → φ.confirms e ν = true) ∧
    ∀ (s c : Tree Part) (m : Memory), s.children.find? isCondition = some t → e ∈ validatedInputs t →
      Text.removeBlanks c.text = e → checkedBy s ∈ m.checked → subscriptValue (surface c) m = fresh {} m := by
  have hmem : e ∈ validatedInputs t ↔ e ∈ φ.arguments := by
    rw [mem_validatedInputs h, and_iff_right he]
  refine ⟨hmem, φ.entails_iff true e, fun hneeds => ?_, fun hconj hin => ?_, fun s c m hs hin hc hscope => ?_⟩
  · exact hmem.mpr (Formula.mem_arguments_of_needs hneeds)
  · exact (φ.entails_iff true e).mpr (Formula.needs_true_of_conjunctive hconj (hmem.mp hin))
  · have hchecked : checkedBy s = validatedInputs t := by rw [checkedBy, hs]; rfl
    subst hc
    exact subscriptValue_of_checked hscope (hchecked ▸ hin) he

/-! ### Small conditions -/

/-- `$v->is_number(argument)` -/
def validating (argument : Tree Part) : Tree Part :=
  .plain "member_call_expression" "" [
    .filling "object" "variable_name" "$v" [], .filling "name" "name" "is_number" [],
    .filling "arguments" "arguments" "" [.plain "argument" "" [argument]]]

/-- `($v->is_number($_GET['a']) && $v->is_number($_GET['b']))` -/
def bothValid : Tree Part :=
  .filling "condition" "parenthesized_expression" "" [
    .plain "binary_expression" "" [validating (requestEntry "a"), sign "&&", validating (requestEntry "b")]]

/-- `(!$v->is_number($_GET['a']))` -/
def invalid : Tree Part :=
  .filling "condition" "parenthesized_expression" "" [
    .plain "unary_op_expression" "" [sign "!", validating (requestEntry "a")]]

/-- `if condition { echo $_GET['a']; }` -/
def echoing (condition : Tree Part) : Tree Part :=
  .plain "if_statement" "" [condition,
    .filling "body" "compound_statement" "" [.plain "echo_statement" "" [requestEntry "a"]]]

theorem condition_bothValid : Condition bothValid (.and (.call ["$_GET['a']"]) (.call ["$_GET['b']"])) :=
  .group rfl rfl (.and rfl rfl rfl (.call (by decide +kernel)) (.call (by decide +kernel)))

theorem validated_bothValid : "$_GET['a']" ∈ validatedInputs bothValid ∧
    ∀ ν : Bool × Bool, (ν.1 && ν.2) = true →
      Formula.confirms "$_GET['a']" (.and (.call ["$_GET['a']"]) (.call ["$_GET['b']"])) ν = true := by
  obtain ⟨hmem, -, -, hconj, -⟩ := validated_entails_iff condition_bothValid (e := "$_GET['a']") (by decide)
  have hin : "$_GET['a']" ∈ validatedInputs bothValid := hmem.mpr (by decide)
  exact ⟨hin, hconj rfl hin⟩

/-- `if (!$v->is_number($_GET['a'])) { echo $_GET['a']; }`: what the call has refused is written out
without a finding. -/
theorem refused_counts_as_checked : Condition invalid (.not (.call ["$_GET['a']"])) ∧
    "$_GET['a']" ∈ validatedInputs invalid ∧
    (∃ ν, Formula.eval (.not (.call ["$_GET['a']"])) ν = true ∧
      Formula.confirms "$_GET['a']" (.not (.call ["$_GET['a']"])) ν = false) ∧
    ((meaningOf (echoing invalid)).process Memory.empty).2.findings.size = 0 ∧
    ((meaningOf (.plain "echo_statement" "" [requestEntry "a"])).process Memory.empty).2.findings.size = 1 := by
  have h : Condition invalid (.not (.call ["$_GET['a']"])) :=
    .group rfl rfl (.not rfl rfl rfl (.call (by decide +kernel)))
  exact ⟨h, (mem_validatedInputs h).mpr (by decide), ⟨false, rfl, rfl⟩, by decide +kernel, by decide +kernel⟩

end SourceAudit.Taint
