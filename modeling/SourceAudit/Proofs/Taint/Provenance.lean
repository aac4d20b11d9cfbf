/-
# Where taints come from

A program that names no request array, calls neither a cookie nor the body of the
request, and asks no request object has nothing that comes from a request. Every trace
that it makes is clean: the traces that nodes bring in are the only ones that are not
made of others, and `Vouched` lists them.

A value from a request has a list of sources, and the list is never empty: it names the
request arrays, entries and calls of the program from which the value was made, each
once (`Trace.Traced`). A list that is cut keeps its first sources, and only the node
that brings in a value gives a source, so this is an invariant in the sense of
`Invariant`.
-/
import SourceAudit.Proofs.Taint.Discipline
import SourceAudit.Proofs.Taint.Limits

namespace SourceAudit.Taint

open Tree

/-- No node of the program brings in anything of a request. -/
structure Sourceless (t : Tree Part) : Prop where
  arrays : ∀ n ∈ t.preorder, n.kind = "variable_name" → n.text ∉ superglobals
  cookie : ∀ n ∈ t.preorder, n.kind = "function_call_expression" →
    ∀ f, functionName? (n.field? "function") = some f → Text.lower f = "cookie" →
      (arguments n).length ≠ 1
  body : ∀ n ∈ t.preorder, n.kind = "function_call_expression" →
    ∀ f, functionName? (n.field? "function") = some f → Text.lower f = "file_get_contents" →
      ∀ a ∈ arguments n, ∀ s, literal? a = some s → Text.lower s ≠ "php://input"
  requests : ∀ n ∈ t.preorder, n.kind = "member_call_expression" →
    ∀ method, methodName? n = some method → readsRequest n method = false

theorem readsBody_iff {args : List (Tree Part)} :
    readsBody args = true ↔ ∃ a ∈ args, ∃ s, literal? a = some s ∧ Text.lower s = "php://input" := by
  have hempty : Text.lower "" ≠ "php://input" := by decide
  unfold readsBody literalText
  rw [List.any_eq_true]
  refine exists_congr fun a => and_congr_right fun _ => ?_
  cases literal? a with
  | none => simp [hempty]
  | some s => simp

theorem isInputCall_iff {n : Tree Part} : isInputCall n = true ↔
    (n.kind = "function_call_expression" ∧ ∃ f, functionName? (n.field? "function") = some f ∧
      (Text.lower f = "cookie" ∧ (arguments n).length = 1 ∨
        Text.lower f = "file_get_contents" ∧ readsBody (arguments n) = true)) ∨
    (n.kind = "member_call_expression" ∧ ∃ method, methodName? n = some method ∧ readsRequest n method = true) := by
  unfold isInputCall
  simp only [Bool.or_eq_true, Bool.and_eq_true, beq_iff_eq, Option.any_eq_true]

/-- A node that is a request array, or a call that brings in the request. -/
def isSource (n : Tree Part) : Bool :=
  n.kind == "variable_name" && superglobals.contains n.text || isInputCall n

theorem sourceless_iff {t : Tree Part} : Sourceless t ↔ ∀ n ∈ t.preorder, isSource n = false := by
  constructor
  · intro h n hn
    rw [← Bool.not_eq_true, isSource, Bool.or_eq_true, isInputCall_iff]
    rintro (hv | ⟨hk, f, hf, ⟨hl, ha⟩ | ⟨hl, hb⟩⟩ | ⟨hk, method, hm, hr⟩)
    · simp only [Bool.and_eq_true, beq_iff_eq, List.contains_iff_mem] at hv
      exact h.arrays n hn hv.1 hv.2
    · exact h.cookie n hn hk f hf hl ha
    · obtain ⟨a, ha, s, hs, hb⟩ := readsBody_iff.mp hb
      exact h.body n hn hk f hf hl a ha s hs hb
    · exact Bool.false_ne_true ((h.requests n hn hk method hm).symm.trans hr)
  · intro h
    have hcall : ∀ n ∈ t.preorder, isInputCall n ≠ true := fun n hn hc => by
      have := h n hn
      simp [isSource, hc] at this
    refine ⟨fun n hn hk hs => ?_, fun n hn hk f hf hl ha => ?_, fun n hn hk f hf hl a ha s hs hb => ?_,
      fun n hn hk method hm => ?_⟩
    · have := h n hn
      simp [isSource, hk, hs] at this
    · exact hcall n hn (isInputCall_iff.mpr (Or.inl ⟨hk, f, hf, Or.inl ⟨hl, ha⟩⟩))
    · have hr := readsBody_iff.mpr ⟨a, ha, s, hs, hb⟩
      exact hcall n hn (isInputCall_iff.mpr (Or.inl ⟨hk, f, hf, Or.inr ⟨hl, hr⟩⟩))
    · by_contra hr
      exact hcall n hn (isInputCall_iff.mpr (Or.inr ⟨hk, method, hm, by simpa using hr⟩))

instance (t : Tree Part) : Decidable (Sourceless t) := decidable_of_iff _ sourceless_iff.symm

/-! ### Clean traces -/

def Trace.Clean (t : Trace) : Prop := t.tainted = false ∧ t.upload = false

theorem Trace.Clean.merge {a b : Trace} (ha : a.Clean) (hb : b.Clean) : (a.merge b).Clean := by
  simp [Trace.Clean, Trace.merge, ha.1, ha.2, hb.1, hb.2]

theorem exists_array_of_isSuperglobalEntry {n : Tree Part} (h : isSuperglobalEntry n = true) :
    ∃ c ∈ n.children, c.kind = "variable_name" ∧ c.text ∈ superglobals := by
  unfold isSuperglobalEntry hasBase at h
  obtain ⟨c, hc, hp⟩ := (Option.any_eq_true _ _).mp h
  simp only [Bool.and_eq_true, beq_iff_eq, List.contains_iff_mem] at hp
  exact ⟨c, List.mem_of_find?_eq_some hc, hp⟩

theorem Sourceless.vouched {t : Tree Part} (h : Sourceless t) : Vouched (· ∈ t.preorder) Trace.Clean where
  plain := fun _ ht hu _ => ⟨ht, hu⟩
  merge := Trace.Clean.merge
  alter := fun ha ht _ hu => ⟨ht.trans ha.1, hu.elim (·.trans ha.2) id⟩
  array := fun hn hk hs => absurd (List.contains_iff_mem.mp hs) (h.arrays _ hn hk)
  entry := by
    intro n t' hn _ he _
    obtain ⟨c, hc, hk, hs⟩ := exists_array_of_isSuperglobalEntry he
    exact absurd hs (h.arrays c (mem_preorder_trans hn (mem_preorder_of_mem_children hc)) hk)
  filePart := by
    intro n a t' _ _ ha hu _
    rw [ha.2] at hu
    simp at hu
  call := by
    intro n t' hn hi _ _
    have := sourceless_iff.mp h n hn
    simp [isSource, hi] at this

/-- All that the memory knows is clean, and all that it has found is a suspicion. -/
def Memory.Clean (m : Memory) : Prop :=
  (∀ v, (m.trace v).Clean) ∧ ∀ f ∈ m.findings, f.rule.isHunch = true

theorem clean_empty : Memory.empty.Clean :=
  ⟨fun v => by simp [Memory.trace, Memory.empty, Trace.Clean], fun f hf => by simp [Memory.empty] at hf⟩

theorem clean_invariant (node : Tree Part → Prop) : Invariant node Trace.Clean Memory.Clean where
  good := fun hm v => hm.1 v
  count := fun hm => hm
  make := by
    intro m t hm ht
    refine ⟨fun v => ?_, hm.2⟩
    rw [trace_push]
    split
    · exact ht
    · exact hm.1 v
  extend := by
    intro m f v hm hf
    refine ⟨fun w => ?_, hm.2⟩
    rw [trace_modify]
    split
    · exact ⟨(hf _).tainted.trans (hm.1 w).1, (hf _).upload.trans (hm.1 w).2⟩
    · exact hm.1 w
  rename := fun _ hm => hm
  find := by
    intro m f hm hf
    refine ⟨hm.1, fun g hg => ?_⟩
    rcases Array.mem_push.mp hg with hg | rfl
    · exact hm.2 g hg
    · refine hf.reason.resolve_right fun ht => ?_
      rw [(hm.1 _).1] at ht
      simp at ht
  check := fun _ hm => hm

/-- The identifiers under which a suspicion alone is reported. -/
def hunchIds : List String :=
  ["PHP_COMMAND_EXEC_SUSPICIOUS", "PHP_PREG_REPLACE_E_SUSPICIOUS", "PHP_DYNAMIC_BACKDOOR",
    "PHP_CALLBACK_SUSPICIOUS_COMMAND"]

theorem id_mem_hunchIds {r : Rule} (h : r.isHunch = true) : r.id ∈ hunchIds := by
  cases r <;> first | decide | exact absurd h (by decide)

/-- **No source, no taint.** However the analysis of a program without sources ends, no name has a
value from a request, and every finding is a suspicion. -/
theorem clean_of_sourceless (t : Tree Part) (h : Sourceless t) :
    (∀ p ∈ (analyze t).memory.names,
      ((analyze t).memory.trace p.2).tainted = false ∧ ((analyze t).memory.trace p.2).upload = false) ∧
    ∀ f ∈ (analyze t).memory.findings, f.rule.id ∈ hunchIds := by
  have hclean : (analyze t).memory.Clean :=
    analyze_keeps h.vouched (clean_invariant _) clean_empty t fun _ hn => hn
  exact ⟨fun p _ => hclean.1 p.2, fun f hf => id_mem_hunchIds (hclean.2 f hf)⟩

/-- `$a = $b; system($a);` -/
def localCommand : Tree Part :=
  .plain "program" "" [
    .plain "expression_statement" "$a = $b;" [
      .plain "assignment_expression" "$a = $b" [
        .filling "left" "variable_name" "$a" [], .filling "right" "variable_name" "$b" []]],
    .plain "expression_statement" "system($a);" [
      .plain "function_call_expression" "system($a)" [
        .filling "function" "name" "system" [],
        .filling "arguments" "arguments" "($a)" [
          .plain "argument" "$a" [.plain "variable_name" "$a" []]]]]]

theorem clean_of_sourceless_localCommand : Sourceless localCommand ∧
    (analyze localCommand).memory.names.map (·.1) = ["$a"] ∧
    (∀ p ∈ (analyze localCommand).memory.names, ((analyze localCommand).memory.trace p.2).tainted = false ∧
      ((analyze localCommand).memory.trace p.2).upload = false) ∧
    ∀ f ∈ (analyze localCommand).memory.findings, f.rule.id ∈ hunchIds :=
  have h : Sourceless localCommand := by decide +kernel
  ⟨h, by decide +kernel, clean_of_sourceless localCommand h⟩

/-! ### Traced values -/

/-- What the program can give as a source: a request array that it names, an entry or a call that it
holds, or the body of the request. -/
def IsOrigin (t : Tree Part) (s : String) : Prop :=
  s = "php://input" ∨ ∃ n ∈ t.preorder, n.text = s ∧
    (n.kind = "variable_name" ∧ s ∈ superglobals ∨ n.kind = "subscript_expression" ∨
      n.kind = "function_call_expression" ∨ n.kind = "member_call_expression")

/-- A value from a request has a source, and its sources are those of the program, each once. -/
structure Trace.Traced (t : Tree Part) (k : Trace) : Prop where
  known : k.tainted = true → k.sources ≠ []
  nodup : k.sources.Nodup
  origin : ∀ s ∈ k.sources, IsOrigin t s

variable {t : Tree Part}

theorem Trace.Traced.merge {a b : Trace} (ha : a.Traced t) (hb : b.Traced t) : (a.merge b).Traced t := by
  have hlimit : (0 : Int) ≤ maxItems := by decide
  refine ⟨fun h => ?_, nodup_mergeLimited hlimit ha.nodup b.sources, fun s hs => ?_⟩
  · rcases (Bool.or_eq_true _ _).mp h with h | h
    · exact mergeLimited_ne_nil (by decide) (Or.inl (ha.known h))
    · exact mergeLimited_ne_nil (by decide) (Or.inr (hb.known h))
  · exact (mem_of_mem_mergeLimited hlimit hs).elim (ha.origin s) (hb.origin s)

theorem Trace.Traced.single {k : Trace} {s : String} (hs : k.sources = [s]) (ho : IsOrigin t s) : k.Traced t where
  known := fun _ => by rw [hs]; exact List.cons_ne_nil s []
  nodup := by simp [hs]
  origin := fun x hx => by
    rw [hs] at hx
    exact List.mem_singleton.mp hx ▸ ho

theorem kind_of_isInputCall {n : Tree Part} (h : isInputCall n = true) :
    n.kind = "function_call_expression" ∨ n.kind = "member_call_expression" :=
  (isInputCall_iff.mp h).imp And.left And.left

theorem traced_vouched (t : Tree Part) : Vouched (· ∈ t.preorder) (Trace.Traced t) where
  plain := fun k ht _ hs =>
    { known := fun h => absurd (ht.symm.trans h) Bool.false_ne_true
      nodup := by rw [hs]; exact List.nodup_nil
      origin := fun s h => by rw [hs] at h; exact absurd h List.not_mem_nil }
  merge := Trace.Traced.merge
  alter := fun {a b} ha ht hs _ =>
    { known := fun h => by rw [hs]; exact ha.known (ht.symm.trans h)
      nodup := by rw [hs]; exact ha.nodup
      origin := by rw [hs]; exact ha.origin }
  array := fun {n} hn hk hs =>
    .single rfl (Or.inr ⟨n, hn, rfl, Or.inl ⟨hk, List.contains_iff_mem.mp hs⟩⟩)
  entry := fun {n _} hn hk _ hs => .single hs (Or.inr ⟨n, hn, rfl, Or.inr (Or.inl hk)⟩)
  filePart := fun {n _ _} hn hk _ _ hs => .single hs (Or.inr ⟨n, hn, rfl, Or.inr (Or.inl hk)⟩)
  call := fun {n _} hn hi _ hs => by
    rcases hs with hs | hs
    · exact .single hs (Or.inr ⟨n, hn, rfl, Or.inr (Or.inr (kind_of_isInputCall hi))⟩)
    · exact .single hs (Or.inl rfl)

/-! ### Traced memories -/

/-- All values are traced, and a finding that is more than a suspicion has a source. -/
structure Memory.Traced (t : Tree Part) (m : Memory) : Prop where
  values : ∀ v, (m.trace v).Traced t
  findings : ∀ f ∈ m.findings, f.rule.id ∉ hunchIds → (m.shown f).sources ≠ []

theorem traced_empty (t : Tree Part) (visited : Nat) : ({ Memory.empty with visited } : Memory).Traced t where
  values := fun v => by
    have hnothing : ({ Memory.empty with visited } : Memory).trace v = {} := by
      simp [Memory.trace, Memory.empty]
    rw [hnothing]
    exact (traced_vouched t).nothing
  findings := fun f hf => by simp [Memory.empty] at hf

theorem sources_push {m : Memory} {v : ValueId} (h : (m.trace v).sources ≠ []) (k : Trace) :
    (({ m with store := m.store.push k } : Memory).trace v).sources ≠ [] := by
  have hv : v < m.store.size := by
    by_contra hv
    exact h (by simp [Memory.trace, hv])
  rw [trace_push_lt k hv]
  exact h

theorem traced_invariant (t : Tree Part) : Invariant (· ∈ t.preorder) (Trace.Traced t) (Memory.Traced t) where
  good := fun hm v => hm.values v
  count := fun hm => ⟨hm.values, hm.findings⟩
  make := by
    intro m k hm hk
    refine ⟨fun v => ?_, fun f hf hid => sources_push (hm.findings f hf hid) k⟩
    rw [trace_push]
    split
    · exact hk
    · exact hm.values v
  extend := by
    intro m f v hm hf
    have hsources : ∀ w, (({ m with store := m.store.modify v f } : Memory).trace w).sources = (m.trace w).sources ∧
        (({ m with store := m.store.modify v f } : Memory).trace w).tainted = (m.trace w).tainted := by
      intro w
      rw [trace_modify]
      split
      · exact ⟨(hf _).sources, (hf _).tainted⟩
      · exact ⟨rfl, rfl⟩
    refine ⟨fun w => ⟨fun h => ?_, ?_, ?_⟩, fun g hg hid => ?_⟩
    · rw [(hsources w).1]
      exact (hm.values w).known ((hsources w).2.symm.trans h)
    · rw [(hsources w).1]
      exact (hm.values w).nodup
    · rw [(hsources w).1]
      exact (hm.values w).origin
    · rw [Memory.shown, (hsources g.value).1]
      exact hm.findings g hg hid
  rename := fun _ hm => ⟨hm.values, hm.findings⟩
  find := by
    intro m f hm hf
    refine ⟨hm.values, fun g hg hid => ?_⟩
    rcases Array.mem_push.mp hg with hg | rfl
    · exact hm.findings g hg hid
    · have htainted := hf.reason.resolve_left fun h => hid (id_mem_hunchIds h)
      exact (hm.values _).known htainted
  check := fun _ hm => ⟨hm.values, hm.findings⟩

/-- **Every taint can be traced.** Whatever is done with a node of the program takes a memory in which
all values are traced to one in which they are, also if it is stopped; and so does the analysis,
wherever its budget stops it. -/
theorem traced_throughout (t : Tree Part) :
    (∀ c ∈ (meaningOf t).preorder, ∀ m : Memory, m.Traced t →
      (c.eval m).2.Traced t ∧ (c.process m).2.Traced t ∧ (c.block m).2.Traced t ∧ (c.upload m).2.Traced t ∧
        (c.risky m).2.Traced t) ∧
    (∀ visited, ((meaningOf t).block { Memory.empty with visited }).2.Traced t) ∧
    (analyze t).memory.Traced t := by
  have hkeeps := meaningOf_keeps (traced_vouched t) (traced_invariant t) t fun _ hn => hn
  refine ⟨fun c hc m hm => ?_, fun visited => ?_, ?_⟩
  · obtain ⟨heval, hprocess, hblock, hupload, hrisky⟩ := hkeeps c hc
    exact ⟨(heval m hm).1, (hprocess m hm).1, (hblock m hm).1, (hupload m hm).1, (hrisky m hm).1⟩
  · exact ((hkeeps _ (mem_preorder_self _)).block _ (traced_empty t visited)).1
  · exact analyze_keeps (traced_vouched t) (traced_invariant t) (traced_empty t 0) t fun _ hn => hn

/-- `$x = $_GET['a'] . $_POST; echo $x;` -/
def echoedInput : Tree Part :=
  .plain "program" "" [
    .plain "expression_statement" "$x = $_GET['a'] . $_POST;" [
      .plain "assignment_expression" "$x = $_GET['a'] . $_POST" [
        .filling "left" "variable_name" "$x" [],
        .filling "right" "binary_expression" "$_GET['a'] . $_POST" [
          .plain "subscript_expression" "$_GET['a']" [
            .plain "variable_name" "$_GET" [],
            .plain "string" "'a'" [.plain "string_content" "a" []]],
          .plain "variable_name" "$_POST" []]]],
    .plain "echo_statement" "echo $x;" [.plain "variable_name" "$x" []]]

theorem traced_throughout_echoedInput :
    (analyze echoedInput).shown.map (fun s => (s.rule.id, s.sources)) =
      [("PHP_OUTPUT_TAINT", ["$_GET['a']", "$_POST"])] ∧
    (analyze echoedInput).memory.Traced echoedInput ∧
    ∀ visited, ((meaningOf echoedInput).block { Memory.empty with visited }).2.Traced echoedInput :=
  have h := traced_throughout echoedInput
  ⟨by decide +kernel, h.2.2, h.2.1⟩

end SourceAudit.Taint
