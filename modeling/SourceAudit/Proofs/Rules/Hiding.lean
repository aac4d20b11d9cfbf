/-
# What a rule does not find

A rule without the full file leaves out the places outside the code and those in the
contexts that it names (`Ignored`). It finds all matches of its pattern first and leaves
out those that start at such a place afterwards (`hitsOrNone_eq_filter`). Every place at
which the pattern matches is met by a match, but the match that meets it need not start
there: a comment in front of the code can hide the code.
-/
import SourceAudit.Proofs.Pattern.Spans
import SourceAudit.Proofs.Php.Stretches
import SourceAudit.Proofs.Scan.Tree

namespace SourceAudit

def Hit.Reaches (h : Hit) (q : Nat) : Prop :=
  h.start = q ∨ h.start < q ∧ q < h.start + h.text.length

namespace Rule

variable {r : Rule} {pattern : Pattern} {names : List Value} {file content : String} {q : Nat}

/-- The values that name the contexts a rule leaves out; there are none in a field that counts as nothing. -/
def namesLeftOut (r : Rule) : Except Fault (List Value) :=
  if r.skipContexts.truthy then leftOut r.skipContexts else .ok []

/-- The place lies outside the code, or in a context of one of these names. -/
def Ignored (names : List Value) (content : List Char) (q : Nat) : Prop :=
  ¬Php.InCode content q ∨
    ∃ x ∈ Php.contextSpans content, x.covers q = true ∧ ∃ n ∈ names, n.same (.str x.context.name) = true

instance (names : List Value) (content : List Char) (q : Nat) : Decidable (Ignored names content q) :=
  inferInstanceAs (Decidable (_ ∨ _))

/-- The question that a rule asks about a place, once its contexts are known. -/
def leavesOutAt (names : List Value) (spans : List Php.Span) (q : Nat) : Bool :=
  (spans.any fun s => s.covers q && s.context == .outside) ||
    spans.any fun s => s.covers q && names.any (·.same (.str s.context.name))

theorem skips_eq (hfull : r.fullFile = false) (hnames : r.namesLeftOut = .ok names) (spans : List Php.Span) (q : Nat) :
    skips r.fullFile r.skipContexts spans q = .ok (leavesOutAt names spans q) := by
  rw [skips, hfull, leavesOutAt]
  unfold namesLeftOut at hnames
  cases hout : spans.any fun s => s.covers q && s.context == .outside with
  | true => rfl
  | false =>
    by_cases htruthy : r.skipContexts.truthy = true
    · rw [if_pos htruthy] at hnames
      simp [htruthy, hnames]
    · rw [if_neg htruthy] at hnames
      simp [htruthy, ← Except.ok.inj hnames]

theorem leavesOutAt_iff {content : List Char} (hq : q < content.length) :
    leavesOutAt names (Php.contextSpans content) q = true ↔ Ignored names content q := by
  rw [leavesOutAt, Php.any_outside hq, Bool.or_eq_true, decide_eq_true_iff, List.any_eq_true, Ignored]
  simp only [Bool.and_eq_true, List.any_eq_true]

def hitOf (r : Rule) (file content : String) (m : Pattern.Match) : Hit where
  rule := r
  file := file
  line := Text.count '\n' (content.toList.take m.start) + 1
  start := m.start
  text := String.ofList (m.chars content.toList.toArray)

/-- The hits of a rule are its matches, less those that start at a place to be left out. -/
theorem hitsOrNone_eq_filter (hkind : r.kind.same (.str "REGEX") = true) (hfull : r.fullFile = false)
    (hpattern : r.compiled = .ok (some pattern)) (hnames : r.namesLeftOut = .ok names) (spans : List Php.Span) :
    r.hitsOrNone file content spans =
      ((pattern.findAll content.toList.toArray).filter fun m => !leavesOutAt names spans m.start).map
        (hitOf r file content) := by
  have hcounted : ((pattern.findAll content.toList.toArray).map fun m => m).filterM (fun m => do
        return !(← skips r.fullFile r.skipContexts spans m.start)) =
      .ok (((pattern.findAll content.toList.toArray).filter fun m => !leavesOutAt names spans m.start).map fun m => m) :=
    Scan.filterM_map_eq_ok fun m _ => by rw [skips_eq hfull hnames]; rfl
  rw [List.map_id', List.map_id'] at hcounted
  rw [hitsOrNone, hits, hkind, hpattern]
  dsimp only [Bool.not_true, Bool.false_eq_true, if_false]
  rw [patternHits, hcounted]
  rfl

theorem reaches_hitOf {m : Pattern.Match} (hstop : m.stop ≤ content.toList.length) :
    (hitOf r file content m).Reaches q ↔ m.Meets q := by
  have hlength : (hitOf r file content m).text.length = m.stop - m.start := by
    rw [hitOf, String.length_ofList, Pattern.Match.chars, Pattern.cut_eq, List.length_drop, List.length_take,
      Nat.min_eq_left hstop]
  rw [Hit.Reaches, Pattern.Match.Meets, hlength]
  dsimp only [hitOf]
  omega

/-- **A match that is left out can hide what it runs over, and nothing else can.** At a place that
counts, where the pattern of the rule matches, the rule has a hit, unless a match that starts earlier
at a place to be left out runs over it. -/
theorem found_iff_not_hidden (hkind : r.kind.same (.str "REGEX") = true) (hfull : r.fullFile = false)
    (hpattern : r.compiled = .ok (some pattern)) (hnames : r.namesLeftOut = .ok names)
    (hplace : ¬Ignored names content.toList q)
    (hmatch : (pattern.matchAt? content.toList.toArray q false).isSome = true) :
    (∃ h ∈ r.hitsOrNone file content (Php.contextSpans content.toList), h.Reaches q) ↔
      ¬∃ m ∈ pattern.findAll content.toList.toArray,
        m.start < q ∧ q < m.stop ∧ Ignored names content.toList m.start := by
  have hcode : Php.InCode content.toList q := not_not.mp (not_or.mp hplace).1
  have hq := hcode.lt_length
  have hinside : ∀ m ∈ pattern.findAll content.toList.toArray, m.stop ≤ content.toList.length :=
    fun m hm => (Pattern.bounds_of_mem_findAll hm).2
  have hkept : ∀ m : Pattern.Match, m.Meets q →
      ((!leavesOutAt names (Php.contextSpans content.toList) m.start) = true ↔ ¬Ignored names content.toList m.start) := by
    intro m hmeets
    have hlt : m.start < content.toList.length := by
      unfold Pattern.Match.Meets at hmeets
      omega
    rw [Bool.not_eq_true', ← Bool.not_eq_true, leavesOutAt_iff hlt]
  rw [hitsOrNone_eq_filter hkind hfull hpattern hnames]
  constructor
  · rintro ⟨h, hh, hreaches⟩ ⟨m', hm', hstart, hstop, hignored⟩
    obtain ⟨m, hmem, rfl⟩ := List.mem_map.mp hh
    obtain ⟨hm, hcounts⟩ := List.mem_filter.mp hmem
    have hmeets := (reaches_hitOf (hinside m hm)).mp hreaches
    have heq := Pattern.eq_of_meets hm hm' hmeets hstart hstop
    exact (hkept m hmeets).mp hcounts (heq ▸ hignored)
  · intro hnone
    obtain ⟨m, hm, hmeets⟩ := Pattern.exists_mem_findAll (Nat.le_of_lt hq) hmatch
    have hcounts : ¬Ignored names content.toList m.start := by
      rcases hmeets with heq | ⟨hstart, hstop⟩
      · rwa [heq]
      · exact fun hignored => hnone ⟨m, hm, hstart, hstop, hignored⟩
    exact ⟨hitOf r file content m, List.mem_map_of_mem (List.mem_filter.mpr ⟨hm, (hkept m hmeets).mpr hcounts⟩),
      (reaches_hitOf (hinside m hm)).mpr hmeets⟩

/-- A rule for a call and the rest of its line, which leaves out comments. -/
def callRule : Rule :=
  .ofValue (.object [("id", .str "A"), ("pattern", .str "eval.*"), ("skipContexts", .list [.str "comment"])])

def callExpression : Pattern.Regex :=
  .seq (.char (.oneOf [101])) (.seq (.char (.oneOf [118])) (.seq (.char (.oneOf [97])) (.seq (.char (.oneOf [108]))
    (.rep .greedy 0 none (.char .notNewline)))))

theorem compiled_callRule : callRule.compiled = .ok (some ⟨callExpression, []⟩) := by
  decide +kernel

/-- The comment ends with its line: the call on the next line is found. -/
theorem found_iff_not_hidden_nextLine :
    ∃ h ∈ callRule.hitsOrNone "a.php" "<?php /*eval*/\neval($x);"
      (Php.contextSpans "<?php /*eval*/\neval($x);".toList), h.Reaches 15 := by
  refine (found_iff_not_hidden rfl rfl compiled_callRule rfl (by decide +kernel) (by decide +kernel)).mpr ?_
  decide +kernel

/-- The match that starts in the comment runs over the call and is left out, and the rule finds
nothing. -/
theorem comment_hides_call :
    callRule.kind.same (.str "REGEX") = true ∧ callRule.fullFile = false ∧
    callRule.compiled = .ok (some ⟨callExpression, []⟩) ∧ callRule.namesLeftOut = .ok [.str "comment"] ∧
    ¬Ignored [.str "comment"] "<?php /*eval*/eval($x);".toList 14 ∧
    (Pattern.matchAt? ⟨callExpression, []⟩ "<?php /*eval*/eval($x);".toList.toArray 14 false).isSome = true ∧
    callRule.hitsOrNone "a.php" "<?php /*eval*/eval($x);" (Php.contextSpans "<?php /*eval*/eval($x);".toList) = [] := by
  refine ⟨rfl, rfl, compiled_callRule, rfl, by decide +kernel, by decide +kernel, ?_⟩
  rw [hitsOrNone_eq_filter rfl rfl compiled_callRule rfl]
  decide +kernel

end Rule

end SourceAudit
