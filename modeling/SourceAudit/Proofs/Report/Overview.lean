/-
# The counts of an overview

The findings of a report are counted by the texts of their severities, and the
overview adds up the counts of the texts that name a class. What is counted under the
texts with a property is the number of findings with such a severity
(`counted_severityCounts`), and the texts that name a class are those that fall into
it (`contains_names_iff`). So the numbers of the overview are the numbers of findings
of the classes (`overview_counts`).
-/
import SourceAudit.Proofs.Outcome
import SourceAudit.Report.Document

namespace SourceAudit.Report

/-- What is counted under the severities with a property. -/
def counted (p : String → Bool) (counts : List (String × Nat)) : Nat :=
  counts.foldr (fun c n => (if p c.1 then c.2 else 0) + n) 0

theorem counted_cons (p : String → Bool) (c : String × Nat) (counts : List (String × Nat)) :
    counted p (c :: counts) = (if p c.1 then c.2 else 0) + counted p counts := rfl

/-- **One more.** It counts under the properties of its severity, whether this is new or not. -/
theorem counted_countOne (p : String → Bool) (severity : String) (counts : List (String × Nat)) :
    counted p (countOne severity counts) = counted p counts + if p severity then 1 else 0 := by
  induction counts with
  | nil => simp [countOne, counted]
  | cons c counts ih =>
    obtain ⟨s, n⟩ := c
    rw [countOne]
    by_cases hsame : s = severity
    · subst hsame
      rw [if_pos (beq_self_eq_true s), counted_cons, counted_cons]
      split_ifs <;> omega
    · rw [if_neg (by simpa using hsame), counted_cons, counted_cons, ih]
      omega

theorem counted_severityCounts (p : String → Bool) (severities : List String) :
    counted p (severityCounts severities) = severities.countP p := by
  have hfold : ∀ (ss : List String) (counts : List (String × Nat)),
      counted p (ss.foldl (fun counts s => countOne s counts) counts) = counted p counts + ss.countP p := by
    intro ss
    induction ss with
    | nil => exact fun _ => rfl
    | cons s ss ih =>
      intro counts
      rw [List.foldl_cons, ih, counted_countOne, List.countP_cons]
      omega
  rw [severityCounts, hfold]
  exact Nat.zero_add _

theorem countNamed_countFields (names : List String) (counts : List (String × Nat)) :
    countNamed names (countFields counts) = .ok (counted (fun s => names.contains (Text.lower s)) counts : Int) := by
  induction counts with
  | nil => rfl
  | cons c counts ih =>
    obtain ⟨s, n⟩ := c
    have hread : ((Value.int n).orElse (.int 0)).toInt = .ok (n : Int) := by
      by_cases hn : n = 0
      · subst hn
        rfl
      · have htruthy : (Value.int n).truthy = true := by simpa [Value.truthy] using hn
        rw [Value.orElse, if_pos htruthy]
        rfl
    have hcons : countFields ((s, n) :: counts) = (s, .int n) :: countFields counts := rfl
    rw [hcons, countNamed, counted_cons]
    dsimp only
    split_ifs with hnamed
    · rw [hread, ih]
      rfl
    · rw [ih, Nat.zero_add]

/-- A text in small letters names a class just if the severity falls into it. -/
theorem contains_names_iff {k : Risk} (hk : k ≠ .info) (severity : String) :
    k.names.contains (Text.lower severity) = true ↔ Risk.ofSeverity severity = k := by
  unfold Risk.ofSeverity
  generalize Text.lower severity = t
  constructor
  · intro h
    have hmem : t ∈ k.names := by simpa using h
    cases k <;> simp only [Risk.names, List.mem_cons, List.not_mem_nil, or_false] at hmem <;>
      rcases hmem with rfl | rfl | rfl <;> decide
  · intro h
    cases hfind : [Risk.critical, .high, .medium, .low].find? fun r => r.names.contains t with
    | none =>
      rw [hfind] at h
      exact absurd h.symm hk
    | some r =>
      rw [hfind] at h
      have hnamed : r.names.contains t = true := List.find?_some (p := fun r : Risk => r.names.contains t) hfind
      exact (h : r = k) ▸ hnamed

/-- The class of a finding. -/
def riskOf (f : Finding) : Risk := Risk.ofSeverity (f.text "severity" "未知")

theorem counts_objects (r : Report) (fs : List Finding) :
    { r with findings := fs.map Value.object }.counts =
      .ok (severityCounts (fs.map fun f => f.text "severity" "未知")) := by
  have hread : (fs.map Value.object).mapM (fun v => return (← Finding.ofValue v).text "severity" "未知") =
      Except.ok (fs.map fun f => f.text "severity" "未知") := by
    rw [List.mapM_map]
    exact mapM_eq_ok fun f _ => rfl
  rw [counts, hread]
  rfl

/-- The number of findings of a class. -/
def countOf (fs : List Finding) (k : Risk) : Nat := fs.countP fun f => riskOf f = k

/-- What the overview adds up for a class is the number of its findings. -/
theorem countNamed_findings {k : Risk} (hk : k ≠ .info) (fs : List Finding) :
    countNamed k.names (countFields (severityCounts (fs.map fun f => f.text "severity" "未知"))) =
      .ok (countOf fs k : Int) := by
  rw [countNamed_countFields, counted_severityCounts, List.countP_map]
  refine congrArg (fun n : Nat => Except.ok (n : Int)) (List.countP_congr fun f _ => ?_)
  rw [decide_eq_true_iff]
  exact contains_names_iff hk _

/-- A finding is of one class only. -/
theorem countOf_classes_le (fs : List Finding) :
    countOf fs .critical + countOf fs .high + countOf fs .medium + countOf fs .low ≤ fs.length := by
  unfold countOf
  induction fs with
  | nil => simp
  | cons f fs ih =>
    simp only [List.countP_cons, List.length_cons]
    cases riskOf f <;> simp <;> omega

/-- **The overview counts the findings by their classes.** -/
theorem overview_counts (r : Report) (fs : List Finding) :
    let r := { r with findings := fs.map Value.object }
    ∃ counts : List (String × Nat),
      r.summary = .ok (.object [("total", .int fs.length), ("severityCount", .object (countFields counts))]) ∧
      counts.foldr (fun c n => c.2 + n) 0 = fs.length ∧
      r.overview = .ok
        s!"共发现{fs.length}个安全缺陷，其中严重漏洞{countOf fs .critical}个、高危{countOf fs .high}个、中危{countOf fs .medium}个、低危{countOf fs .low}个。" ∧
      countOf fs .critical + countOf fs .high + countOf fs .medium + countOf fs .low ≤ fs.length := by
  intro r
  have hlength : r.findings.length = fs.length := List.length_map _
  have hcounts : r.counts = _ := counts_objects _ fs
  refine ⟨severityCounts (fs.map fun f => f.text "severity" "未知"), ?_, ?_, ?_, countOf_classes_le fs⟩
  · rw [summary, hcounts, hlength]
    rfl
  · have htotal := counted_severityCounts (fun _ => true) (fs.map fun f => f.text "severity" "未知")
    simpa [counted] using htotal
  · have hnamed (k : Risk) (hk : k ≠ .info) := countNamed_findings hk fs
    rw [overview, hcounts, hlength]
    show overviewText fs.length _ = _
    rw [overviewText, hnamed .critical (by decide), hnamed .high (by decide), hnamed .medium (by decide),
      hnamed .low (by decide)]
    rfl

end SourceAudit.Report
