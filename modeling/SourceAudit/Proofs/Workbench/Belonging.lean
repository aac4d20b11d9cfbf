/-
# Where findings come from

A scan looks only at what lies below the project, so each of its findings has a path
below it (`belongs_scanProject`). Analyses and answers do not touch the path. Only a
scan takes the old findings away: another project can be opened over them, and then they
stay.

A session is the workbench together with the project of the last scan, which the
workbench itself does not remember. One call keeps a sound session sound (`Sound.step`),
so any sequence of calls does (`Sound.run`).
-/
import SourceAudit.Proofs.Review.Cache
import SourceAudit.Proofs.Scan.Relocation
import SourceAudit.Proofs.Workbench.Effects

namespace SourceAudit

def placeOf? (finding : Value) : Option String :=
  match finding.field? "absolutePath" with
  | some (.str path) => some path
  | _ => none

def Belongs (project : String) (finding : Value) : Prop :=
  ∃ names, names ≠ [] ∧ placeOf? finding = some ((Path.ofString project).below names).toString

/-! ### Scans -/

namespace Scan

variable {d : Disk} {project : String}

theorem below_walk (d : Disk) (root : Path) :
    Yields (fun found => ∀ x ∈ found, ∃ names, names ≠ [] ∧ x.1 = root.below names) (d.walk root) := by
  refine .map fun e _ => ?_
  cases e with
  | none => simp
  | some e =>
    intro x hx
    obtain ⟨y, hy, rfl⟩ := List.mem_map.mp hx
    exact ⟨y.1, Entry.ne_nil_of_mem_contents hy, rfl⟩

theorem below_filesOf (d : Disk) (includeDependencies : Bool) (suffixes : List String) (root : Path) :
    Yields (fun files => ∀ f ∈ files, ∃ names, names ≠ [] ∧ f = root.below names)
      (filesOf d includeDependencies suffixes root) := by
  refine .bind (below_walk d root) fun found hfound => .bind (.filterM hfound) fun kept hkept => .pure ?_
  intro f hf
  obtain ⟨x, hx, rfl⟩ := List.mem_map.mp hf
  exact hkept x (List.mem_filter.mp hx).1

theorem belongs_rowOf {names : List String} (h : names ≠ []) (finding : Value) :
    Yields (Belongs project) (rowOf (.ofString project) ((Path.ofString project).below names) finding) := by
  intro row hrow
  unfold rowOf at hrow
  dsimp only at hrow
  split at hrow
  · cases hrow
  · rw [Path.relativeTo?_below] at hrow
    dsimp only at hrow
    split at hrow
    · cases hrow
    · exact Except.ok.inj hrow ▸ ⟨names, h, rfl⟩

theorem belongs_filesOf {includeDependencies : Bool} {suffixes : List String}
    {rowsIn : Path → Except Fault (List Value)}
    (h : ∀ names, names ≠ [] → Yields (fun rows => ∀ row ∈ rows, Belongs project row)
      (rowsIn ((Path.ofString project).below names))) :
    Yields (fun rows => ∀ row ∈ rows, Belongs project row) (do
      let files ← filesOf d includeDependencies suffixes (.ofString project)
      let rows ← files.mapM rowsIn
      return rows.flatten) := by
  refine .bind (below_filesOf d _ _ _) fun files hfiles => ?_
  have heach : ∀ f ∈ files, Yields (fun rows => ∀ row ∈ rows, Belongs project row) (rowsIn f) := by
    intro f hf
    obtain ⟨names, hempty, rfl⟩ := hfiles f hf
    exact h names hempty
  refine .bind (.mapM heach) fun lists hlists => .pure fun row hrow => ?_
  obtain ⟨rows, hrows, hmem⟩ := List.mem_flatten.mp hrow
  exact hlists rows hrows row hmem

theorem belongs_ruleRows (d : Disk) (includeDependencies : Bool) (project : String) :
    Yields (fun rows => ∀ row ∈ rows, Belongs project row) (ruleRows d includeDependencies (.ofString project)) :=
  belongs_filesOf fun _ hempty => .bind (.any _) fun _ _ =>
    .mapM fun h _ => belongs_rowOf hempty h.toValue

theorem belongs_scannerRows (d : Disk) (grammar : Grammar) (includeDependencies : Bool) (suffixes : List String)
    (project : String) :
    Yields (fun rows => ∀ row ∈ rows, Belongs project row)
      (scannerRows d grammar includeDependencies suffixes (.ofString project)) := by
  unfold scannerRows
  dsimp only
  split_ifs
  · exact .pure (by simp)
  · exact belongs_filesOf fun _ hempty => .mapM fun finding _ => belongs_rowOf hempty finding

theorem mem_keep {key : List Value} {row v : Value} : ∀ {kept : List (List Value × Value)},
    v ∈ (keep key row kept).map (·.2) → v = row ∨ v ∈ kept.map (·.2)
  | [], h => .inl (by simpa [keep] using h)
  | (k, old) :: kept, h => by
    rw [keep] at h
    split_ifs at h with hsame hgives
    · rcases List.mem_cons.mp h with rfl | h
      · exact .inl rfl
      · exact .inr (List.mem_cons_of_mem _ h)
    · exact .inr h
    · rcases List.mem_cons.mp h with rfl | h
      · exact .inr List.mem_cons_self
      · exact (mem_keep h).imp_right (List.mem_cons_of_mem _)

theorem mem_of_mem_dedupe {rows : List Value} {v : Value} (h : v ∈ dedupe rows) : v ∈ rows := by
  have hfold : ∀ (rows : List Value) (kept : List (List Value × Value)),
      v ∈ (rows.foldl (fun kept row => keep (fingerprint row) row kept) kept).map (·.2) →
        v ∈ rows ∨ v ∈ kept.map (·.2) := by
    intro rows
    induction rows with
    | nil => exact fun kept h => .inr h
    | cons row rows ih =>
      intro kept h
      rcases ih _ h with hrows | hkept
      · exact .inl (List.mem_cons_of_mem row hrows)
      · exact (mem_keep hkept).imp_left fun hrow : v = row => hrow ▸ List.mem_cons_self
  exact (hfold rows [] h).resolve_right (by simp)

/-- **Findings of a scan belong to the project.** -/
theorem belongs_scanProject (d : Disk) (grammar : Grammar) (includeDependencies : Bool) (project : String) :
    Yields (fun rows => ∀ row ∈ rows, Belongs project row) (scanProject d grammar includeDependencies project) := by
  unfold scanProject
  dsimp only
  split_ifs
  · exact .error _
  · refine .bind (belongs_ruleRows d includeDependencies project) fun found hfound => .pure ?_
    intro row hrow
    rcases List.mem_append.mp (mem_of_mem_dedupe hrow) with hrow | hrow
    · exact hfound row hrow
    · cases hscanner : scannerRows d grammar includeDependencies [".php"] (.ofString project) with
      | error e => simp [hscanner, orNothing] at hrow
      | ok rows =>
        rw [hscanner] at hrow
        exact belongs_scannerRows d grammar includeDependencies [".php"] project rows hscanner row hrow

end Scan

/-! ### Analyses do not move findings -/

theorem Belongs.of_placeOf?_eq {project : String} {f g : Value} (h : Belongs project g)
    (heq : placeOf? f = placeOf? g) : Belongs project f := by
  obtain ⟨names, hempty, hplace⟩ := h
  exact ⟨names, hempty, heq.trans hplace⟩

theorem placeOf?_setAnalysis (v : Value) (fields : Fields) :
    placeOf? (.object (Fields.set "aiAnalysis" v fields)) = placeOf? (.object fields) := by
  have hfield : (Value.object (Fields.set "aiAnalysis" v fields)).field? "absolutePath" =
      (Value.object fields).field? "absolutePath" := Fields.get?_set_of_ne (by decide) v fields
  rw [placeOf?, hfield, placeOf?]

theorem exists_of_mem_restore {s : Settings} {key : String} {rows : List Value} {f : Value}
    (h : f ∈ (Review.Cache.restore s key rows).1) : ∃ row ∈ rows, placeOf? f = placeOf? row := by
  obtain ⟨row, hrow, rfl⟩ := List.mem_map.mp h
  refine ⟨row, hrow, ?_⟩
  cases row with
  | object fields =>
    rw [Review.Cache.restoreOne?]
    dsimp only
    split_ifs
    · rfl
    · exact placeOf?_setAnalysis _ fields
    · rfl
  | _ => rfl

namespace Workbench

theorem exists_of_mem_withAnswers {answers : Review.Answers} {findings : List Value} {f : Value}
    (h : f ∈ withAnswers answers findings) : ∃ g ∈ findings, placeOf? f = placeOf? g := by
  obtain ⟨⟨g, n⟩, hg, rfl⟩ := List.mem_map.mp h
  refine ⟨g, List.fst_mem_of_mem_zipIdx hg, ?_⟩
  dsimp only
  split
  · exact placeOf?_setAnalysis _ _
  · rfl

theorem belongs_scanFindings (grammar : Grammar) (w : Workbench) :
    ∀ f ∈ scanFindings grammar w, Belongs w.project f := by
  unfold scanFindings
  cases hscan : Scan.scanProject w.disk grammar w.dependencies w.project with
  | error e => simp
  | ok rows =>
    intro f hf
    obtain ⟨row, hrow, hplace⟩ := exists_of_mem_restore hf
    exact (Scan.belongs_scanProject _ _ _ _ rows hscan row hrow).of_placeOf?_eq hplace

/-! ### Calls one after another -/

/-- What a user can ask for: another project, a scan, a review, and a report. -/
inductive Call where
  | openProject (now : Double) (address : String)
  | scan (grammar : Grammar)
  | review (s : Surroundings)
  | exportReport (now : Double) (format address : String)

def Call.perform (w : Workbench) : Call → Workbench
  | .openProject now address => after (Workbench.openProject now address) w
  | .scan grammar => after (startScan grammar) w
  | .review s => after (startReview s) w
  | .exportReport now format address => after (Workbench.exportReport now format address) w

/-- The workbench, and the project that was open at the last scan. -/
structure Session where
  bench : Workbench
  scanned : Option String

namespace Session

def step (x : Session) (c : Call) : Session where
  bench := c.perform x.bench
  scanned :=
    match c with
    | .scan _ => some x.bench.project
    | _ => x.scanned

def run (x : Session) (calls : List Call) : Session :=
  calls.foldl step x

theorem bench_step (x : Session) (c : Call) : (x.step c).bench = c.perform x.bench := rfl

end Session

/-- Nothing goes on, and every finding belongs to the project of the last scan. -/
structure Sound (x : Session) : Prop where
  idle : x.bench.scanning = false
  belong : ∀ f ∈ x.bench.findings, ∃ project, x.scanned = some project ∧ Belongs project f

namespace Sound

variable {x : Session}

theorem of_held_eq {y : Session} (h : Sound x) (hheld : held y.bench = held x.bench)
    (hscanned : y.scanned = x.scanned) : Sound y := by
  obtain ⟨hfindings, hscanning⟩ := Prod.mk.inj hheld
  refine ⟨hscanning.trans h.idle, ?_⟩
  rw [hfindings, hscanned]
  exact h.belong

/-- **One call.** -/
theorem step (h : Sound x) (c : Call) : Sound (x.step c) := by
  cases c with
  | openProject now address =>
    refine h.of_held_eq ?_ (by simp only [Session.step])
    rw [Session.bench_step, Call.perform, leaves_openProject aside_held (fun _ _ => rfl) now address x.bench]
  | exportReport now format address =>
    refine h.of_held_eq ?_ (by simp only [Session.step])
    rw [Session.bench_step, Call.perform, leaves_exportReport now format address x.bench]
  | scan grammar =>
    obtain ⟨status, log, hrun⟩ := run_startScan grammar h.idle
    have hbench : (x.step (.scan grammar)).bench =
        { x.bench with findings := scanFindings grammar x.bench, status, log } := by
      rw [Session.bench_step, Call.perform, after_eq hrun]
    refine ⟨by rw [hbench]; exact h.idle, ?_⟩
    rw [hbench]
    exact fun f hf => ⟨x.bench.project, rfl, belongs_scanFindings grammar x.bench f hf⟩
  | review s =>
    have hreviewed := reviewed_startReview s h.idle
    obtain ⟨answers, hanswers⟩ := hreviewed.findings
    refine ⟨hreviewed.idle, fun f hf => ?_⟩
    have hf : f ∈ withAnswers answers x.bench.findings := hanswers ▸ hf
    obtain ⟨g, hg, hplace⟩ := exists_of_mem_withAnswers hf
    obtain ⟨project, hscanned, hbelongs⟩ := h.belong g hg
    exact ⟨project, hscanned, hbelongs.of_placeOf?_eq hplace⟩

theorem run : ∀ {x : Session}, Sound x → ∀ calls : List Call, Sound (x.run calls)
  | _, h, [] => h
  | _, h, c :: calls => (h.step c).run calls

end Sound

def scanned : List Call := [.openProject (.finite 0) "p", .scan Scan.noGrammar]

/-- The project of the last scan, the open one, and where the findings are. -/
def Session.places (x : Session) : Option String × String × List (Option String) :=
  (x.scanned, x.bench.project, x.bench.findings.map placeOf?)

end Workbench

end SourceAudit
