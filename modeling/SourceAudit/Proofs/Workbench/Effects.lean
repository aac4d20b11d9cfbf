/-
# What work does to the workbench

Work can stop at a fault, and what was done before stays done. Work leaves a part of the
workbench alone if that part is the same however the work ends (`Leaves`); this goes
through steps, choices and handled faults. Where the work changes what is of interest,
the run is followed step by step (`run_bind_ok`).
-/
import Mathlib.Tactic.Common
import SourceAudit.Workbench.Export
import SourceAudit.Workbench.Findings

namespace SourceAudit.Workbench

variable {α β γ : Type}

/-! ### Steps -/

section

variable {x : Work α} {w w' : Workbench}

theorem run_bind_ok {f : α → Work β} {a : α} (h : x.run w = (.ok a, w')) : (x >>= f).run w = (f a).run w' := by
  show (ExceptT.bindCont f (x.run w).1).run (x.run w).2 = _
  rw [h]
  rfl

theorem run_bind_error {f : α → Work β} {e : Fault} (h : x.run w = (.error e, w')) :
    (x >>= f).run w = (.error e, w') := by
  show (ExceptT.bindCont f (x.run w).1).run (x.run w).2 = _
  rw [h]
  rfl

theorem run_tryCatch_ok {handler : Fault → Work α} {a : α} (h : x.run w = (.ok a, w')) :
    (tryCatch x handler).run w = (.ok a, w') := by
  have h : x w = (.ok a, w') := h
  show ExceptT.tryCatch x handler w = _
  simp only [ExceptT.tryCatch, ExceptT.mk, bind, StateT.bind, h]
  rfl

theorem run_tryCatch_error {handler : Fault → Work α} {e : Fault} (h : x.run w = (.error e, w')) :
    (tryCatch x handler).run w = (handler e).run w' := by
  have h : x w = (.error e, w') := h
  show ExceptT.tryCatch x handler w = _
  simp only [ExceptT.tryCatch, ExceptT.mk, bind, StateT.bind, h]
  rfl

end

theorem run_get (w : Workbench) : (get : Work Workbench).run w = (.ok w, w) := rfl

theorem run_modify (f : Workbench → Workbench) (w : Workbench) : (modify f : Work PUnit).run w = (.ok ⟨⟩, f w) := rfl

/-! ### Parts that stay -/

/-- The workbench after some work, whether it came to its end or stopped at a fault. -/
def after (work : Work α) (w : Workbench) : Workbench :=
  (work.run w).2

theorem after_eq {work : Work α} {w w' : Workbench} {r : Except Fault α} (h : work.run w = (r, w')) :
    after work w = w' :=
  congrArg Prod.snd h

theorem run_tell (n : Notice) (w : Workbench) :
    (tell n).run w = (.ok (), { w with log := (after (tell n) w).log }) := rfl

theorem run_setStatus (message : String) (w : Workbench) :
    (setStatus message).run w = (.ok (), { w with status := message, log := (after (setStatus message) w).log }) := by
  unfold after setStatus
  rw [run_bind_ok (run_get w)]
  split_ifs with h
  · rfl
  · have hsame : message = w.status := by simpa using h
    rw [hsame]
    rfl

theorem run_setScanning (value : Bool) (w : Workbench) :
    (setScanning value).run w = (.ok (), { w with scanning := value, log := (after (setScanning value) w).log }) := by
  unfold after setScanning
  rw [run_bind_ok (run_get w)]
  split_ifs with h
  · rfl
  · have hsame : value = w.scanning := by simpa using h
    rw [hsame]
    rfl

/-- The work leaves what `view` shows of the workbench as it is. -/
def Leaves (view : Workbench → γ) (work : Work α) : Prop :=
  ∀ w, view (after work w) = view w

namespace Leaves

variable {view : Workbench → γ} {x : Work α}

theorem pure (a : α) : Leaves view (pure a) := fun _ => rfl

theorem throw (e : Fault) : Leaves view (throw e : Work α) := fun _ => rfl

theorem get : Leaves view (get : Work Workbench) := fun _ => rfl

theorem modify {f : Workbench → Workbench} (h : ∀ w, view (f w) = view w) : Leaves view (modify f : Work PUnit) := h

theorem check (r : Except Fault α) : Leaves view (check r) := by
  cases r with
  | ok a => exact pure a
  | error e => exact throw e

theorem bind {f : α → Work β} (hx : Leaves view x) (hf : ∀ a, Leaves view (f a)) : Leaves view (x >>= f) := by
  intro w
  have hw := hx w
  rcases hrun : x.run w with ⟨r, w'⟩
  rw [after_eq hrun] at hw
  cases r with
  | ok a => rw [after, run_bind_ok hrun, ← after, hf a w', hw]
  | error e => rw [after_eq (run_bind_error hrun), hw]

theorem ite {c : Prop} [Decidable c] {y : Work α} (hx : Leaves view x) (hy : Leaves view y) :
    Leaves view (if c then x else y) := by
  split_ifs
  · exact hx
  · exact hy

theorem tryCatch {handler : Fault → Work α} (hx : Leaves view x) (hhandler : ∀ e, Leaves view (handler e)) :
    Leaves view (tryCatch x handler) := by
  intro w
  have hw := hx w
  rcases hrun : x.run w with ⟨r, w'⟩
  rw [after_eq hrun] at hw
  cases r with
  | ok a => rw [after_eq (run_tryCatch_ok hrun), hw]
  | error e => rw [after, run_tryCatch_error hrun, ← after, hhandler e w', hw]

end Leaves

/-! ### The findings stay -/

/-- The findings, and whether a scan or a review goes on. -/
def held (w : Workbench) : List Value × Bool := (w.findings, w.scanning)

/-- What a view shows does not depend on the settings, the listed files, the status and the log. -/
def Aside (view : Workbench → γ) : Prop :=
  ∀ w settings files status log, view { w with settings, files, status, log } = view w

section

variable {view : Workbench → γ} (h : Aside view)

include h

theorem leaves_tell (n : Notice) : Leaves view (tell n) := .modify fun w => h w w.settings w.files w.status _

theorem leaves_setStatus (message : String) : Leaves view (setStatus message) := by
  refine .bind .get fun _ => .ite (.bind (.modify fun w => ?_) fun _ => leaves_tell h .status) (.pure ())
  exact h w w.settings w.files message w.log

theorem leaves_dropOldAnalyses (now : Double) : Leaves view (dropOldAnalyses now) :=
  .bind .get fun _ => .bind (.check _) fun settings => .modify fun w => h w settings w.files w.status w.log

theorem leaves_listing (now : Double) (files : Except Fault (List SourceFile)) (message : String) :
    Leaves view (do
      dropOldAnalyses now
      let files ← check files
      modify fun w => { w with files }
      tell .project
      tell .files
      setStatus message) := by
  refine .bind (leaves_dropOldAnalyses h now) fun _ => .bind (.check _) fun files => ?_
  refine .bind (.modify fun w => h w w.settings files w.status w.log) fun _ => ?_
  exact .bind (leaves_tell h .project) fun _ => .bind (leaves_tell h .files) fun _ => leaves_setStatus h _

theorem leaves_openProject (hproject : ∀ w project, view { w with project } = view w) (now : Double)
    (address : String) : Leaves view (openProject now address) := by
  unfold openProject
  refine .bind .get fun w => ?_
  dsimp only
  split_ifs
  · exact leaves_setStatus h _
  · exact .bind (.modify fun w => hproject w _) fun _ => leaves_listing h now _ _

end

theorem aside_held : Aside held := fun _ _ _ _ _ => rfl

theorem leaves_makeDir (p : Path) : Leaves held (makeDir p) := by
  refine .bind .get fun w => .bind (.modify fun _ => rfl) fun _ => ?_
  exact .bind (.check _) fun _ => .modify fun _ => rfl

theorem leaves_writeFile (p : Path) (content : String) : Leaves held (writeFile p content) := by
  refine .bind (leaves_makeDir _) fun _ => .bind .get fun w => ?_
  exact .bind (.check _) fun _ => .modify fun _ => rfl

theorem leaves_print (now : Double) (target : Path) : Leaves held (print now target) := by
  refine .bind (.modify fun _ => rfl) fun _ => .bind .get fun w => ?_
  refine .bind (.check _) fun _ => .bind (.check _) fun _ => ?_
  exact .bind (.modify fun _ => rfl) fun _ => .bind (.modify fun _ => rfl) fun _ => .check _

theorem leaves_writeReport (now : Double) (f : Report.Format) (target : Path) :
    Leaves held (writeReport now f target) := by
  refine .bind (leaves_makeDir _) fun _ => ?_
  cases f with
  | pdf => exact leaves_print now target
  | _ => exact .bind .get fun _ => .bind (.check _) fun _ => leaves_writeFile target _

theorem leaves_orShow (words : String) {work : Work Unit} (h : Leaves held work) : Leaves held (orShow words work) :=
  .tryCatch (.bind h fun _ => .pure true) fun e =>
    .ite (.bind (leaves_setStatus aside_held _) fun _ => .pure false) (.throw e)

theorem leaves_exportReport (now : Double) (format address : String) :
    Leaves held (exportReport now format address) := by
  unfold exportReport
  dsimp only
  refine .ite (.bind (leaves_setStatus aside_held _) fun _ => .pure false) ?_
  refine .bind .get fun w => .bind (.check _) fun target => ?_
  exact leaves_orShow _ (.bind (leaves_writeReport now _ target) fun _ => leaves_setStatus aside_held _)

/-! ### The run of a scan -/

/-- What a scan finds: the rows of the project with the analyses that were kept for them, none if
it is given up. -/
def scanFindings (grammar : Grammar) (w : Workbench) : List Value :=
  match Scan.scanProject w.disk grammar w.dependencies w.project with
  | .ok rows => (Review.Cache.restore w.settings (Review.projectKey w.disk.cwd w.project) rows).1
  | .error _ => []

theorem run_finishScan (findings : List Value) (message : String) (w : Workbench) :
    (finishScan findings message).run w = (.ok (), { w with
      findings := (Review.Cache.restore w.settings (Review.projectKey w.disk.cwd w.project) findings).1
      status := message, scanning := false, log := (after (finishScan findings message) w).log }) := by
  unfold after finishScan
  rw [run_bind_ok (run_get w)]
  dsimp only
  rw [run_bind_ok (run_modify _ _)]
  split_ifs
  · rw [run_bind_ok (run_setStatus _ _), run_bind_ok (run_tell _ _), run_bind_ok (run_setStatus _ _), run_setScanning]
  · rw [run_bind_ok (run_tell _ _), run_bind_ok (run_setStatus _ _), run_setScanning]

theorem run_failScan (message : String) (w : Workbench) :
    (failScan message).run w = (.ok (), { w with
      status := "扫描失败: " ++ message, scanning := false, log := (after (failScan message) w).log }) := by
  rw [after, failScan, run_bind_ok (run_setStatus _ _), run_setScanning]

/-- **A scan** takes the findings of the open project for those that were there, and ends. -/
theorem run_startScan (grammar : Grammar) {w : Workbench} (h : w.scanning = false) :
    ∃ status log, (startScan grammar).run w =
      (.ok (), { w with findings := scanFindings grammar w, status, log }) := by
  unfold startScan scanFindings
  rw [run_bind_ok (run_get w), h, if_neg Bool.false_ne_true, run_bind_ok (run_setScanning _ _),
    run_bind_ok (run_setStatus _ _), run_bind_ok (run_modify _ _), run_bind_ok (run_tell _ _),
    run_bind_ok (run_tell _ _), run_bind_ok (run_get _)]
  dsimp only
  cases Scan.scanProject w.disk grammar w.dependencies w.project with
  | ok rows =>
    rw [run_bind_ok (run_tell _ _), run_bind_ok (run_finishScan _ _ _), run_tell]
    exact ⟨_, _, rfl⟩
  | error e =>
    rw [run_bind_ok (run_tell _ _), run_bind_ok (run_failScan _ _), run_tell]
    exact ⟨_, _, rfl⟩

/-! ### The run of a review -/

theorem withAnswers_nil (findings : List Value) : withAnswers [] findings = findings := by
  calc withAnswers [] findings = (findings.zipIdx 1).map Prod.fst := by
        refine List.map_congr_left ?_
        rintro ⟨v, n⟩ _
        cases v <;> rfl
    _ = findings := List.zipIdx_map_fst ..

/-- What a review leaves behind: answers may have come to the findings, and the analyses may have
been kept for the open project. -/
structure Reviewed (now : Double) (w w' : Workbench) : Prop where
  project : w'.project = w.project
  idle : w'.scanning = false
  findings : ∃ answers, w'.findings = withAnswers answers w.findings
  settings : w'.settings = w.settings ∨
    w'.settings = Review.Cache.save w.settings w.disk.cwd w.project now w'.findings

theorem run_finishReview (now : Double) (service : Review.Service) (w : Workbench) :
    ∃ settings status log, (finishReview now service).run w =
        (.ok (), { w with findings := withAnswers service.answers w.findings, settings, status, log }) ∧
      (settings = w.settings ∨ settings =
        Review.Cache.save w.settings w.disk.cwd w.project now (withAnswers service.answers w.findings)) := by
  unfold finishReview
  rw [run_bind_ok (run_modify _ _), run_bind_ok (run_tell _ _)]
  split_ifs
  · rw [run_bind_ok (run_modify _ _), run_setStatus]
    exact ⟨_, _, _, rfl, .inr rfl⟩
  · rw [run_setStatus]
    exact ⟨_, _, _, rfl, .inl rfl⟩
  · rw [run_setStatus]
    exact ⟨_, _, _, rfl, .inl rfl⟩

def prepared (s : Surroundings) (w : Workbench) : Review.Service × Except Fault (List Review.Request) :=
  w.service.prepare s.network (Review.promptTemplate w.disk w.appRoot)
    (fun t n f => orNothing ((w.report s.now).prompt t n f)) w.findings

theorem run_startReview_of_refusal (s : Surroundings) {w : Workbench} (h : w.scanning = false) {message : String}
    (hrefusal : w.reviewRefusal? = some message) :
    ∃ log, (startReview s).run w = (.ok (), { w with status := message, log }) := by
  unfold startReview
  rw [run_bind_ok (run_get w), if_neg (by simp [h]), hrefusal, run_setStatus]
  exact ⟨_, rfl⟩

theorem exists_begun (s : Surroundings) {w : Workbench} (h : w.scanning = false) (hrefusal : w.reviewRefusal? = none) :
    ∃ log, (startReview s).run w = (match (prepared s w).2 with
      | .error e => do setScanning false; throw e
      | .ok requests => do
        modify fun w => { w with log.requests := requests.reverse ++ w.log.requests }
        finishReview s.now (prepared s w).1
        setScanning false : Work Unit).run
      { w with scanning := true, status := "正在进行 AI 分析...", service := (prepared s w).1, log } := by
  unfold startReview
  rw [run_bind_ok (run_get w), h, if_neg Bool.false_ne_true, hrefusal]
  dsimp only
  rw [run_bind_ok (run_setScanning _ _), run_bind_ok (run_setStatus _ _), run_bind_ok (run_modify _ _)]
  exact ⟨_, rfl⟩

theorem run_startReview (s : Surroundings) {w : Workbench} (h : w.scanning = false)
    (hrefusal : w.reviewRefusal? = none) {service : Review.Service} {requests : List Review.Request}
    (hprepared : prepared s w = (service, .ok requests)) :
    ∃ settings status log, (startReview s).run w = (.ok (), { w with
        findings := withAnswers service.answers w.findings, service, settings, status, scanning := false, log }) ∧
      (settings = w.settings ∨ settings =
        Review.Cache.save w.settings w.disk.cwd w.project s.now (withAnswers service.answers w.findings)) := by
  obtain ⟨log, hbegun⟩ := exists_begun s h hrefusal
  obtain ⟨settings, status, log', hfinish, hsettings⟩ := run_finishReview s.now service { w with
    scanning := true, status := "正在进行 AI 分析...", service
    log := { log with requests := requests.reverse ++ log.requests } }
  rw [hbegun, hprepared]
  dsimp only
  rw [run_bind_ok (run_modify _ _), run_bind_ok hfinish, run_setScanning]
  exact ⟨settings, status, _, rfl, hsettings⟩

/-- **A review** keeps the project, ends, and changes findings only by answers. -/
theorem reviewed_startReview (s : Surroundings) {w : Workbench} (h : w.scanning = false) :
    Reviewed s.now w (after (startReview s) w) := by
  have hnone : ∃ answers, w.findings = withAnswers answers w.findings := ⟨[], (withAnswers_nil w.findings).symm⟩
  cases hrefusal : w.reviewRefusal? with
  | some message =>
    obtain ⟨log, hrun⟩ := run_startReview_of_refusal s h hrefusal
    rw [after_eq hrun]
    exact ⟨rfl, h, hnone, .inl rfl⟩
  | none =>
    rcases hprepared : prepared s w with ⟨service, e | requests⟩
    · obtain ⟨log, hbegun⟩ := exists_begun s h hrefusal
      rw [after, hbegun, hprepared]
      dsimp only
      rw [run_bind_ok (run_setScanning _ _)]
      exact ⟨rfl, rfl, hnone, .inl rfl⟩
    · obtain ⟨settings, status, log, hrun, hsettings⟩ := run_startReview s h hrefusal hprepared
      rw [after_eq hrun]
      exact ⟨rfl, rfl, ⟨service.answers, rfl⟩, hsettings⟩

end SourceAudit.Workbench
