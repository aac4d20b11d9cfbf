/-
# What a request can destroy

A request that fails leaves the rule files as they were, unless it moves a rule to
another language: the file with the rule is written first, without it, and if the other
file cannot be written then, the rule is gone (`Request.Strands`).

A file with a mistake in it counts as empty. A request that brings a rule into it writes
it anew, with that rule alone (`Request.target?`). The other requests find no rule in
it, and are refused.
-/
import SourceAudit.Proofs.Rules.Refinement

namespace SourceAudit.Rules

open RuleSet (fileEnd)

variable {d d' : Disk} {draft : Draft} {drafts : List Draft}

/-! ### Requests that fail -/

def Request.Done (r : Request) (e : Editor) : Prop :=
  ∃ status, (r.change e).1 = .ok (some status)

section

variable {r : Request} {e : Editor}

theorem change_cases : (r.Done e ∧ r.drafts e ≠ [] ∧ ∃ d, filed e.disk (r.drafts e) = .ok d) ∨
    (¬r.Done e ∧ (r.drafts e = [] ∨ ∃ d, filed e.disk (r.drafts e) = .error d)) := by
  have hchange := leads_change r e
  rw [drafts_eq]
  rcases hrun : r.change e with ⟨fault | status, e₁⟩ <;> rw [Leads, hrun] at hchange
  · refine Or.inr ⟨by simp [Request.Done, hrun], ?_⟩
    rcases hchange with ⟨⟨fault', hplan⟩, -⟩ | ⟨plan, hplan, hstops⟩ <;> rw [hplan]
    · exact Or.inl rfl
    · exact Or.inr ⟨_, hstops⟩
  · rcases hchange with ⟨rfl, hplan, -⟩ | ⟨plan, rfl, hplan, hfiled, -⟩ <;> rw [hplan]
    · exact Or.inr ⟨by simp [Request.Done, hrun], Or.inl rfl⟩
    · exact Or.inl ⟨⟨_, by rw [hrun]⟩, (writes_of_planned hplan).ne_nil, _, hfiled⟩

theorem spares_of_drafts_nil (h : r.drafts e = []) : e.disk.Spares (r.perform e).2.disk := by
  have hfiles := perform_files r e
  rw [h] at hfiles
  rcases hfiles with ⟨d, hd, hspares⟩ | hstops
  · rwa [← Except.ok.inj hd] at hspares
  · exact absurd hstops (by simp [filed])

theorem disk_of_stops (h : filed e.disk (r.drafts e) = .error d) : (r.perform e).2.disk = d := by
  rcases perform_files r e with ⟨d', hd', -⟩ | hstops
  · exact absurd (hd'.symm.trans h) (by simp)
  · exact Except.error.inj (hstops.symm.trans h)

end

def Parses (bs : List UInt8) : Prop :=
  ((Utf8.decode? bs).any fun s => (Json.read (Text.joinNewlines s)).isOk) = true

instance (bs : List UInt8) : Decidable (Parses bs) :=
  inferInstanceAs (Decidable (_ = true))

theorem entriesAt_of_not_parses {place : List String} {bs : List UInt8}
    (hfile : d.root.get? place = some (.file bs)) (h : ¬Parses bs) : entriesAt d place = [] := by
  rw [entriesAt, hfile]
  dsimp only
  unfold entriesOfBytes
  cases hs : Utf8.decode? bs with
  | none => rfl
  | some s =>
    dsimp only
    cases hv : Json.read (Text.joinNewlines s) with
    | error message => rfl
    | ok v => exact absurd (by simp [Parses, hs, hv, Except.isOk, Except.toBool]) h

theorem parses_fileText (language : String) {entries : List Value} (h : ∀ x ∈ entries, x.Legible) :
    Parses (Utf8.encode (Editor.fileText language entries)) := by
  obtain ⟨s, v, hs, hv, -⟩ := exists_document (rulesOfBytes?_fileText language h)
  simp [Parses, hs, hv, Except.isOk, Except.toBool]

/-- The file that a request brings a rule into, from a form or from another file. -/
def Request.target? (dir : Path) : Request → Option Path
  | .add language _ => some (dir.child (Editor.languageName language ++ fileEnd))
  | .update key language _ =>
    if dir.child (Editor.languageName language ++ fileEnd) = dir.child ((Editor.splitKey key).1 ++ fileEnd) then none
    else some (dir.child (Editor.languageName language ++ fileEnd))
  | _ => none

/-- What is to be written is made from entries that were read there. -/
def Draft.Found (e : Editor) (draft : Draft) : Prop :=
  ∃ language old, old ≠ [] ∧ draft.path = e.dir.child (language ++ fileEnd) ∧ entriesIn e.disk draft.path = .ok old

section

variable {e : Editor} {r : Request} {place : List String}

theorem Draft.Found.of_read {language : String} {old new : List Value}
    (hread : entriesIn e.disk (e.dir.child (language ++ fileEnd)) = .ok old) (hold : old ≠ []) :
    Draft.Found e ⟨e.dir.child (language ++ fileEnd), new⟩ :=
  ⟨language, old, hold, rfl, hread⟩

theorem Draft.Found.extends (h : draft.Found e)
    (hwritten : Editor.written d draft.path draft.entries = .ok d') : d.Extends d' := by
  obtain ⟨language, old, -, hpath, -⟩ := h
  rw [hpath] at hwritten
  obtain ⟨-, -, hgrown, -⟩ := written_file hwritten
  exact hgrown

/-- It does not go to a place where nothing could be read. -/
theorem Draft.Found.keeps (h : draft.Found e) (hgrown : e.disk.Extends d)
    (hempty : entriesAt e.disk place = []) (hwritten : Editor.written d draft.path draft.entries = .ok d')
    (bs : List UInt8) : d'.root.get? place = some (.file bs) ↔ d.root.get? place = some (.file bs) := by
  obtain ⟨language, old, hold, hpath, hread⟩ := h
  rw [hpath] at hread hwritten
  obtain ⟨written, name, hgrown', hlocated, -, hsame⟩ := written_file hwritten
  rcases entriesIn_cases hread with ⟨place₀, hplace₀, hentries⟩ | hnil
  · have hplace : written = place₀ := Except.ok.inj (hlocated.symm.trans (hgrown'.locate (hgrown.locate hplace₀)))
    have hne : place ≠ written := by
      intro heq
      rw [heq, hplace, ← hentries] at hempty
      exact hold hempty
    exact hsame place (by simpa using hne) bs
  · exact absurd hnil hold

/-- All is made from what was read, but for what is brought into the target. -/
inductive Sorted (e : Editor) : Option Path → List Draft → Prop
  | found {draft : Draft} (h : draft.Found e) : Sorted e none [draft]
  | brought {found : List Draft} {language : String} {new : List Value} (hfound : ∀ draft ∈ found, draft.Found e)
    (hnew : ∀ x ∈ new, x.Legible) :
    Sorted e (some (e.dir.child (language ++ fileEnd))) (found ++ [⟨e.dir.child (language ++ fileEnd), new⟩])

theorem Request.Writes.sorted (h : r.Writes e drafts) : Sorted e (r.target? e.dir) drafts := by
  have hlegible := h.legible
  cases h with
  | add hgranted => exact @Sorted.brought e [] _ _ (by simp) hgranted.legible
  | delete hread hsub hlength =>
    refine .found (.of_read hread ?_)
    rintro rfl
    exact hlength (congrArg List.length (List.sublist_nil.mp hsub))
  | enable _ hread => exact .found (.of_read hread (by simp))
  | stay hfile _ hread =>
    rw [Request.target?, if_pos hfile]
    exact .found (.of_read hread (by simp))
  | move hfile _ hold =>
    rw [List.forall_mem_cons, List.forall_mem_singleton] at hlegible
    rw [Request.target?, if_neg hfile]
    exact @Sorted.brought e [_] _ _ (List.forall_mem_singleton.mpr (.of_read hold (by simp)))
      (hlegible (by simp [Request.value?])).2

theorem Sorted.found_or_target {target : Option Path} (h : Sorted e target drafts) :
    ∀ draft ∈ drafts, draft.Found e ∨ ∃ language, draft.path = e.dir.child (language ++ fileEnd) ∧
      target = some (e.dir.child (language ++ fileEnd)) := by
  cases h with
  | found hfound => exact List.forall_mem_singleton.mpr (Or.inl hfound)
  | @brought found language new hfound =>
    intro draft hdraft
    rcases List.mem_append.mp hdraft with hdraft | hdraft
    · exact Or.inl (hfound draft hdraft)
    · rw [List.mem_singleton.mp hdraft]
      exact Or.inr ⟨language, rfl, rfl⟩

theorem Sorted.found_of_dropLast {target : Option Path} (h : Sorted e target drafts) :
    ∀ draft ∈ drafts.dropLast, draft.Found e := by
  cases h with
  | found => simp
  | brought hfound =>
    rw [List.dropLast_concat]
    exact hfound

section

variable {bs : List UInt8}

/-- A file that is no document outlives a request, unless the target leads there. -/
theorem kept_or_target (hfile : e.disk.root.get? place = some (.file bs)) (hbad : ¬Parses bs) :
    (r.perform e).2.disk.root.get? place = some (.file bs) ∨
      ∃ p ∈ r.target? e.dir, (r.perform e).2.disk.locate p = .ok place := by
  let I (d : Disk) : Prop := e.disk.Extends d ∧
    (d.root.get? place = some (.file bs) ∨ ∃ p ∈ r.target? e.dir, d.locate p = .ok place)
  have hgrows : ∀ d d', I d → d.Extends d' →
      (d.root.get? place = some (.file bs) → d'.root.get? place = some (.file bs)) → I d' := by
    rintro d d' ⟨hgrown, hkept | ⟨p, hp, hplace⟩⟩ hextends hsame
    · exact ⟨hgrown.trans hextends, Or.inl (hsame hkept)⟩
    · exact ⟨hgrown.trans hextends, Or.inr ⟨p, hp, hextends.locate hplace⟩⟩
  refine (perform_invariant (I := I) r e ?_ ?_ ⟨.refl e.disk, Or.inl hfile⟩).2
  · exact fun d d' hd hspares => hgrows d d' hd hspares.grown (hspares.file_iff place bs).mpr
  · intro draft hdraft d d' hd hwritten
    rcases drafts_eq_nil_or_writes r e with hnil | hwrites
    · exact absurd hdraft (by simp [hnil])
    rcases hwrites.sorted.found_or_target draft hdraft with hfound | ⟨language, hpath, htarget⟩
    · have hkeeps := hfound.keeps hd.1 (entriesAt_of_not_parses hfile hbad) hwritten
      exact hgrows d d' hd (hfound.extends hwritten) (hkeeps bs).mpr
    · rw [hpath] at hwritten
      obtain ⟨written, name, hextends, hlocated, -, hsame⟩ := written_file hwritten
      by_cases hplace : written = place
      · rw [hplace] at hlocated
        exact ⟨hd.1.trans hextends, Or.inr ⟨_, htarget, hlocated⟩⟩
      · exact hgrows d d' hd hextends (hsame place (by simpa using Ne.symm hplace) bs).mpr

/-- A request that stops has not written into its target. -/
theorem kept_of_not_done (hfile : e.disk.root.get? place = some (.file bs)) (hbad : ¬Parses bs) (h : ¬r.Done e) :
    (r.perform e).2.disk.root.get? place = some (.file bs) := by
  rcases change_cases (r := r) (e := e) with ⟨hdone, -⟩ | ⟨-, hnil | ⟨d, hstops⟩⟩
  · exact absurd hdone h
  · exact ((spares_of_drafts_nil hnil).file_iff place bs).mpr hfile
  rw [disk_of_stops hstops]
  refine (invariant_of_stops (I := fun d => e.disk.Extends d ∧ d.root.get? place = some (.file bs)) ?_ ?_
    ⟨.refl e.disk, hfile⟩ hstops).2
  · exact fun d d' hd hspares => ⟨hd.1.trans hspares.grown, (hspares.file_iff place bs).mpr hd.2⟩
  · intro draft hdraft d d' hd hwritten
    rcases drafts_eq_nil_or_writes r e with hnil | hwrites
    · exact absurd hdraft (by simp [hnil])
    have hfound := hwrites.sorted.found_of_dropLast draft hdraft
    have hkeeps := hfound.keeps hd.1 (entriesAt_of_not_parses hfile hbad) hwritten bs
    exact ⟨hd.1.trans (hfound.extends hwritten), hkeeps.mpr hd.2⟩

/-- A request that is done leaves a document where its target leads, and led before if it led anywhere. -/
theorem exists_document_of_done {p : Path} (h : r.Done e) (hp : r.target? e.dir = some p) :
    ∃ place bs, (r.perform e).2.disk.locate p = .ok place ∧
      (r.perform e).2.disk.root.get? place = some (.file bs) ∧ Parses bs ∧
      ∀ place₀, e.disk.locate p = .ok place₀ → place₀ = place := by
  rcases change_cases (r := r) (e := e) with ⟨-, hdrafts, d, hfiled⟩ | ⟨hdone, -⟩
  · have hspares : d.Spares (r.perform e).2.disk := by
      rcases perform_files r e with ⟨d', hd', hspares⟩ | hstops
      · rwa [Except.ok.inj (hfiled.symm.trans hd')]
      · exact absurd (hfiled.symm.trans hstops) (by simp)
    have hsorted := ((drafts_eq_nil_or_writes r e).resolve_left hdrafts).sorted
    generalize r.drafts e = drafts at hfiled hsorted
    rw [hp] at hsorted
    cases hsorted with
    | @brought found language new hfound hnew =>
      obtain ⟨d₁, hfirst, hwritten⟩ := filed_concat hfiled
      have hgrown : e.disk.Extends d₁ := filed_invariant (I := e.disk.Extends)
        (fun draft hdraft _ _ hd hwritten => hd.trans ((hfound draft hdraft).extends hwritten)) (.refl e.disk) hfirst
      obtain ⟨place, name, hgrown₁, hlocated, hthere, -⟩ := written_file hwritten
      refine ⟨place, _, hspares.grown.locate hlocated, (hspares.file_iff place _).mpr hthere,
        parses_fileText name hnew, ?_⟩
      intro place₀ hplace₀
      exact Except.ok.inj ((hgrown₁.locate (hgrown.locate hplace₀)).symm.trans hlocated)
  · exact absurd h hdone

/-- **A file that is no document is kept, unless a request brings a rule into it.** -/
theorem unparsable_kept_iff (hfile : e.disk.root.get? place = some (.file bs)) (hbad : ¬Parses bs) :
    (r.perform e).2.disk.root.get? place = some (.file bs) ↔
      ¬(r.Done e ∧ ∃ p ∈ r.target? e.dir, (r.perform e).2.disk.locate p = .ok place) := by
  refine ⟨?_, fun h => ?_⟩
  · rintro hkept ⟨hdone, p, hp, hplace⟩
    obtain ⟨place', bs', hplace', hthere, hparses, -⟩ := exists_document_of_done hdone hp
    rw [Except.ok.inj (hplace'.symm.trans hplace), hkept] at hthere
    rw [← Entry.file.inj (Option.some.inj hthere)] at hparses
    exact hbad hparses
  · by_cases hdone : r.Done e
    · rcases kept_or_target (r := r) hfile hbad with hkept | htarget
      · exact hkept
      · exact absurd ⟨hdone, htarget⟩ h
    · exact kept_of_not_done hfile hbad hdone

end

end

/-- An editor of a directory with a rule file that is no document. -/
def damaged : Editor :=
  { oneRule with disk := ⟨.dir [("rules", .dir [("c_rules.json", .file (Utf8.encode "\x7b"))])], []⟩ }

theorem not_parses_brace : ¬Parses (Utf8.encode "\x7b") := by decide +kernel

theorem unparsable_kept_iff_damaged :
    ¬Parses (Utf8.encode "\x7b") ∧ ((Request.delete "c:A").perform damaged).2.disk.root.get? ["rules", "c_rules.json"] =
      some (.file (Utf8.encode "\x7b")) := by
  refine ⟨not_parses_brace, (unparsable_kept_iff rfl not_parses_brace).mpr ?_⟩
  rintro ⟨-, p, hp, -⟩
  exact absurd hp (by simp [Request.target?])

def addToDamaged : Request := .add "c" ⟨"B", "n", "p", "", ""⟩

/-- The new rule takes the place of all that stood in the file. -/
theorem damaged_overwritten :
    damaged.disk.root.get? ["rules", "c_rules.json"] = some (.file (Utf8.encode "\x7b")) ∧
      ¬Parses (Utf8.encode "\x7b") ∧
      (addToDamaged.perform damaged).2.disk.root.get? ["rules", "c_rules.json"] ≠ some (.file (Utf8.encode "\x7b")) := by
  have hdone : addToDamaged.Done damaged := ⟨"已新增规则 B", by decide +kernel⟩
  obtain ⟨place, bs, -, hthere, hparses, hplace⟩ := exists_document_of_done hdone rfl
  have hlocated : damaged.disk.locate (damaged.dir.child (Editor.languageName "c" ++ fileEnd)) =
      .ok ["rules", "c_rules.json"] := by decide +kernel
  refine ⟨rfl, not_parses_brace, ?_⟩
  rw [hplace _ hlocated, hthere]
  intro hsame
  rw [Entry.file.inj (Option.some.inj hsame)] at hparses
  exact not_parses_brace hparses

end SourceAudit.Rules
