/-
# Identifiers stay distinct

In every rule file no two entries have the same identifier (`DistinctIds`), and no
request changes that, whether it is granted, refused, or stops at a fault
(`perform_keeps`). There is one exception: an identifier is looked for as the user has
written it, but is stored without the blanks around it, so that a request may add an
identifier that is in use without its blanks (`Request.Clashes`).

What a request writes into a file is made from what it has read there before, so each
file is followed on its own (`KeepsIds`): other files need not be in order, and the path
of a file need not lead to where it led before, as long as it led nowhere.
-/
import SourceAudit.Proofs.Rules.Refinement

namespace SourceAudit.Rules

open RuleSet (fileEnd)

/-! ### Distinct identifiers -/

def idsOf (entries : List Value) : List Value :=
  entries.filterMap (·.field? "id")

def DistinctIds (entries : List Value) : Prop :=
  (idsOf entries).Pairwise fun x y => x.same y = false

instance (entries : List Value) : Decidable (DistinctIds entries) :=
  inferInstanceAs (Decidable (List.Pairwise _ _))

namespace DistinctIds

variable {es : List Value}

theorem nil : DistinctIds [] := List.Pairwise.nil

theorem sublist {kept : List Value} (h : DistinctIds es) (hsub : kept.Sublist es) : DistinctIds kept :=
  List.Pairwise.sublist (hsub.filterMap _) h

theorem append {id : String} {e : Value} (h : DistinctIds es) (hfree : hasId id es = .ok false)
    (he : e.field? "id" = some (.str id)) : DistinctIds (es ++ [e]) := by
  have hnew : idsOf (es ++ [e]) = idsOf es ++ [.str id] := by
    rw [idsOf, List.filterMap_append]
    simp [idsOf, he]
  rw [DistinctIds, hnew, List.pairwise_append]
  refine ⟨h, List.pairwise_singleton _ _, ?_⟩
  intro x hx y hy
  obtain ⟨own, hown, hid⟩ := List.mem_filterMap.mp hx
  have hdiffers := (entryHasId_eq_ok.mp (forall_of_hasId hfree own hown)).2
  rw [Value.field, hid, Option.getD_some] at hdiffers
  rw [List.mem_singleton.mp hy]
  exact hdiffers

theorem switch {pre post : List Value} {e v : Value} (hobject : e.isObject = true)
    (h : DistinctIds (pre ++ e :: post)) :
    DistinctIds (pre ++ .object (Fields.set "enabled" v e.fields) :: post) := by
  have hid : (Value.object (Fields.set "enabled" v e.fields)).field? "id" = e.field? "id" := by
    have hset := Fields.get?_set_of_ne (by decide : "id" ≠ "enabled") v e.fields
    rw [eq_object_of_isObject hobject]
    exact hset
  have hsame : idsOf (pre ++ .object (Fields.set "enabled" v e.fields) :: post) = idsOf (pre ++ e :: post) := by
    simp only [idsOf, List.filterMap_append, List.filterMap_cons, hid]
  rw [DistinctIds, hsame]
  exact h

end DistinctIds

theorem field?_newEntry (language : String) (f : Form) :
    (newEntry language f).field? "id" = some (.str (Text.strip f.id)) := by
  unfold newEntry
  dsimp only
  split_ifs <;> rfl

theorem field?_updatedEntry (language : String) (f : Form) (e : Value) :
    (updatedEntry language f e).field? "id" = some (.str f.id) := by
  have hid : ("id", Value.str f.id) ∈ updates language f e := by simp [updates]
  rw [updatedEntry_eq]
  exact Fields.get?_setAll e.fields (nodup_updates language f e) hid

/-! ### What a file keeps -/

/-- In each file the identifiers are distinct if they were before. -/
def KeepsIds (d d' : Disk) : Prop :=
  ∀ place, DistinctIds (entriesAt d place) → DistinctIds (entriesAt d' place)

theorem keepsIds_of_eq {d d' : Disk} (h : d' = d) : KeepsIds d d' := by
  rw [h]
  exact fun _ hplace => hplace

theorem keepsIds_of_spares {d d' : Disk} (h : d.Spares d') : KeepsIds d d' := by
  intro place hplace
  rw [entriesAt_of_spares h]
  exact hplace

section

variable {d₀ : Disk} {e e' : Editor} {dir : Path} {language : String} {old new : List Value}

/-- **A file that is written from what was read there keeps its identifiers distinct**, if what is
written from a list of distinct ones is. -/
theorem keepsIds_of_puts {d d' : Disk} {p : Path} {place : List String} (hread : entriesIn d₀ p = .ok old)
    (hgrown : d₀.Extends d) (hkeeps : KeepsIds d₀ d) (hputs : Puts d p new place d')
    (hids : DistinctIds old → DistinctIds new) : KeepsIds d₀ d' := by
  intro other hother
  by_cases hhere : other = place
  · rw [hhere, hputs.here]
    apply hids
    rcases entriesIn_cases hread with ⟨place₀, hlocated, rfl⟩ | rfl
    · -- the path leads where it led when it was read
      have hplace : place = place₀ :=
        Except.ok.inj (hputs.located.symm.trans (hputs.grown.locate (hgrown.locate hlocated)))
      rw [← hplace, ← hhere]
      exact hother
    · exact .nil
  · rw [hputs.others other hhere]
    exact hkeeps other hother

end

/-- A request adds a rule whose identifier is in use without the blanks around it, and is not in use
with them. -/
def Request.Clashes (e : Editor) : Request → Prop
  | .add language f =>
    ∃ entries, entriesIn e.disk (e.dir.child (Editor.languageName language ++ fileEnd)) = .ok entries ∧
      hasId f.id entries = .ok false ∧ hasId (Text.strip f.id) entries = .ok true
  | _ => False

theorem hasId_eq_false {id other : String} {es : List Value} (h : hasId id es = .ok false)
    (hother : hasId other es ≠ .ok true) : hasId other es = .ok false := by
  have hall : ∀ e ∈ es, entryHasId other e = .ok ((e.field "id").same (.str other)) := by
    intro e he
    have hobject := (entryHasId_eq_ok.mp (forall_of_hasId h e he)).1
    exact entryHasId_eq_ok.mpr ⟨hobject, rfl⟩
  have hany := hasId_of_forall hall
  rw [hany] at hother ⊢
  cases hb : es.any fun e => (e.field "id").same (.str other) with
  | true => exact absurd (by rw [hb]) hother
  | false => rfl

/-! ### Requests -/

/-- What is to be written keeps the identifiers of what was read distinct. -/
structure Draft.Keeps (d₀ : Disk) (dir : Path) (draft : Draft) : Prop where
  path : ∃ language, draft.path = dir.child (language ++ fileEnd)
  ids : ∃ old, entriesIn d₀ draft.path = .ok old ∧ (DistinctIds old → DistinctIds draft.entries)

theorem Draft.Keeps.of_read {d₀ : Disk} {dir : Path} {language : String} {old new : List Value}
    (hread : entriesIn d₀ (dir.child (language ++ fileEnd)) = .ok old) (hids : DistinctIds old → DistinctIds new) :
    Draft.Keeps d₀ dir ⟨dir.child (language ++ fileEnd), new⟩ :=
  ⟨⟨language, rfl⟩, old, hread, hids⟩

theorem keeps_of_writes {r : Request} {e : Editor} {drafts : List Draft} (h : r.Writes e drafts)
    (hclash : ¬r.Clashes e) : ∀ draft ∈ drafts, draft.Keeps e.disk e.dir := by
  have hothers : ∀ {pre post : List Value} {entry : Value}, DistinctIds (pre ++ entry :: post) → DistinctIds (pre ++ post) :=
    fun hids => hids.sublist (List.Sublist.append_left (List.sublist_cons_self _ _) _)
  cases h with
  | add hgranted =>
    rw [List.forall_mem_singleton]
    have hfree := hasId_eq_false hgranted.free fun hused => hclash ⟨_, hgranted.read, hgranted.free, hused⟩
    exact .of_read hgranted.read fun hids => hids.append hfree (field?_newEntry _ _)
  | delete hread hsub =>
    rw [List.forall_mem_singleton]
    exact .of_read hread fun hids => hids.sublist hsub
  | enable hobject hread =>
    rw [List.forall_mem_singleton]
    exact .of_read hread fun hids => hids.switch hobject
  | stay _ _ hread hfree =>
    rw [List.forall_mem_singleton]
    exact .of_read hread fun hids => (hothers hids).append hfree (field?_updatedEntry _ _ _)
  | move _ _ hold hnew hfree =>
    rw [List.forall_mem_cons, List.forall_mem_singleton]
    exact ⟨.of_read hold hothers, .of_read hnew fun hids => hids.append hfree (field?_updatedEntry _ _ _)⟩

/-- **No request makes two entries of a file have the same identifier**, but for one that clashes. -/
theorem perform_keeps {r : Request} {e : Editor} (hclash : ¬r.Clashes e) (hvalue : ∀ v ∈ r.value?, v.Legible) :
    KeepsIds e.disk (r.perform e).2.disk := by
  -- files may have been written since the first was read, but no path leads elsewhere for that
  refine (perform_invariant (I := fun d => e.disk.Extends d ∧ KeepsIds e.disk d) r e ?_ ?_
    ⟨.refl e.disk, keepsIds_of_eq rfl⟩).2
  · rintro d d' ⟨hgrown, hkeeps⟩ hspares
    exact ⟨hgrown.trans hspares.grown, fun place hplace => keepsIds_of_spares hspares place (hkeeps place hplace)⟩
  · rintro draft hdraft d d' ⟨hgrown, hkeeps⟩ hwritten
    rcases drafts_eq_nil_or_writes r e with hnil | hwrites
    · exact absurd hdraft (by simp [hnil])
    obtain ⟨⟨language, hpath⟩, old, hread, hids⟩ := keeps_of_writes hwrites hclash draft hdraft
    rw [hpath] at hwritten hread
    obtain ⟨place, hputs⟩ := written_puts (hwrites.legible hvalue draft hdraft) hwritten
    exact ⟨hgrown.trans hputs.grown, keepsIds_of_puts hread hgrown hkeeps hputs hids⟩

/-- The editor after requests, one after the other; what a request has done before a fault stays. -/
def runAll : List Request → Editor → Editor
  | [], e => e
  | r :: requests, e => runAll requests (r.perform e).2

/-- No request of a run clashes with what it finds. -/
def Clashless : List Request → Editor → Prop
  | [], _ => True
  | r :: requests, e => ¬r.Clashes e ∧ Clashless requests (r.perform e).2

theorem runAll_keeps : ∀ {requests : List Request} {e : Editor}, Clashless requests e →
    (∀ r ∈ requests, ∀ v ∈ r.value?, v.Legible) → KeepsIds e.disk (runAll requests e).disk
  | [], _, _, _ => keepsIds_of_eq rfl
  | r :: requests, e, hclash, hvalues => by
    rw [List.forall_mem_cons] at hvalues
    have hfirst := perform_keeps hclash.1 hvalues.1
    have hrest := runAll_keeps hclash.2 hvalues.2
    exact fun place hplace => hrest place (hfirst place hplace)

/-- **Identifiers stay distinct in every run of requests.** Whatever is read from the rule file of a
language after the run has no two entries of one identifier, if what lay there at the start had none. -/
theorem run_keeps_distinct {requests : List Request} {e : Editor} (hclash : Clashless requests e)
    (hvalues : ∀ r ∈ requests, ∀ v ∈ r.value?, v.Legible) :
    (∀ place, DistinctIds (entriesAt e.disk place) → DistinctIds (entriesAt (runAll requests e).disk place)) ∧
      ∀ (dir : Path) (language : String) (entries : List Value),
        entriesIn (runAll requests e).disk (dir.child (language ++ fileEnd)) = .ok entries →
        (∀ place, (runAll requests e).disk.locate (dir.child (language ++ fileEnd)) = .ok place →
          DistinctIds (entriesAt e.disk place)) →
        DistinctIds entries := by
  have hkeeps := runAll_keeps hclash hvalues
  refine ⟨hkeeps, ?_⟩
  intro dir language entries hread hstart
  rcases entriesIn_cases hread with ⟨place, hplace, rfl⟩ | rfl
  · exact hkeeps place (hstart place hplace)
  · exact .nil

/-! ### A file with one rule -/

theorem get?_single (n : String) (f : Entry) (m : String) (ms : List String) :
    (Entry.dir [(n, f)]).get? (m :: ms) = if m = n then f.get? ms else none := by
  by_cases h : m = n
  · simp [Entry.get?, Entry.child?, Entry.entries, h]
  · simp [Entry.get?, Entry.child?, Entry.entries, h, Ne.symm h]

theorem entriesOfBytes_oneRule :
    entriesOfBytes (Utf8.encode (Editor.fileText "c" [.object [("id", .str "A")]])) =
      .ok [.object [("id", .str "A")]] := by
  apply entriesOfBytes_fileText
  simp [Value.legible_object, Value.legible_str]

theorem entriesAt_oneRule (place : List String) :
    entriesAt oneRule.disk place = if place = ["rules", "c_rules.json"] then [.object [("id", .str "A")]] else [] := by
  unfold entriesAt oneRule
  cases place with
  | nil => rfl
  | cons n rest =>
    rw [get?_single]
    by_cases hn : n = "rules"
    · cases rest with
      | nil => simp [hn, Entry.get?]
      | cons m more =>
        rw [if_pos hn, get?_single]
        by_cases hm : m = "c_rules.json"
        · cases more with
          | nil => simp [hn, hm, Entry.get?, entriesOfBytes_oneRule, orNothing]
          | cons k ks => simp [hm, Entry.get?, Entry.child?, Entry.entries]
        · simp [hm]
    · simp [hn]

theorem entriesIn_oneRule :
    entriesIn oneRule.disk (oneRule.dir.child (Editor.languageName "c" ++ fileEnd)) =
      .ok [.object [("id", .str "A")]] := by
  have hlanguage : Editor.languageName "c" = "c" := by decide +kernel
  have hchild : oneRule.dir.child ("c" ++ fileEnd) = ⟨"/", ["rules", "c_rules.json"]⟩ := by decide +kernel
  have hfind : oneRule.disk.find ⟨"/", ["rules", "c_rules.json"]⟩ =
      .ok (.file (Utf8.encode (Editor.fileText "c" [.object [("id", .str "A")]]))) := rfl
  rw [hlanguage, hchild, entriesIn_eq, hfind]
  exact entriesOfBytes_oneRule

/-- What is asked: a rule is added, one is switched off, and it is deleted. -/
def addSwitchDelete : List Request :=
  [.add "c" ⟨" B", "n", "x", "", ""⟩, .enable "c:A" (.bool false), .delete "c:A"]

theorem clashless_addSwitchDelete : Clashless addSwitchDelete oneRule := by
  refine ⟨?_, ?_, ?_, trivial⟩
  · rintro ⟨entries, hread, -, hused⟩
    obtain rfl := Except.ok.inj (entriesIn_oneRule.symm.trans hread)
    exact absurd hused (by decide +kernel)
  · exact id
  · exact id

theorem run_keeps_distinct_addSwitchDelete :
    Clashless addSwitchDelete oneRule ∧ (∀ r ∈ addSwitchDelete, ∀ v ∈ r.value?, v.Legible) ∧
      DistinctIds (entriesAt oneRule.disk ["rules", "c_rules.json"]) ∧
      DistinctIds (entriesAt (runAll addSwitchDelete oneRule).disk ["rules", "c_rules.json"]) := by
  have hvalues : ∀ r ∈ addSwitchDelete, ∀ v ∈ r.value?, v.Legible := by
    simp [addSwitchDelete, Request.value?, Value.legible_bool]
  have hstart : DistinctIds (entriesAt oneRule.disk ["rules", "c_rules.json"]) := by
    rw [entriesAt_oneRule]
    decide
  exact ⟨clashless_addSwitchDelete, hvalues, hstart,
    (run_keeps_distinct clashless_addSwitchDelete hvalues).1 _ hstart⟩

/-- The form of a rule whose identifier is in use, with a blank before it. -/
def blankBefore : Form := ⟨" A", "n", "x", "", ""⟩

/-- With a blank before it an identifier can be added again. -/
theorem blank_hides_clash :
    (∀ place, idsOf (entriesAt oneRule.disk place) = [] ∨ idsOf (entriesAt oneRule.disk place) = [.str "A"]) ∧
      ¬DistinctIds (entriesAt (runAll [.add "c" blankBefore] oneRule).disk ["rules", "c_rules.json"]) := by
  refine ⟨?_, ?_⟩
  · intro place
    rw [entriesAt_oneRule]
    split_ifs
    · exact .inr rfl
    · exact .inl rfl
  · have hdrafts : ((Request.add "c" blankBefore).drafts oneRule).length = 1 := by decide +kernel
    have hok : (filed oneRule.disk ((Request.add "c" blankBefore).drafts oneRule)).isOk = true := by decide +kernel
    have hlocated : oneRule.disk.locate (oneRule.dir.child (Editor.languageName "c" ++ fileEnd)) =
        .ok ["rules", "c_rules.json"] := by decide +kernel
    have hfiles := perform_files (.add "c" blankBefore) oneRule
    have hwrites := drafts_eq_nil_or_writes (.add "c" blankBefore) oneRule
    generalize (Request.add "c" blankBefore).drafts oneRule = drafts at hdrafts hok hfiles hwrites
    rcases hwrites with rfl | @⟨_, _, entries, hgranted⟩
    · cases hdrafts
    obtain rfl := Except.ok.inj (hgranted.read.symm.trans entriesIn_oneRule)
    rcases hfiles with ⟨d, hfiled, hspares⟩ | hstops
    · obtain ⟨d₁, hd₁, hwritten⟩ := @filed_concat _ _ [] _ hfiled
      rw [← Except.ok.inj hd₁] at hwritten
      obtain ⟨place, hputs⟩ := written_puts hgranted.legible hwritten
      obtain rfl := Except.ok.inj (hputs.located.symm.trans (hputs.grown.locate hlocated))
      rw [runAll, runAll, entriesAt_of_spares hspares, hputs.here]
      decide +kernel
    · rw [hstops] at hok
      exact absurd hok (by simp [Except.isOk, Except.toBool])

end SourceAudit.Rules
