/-
# The editor refines a store

A store accepts a request or refuses it (`Request.Accepted`), and what becomes of a
store that accepts it is said by `Request.Effect`: a rule is added at the end, the rules
with an identifier are removed, the first rule with an identifier is switched, or it is
taken out and comes back, with some of its fields set, at the end of the rules of a
language.

In a well-kept directory a request is planned if the store accepts it, and what is
planned makes the store that the request makes (`Verdict`). So the editor does what the
store does, and the directory is well kept again (`perform_refines`).
-/
import SourceAudit.Proofs.Rules.Plans

namespace SourceAudit.Rules

open RuleSet (fileEnd)
open Editor (languageName splitKey)

variable {language id key : String}

/-! ### Requests -/

namespace Request

def languages : Request → List String
  | .add language _ => [languageName language]
  | .delete key => [(splitKey key).1]
  | .update key language _ => [(splitKey key).1, languageName language]
  | .enable key _ => [(splitKey key).1]

/-- The languages are single names, and what is to be written can be read back. -/
structure Fits (r : Request) : Prop where
  single : ∀ language ∈ r.languages, '/' ∉ language.toList
  legible : ∀ v ∈ r.value?, v.Legible

end Request

namespace Store

/-- The store without the first rule of a language that has the identifier. -/
@[irreducible] def take (s : Store) (language id : String) : Store :=
  Function.update s language ((s language).eraseP (named id))

theorem take_self (s : Store) (language id : String) :
    s.take language id language = (s language).eraseP (named id) := by
  rw [take, Function.update_self]

theorem take_of_ne {other : String} (h : other ≠ language) (s : Store) (id : String) :
    s.take language id other = s other := by
  rw [take, Function.update_of_ne h]

def Has (s : Store) (language id : String) : Prop :=
  (s language).any (named id) = true

end Store

namespace Request

/-- The store accepts a request: there is a rule to change if one is to be changed, and no two rules
get one identifier. -/
def Accepted (s : Store) : Request → Prop
  | .add language f =>
    Editor.formRefusal (languageName language) f = .ok none ∧ ¬s.Has (languageName language) f.id
  | .delete key | .enable key _ =>
    (splitKey key).1 ≠ "" ∧ (splitKey key).2 ≠ "" ∧
      s.Has (splitKey key).1 (splitKey key).2
  | .update key language f =>
    ((splitKey key).1 ≠ "" ∧ (splitKey key).2 ≠ "" ∧
      s.Has (splitKey key).1 (splitKey key).2) ∧
    Editor.formRefusal (languageName language) f.trimmed = .ok none ∧
    ¬(s.take (splitKey key).1 (splitKey key).2).Has (languageName language) f.trimmed.id

/-- What becomes of a store that accepts a request. -/
def Effect (s s' : Store) : Request → Prop
  | .add language f =>
    s' = Function.update s (languageName language)
      (s (languageName language) ++ [newEntry (languageName language) f])
  | .delete key =>
    s' = Function.update s (splitKey key).1
      ((s (splitKey key).1).filter fun e => !named (splitKey key).2 e)
  | .update key language f =>
    ∃ e e', (s (splitKey key).1).find? (named (splitKey key).2) = some e ∧
      e.Becomes e' (updates (languageName language) f.trimmed e) ∧
      s' = Function.update (s.take (splitKey key).1 (splitKey key).2) (languageName language)
        (s.take (splitKey key).1 (splitKey key).2 (languageName language) ++ [e'])
  | .enable key enabled =>
    ∃ pre e post e', s (splitKey key).1 = pre ++ e :: post ∧
      (∀ x ∈ pre, named (splitKey key).2 x = false) ∧ named (splitKey key).2 e = true ∧
      e.Becomes e' [("enabled", enabled)] ∧
      s' = Function.update s (splitKey key).1 (pre ++ e' :: post)

end Request

def fileListing (d : Disk) (p : Path) : Except Fault (List Listed) :=
  (rulesAt d p).mapM (Listed.ofEntry (RuleSet.languageOfFile p.name))

/-- The rules of all rule files of a directory, as they are listed. -/
def listing (d : Disk) (dir : Path) : Except Fault (List Listed) := do
  let lists ← (RuleSet.ruleFiles (← d.list dir)).mapM (fileListing d)
  return lists.flatten

/-- An answer of the editor, and its state then, are those of the store. -/
structure Refined (r : Request) (e : Editor) (answer : Bool) (e' : Editor) : Prop where
  /-- The answer is yes if the store accepts the request. -/
  accepted : answer = true ↔ r.Accepted (storeOf e.disk e.dir)
  /-- After a no everything is as it was. -/
  refused : answer = false → e'.disk = e.disk ∧ e'.rules = e.rules
  /-- After a yes the files stand for the store that the request makes. -/
  effect : answer = true → r.Effect (storeOf e.disk e.dir) (storeOf e'.disk e'.dir)
  /-- After a yes the listed rules are those in the files. -/
  listed : answer = true → listing e'.disk e'.dir = .ok e'.rules
  /-- Only rule files of the languages in the request change. -/
  files : ∀ ns, e.disk.locate e.dir = .ok ns →
    e.disk.SameFilesBut (r.languages.map fun language => ns ++ [language ++ fileEnd]) e'.disk
  dir : e'.dir = e.dir
  kept : WellKept e'.disk e'.dir

section

variable {r : Request} {e e' : Editor}

theorem Refined.no (h : WellKept e.disk e.dir) (hrefused : ¬r.Accepted (storeOf e.disk e.dir))
    (hsame : Untouched e e') : Refined r e false e' where
  accepted := ⟨fun hno => absurd hno Bool.false_ne_true, fun haccepted => absurd haccepted hrefused⟩
  refused := fun _ => ⟨hsame.disk, hsame.rules⟩
  effect := fun hno => absurd hno Bool.false_ne_true
  listed := fun hno => absurd hno Bool.false_ne_true
  files := fun _ _ _ _ _ => by rw [hsame.disk]
  dir := hsame.dir
  kept := by
    rw [hsame.disk, hsame.dir]
    exact h

theorem Refined.yes {s : Store} (haccepted : r.Accepted (storeOf e.disk e.dir))
    (heffect : r.Effect (storeOf e.disk e.dir) s) (hstored : Stored e.dir r.languages s e.disk e'.disk)
    (hlisting : listing e'.disk e'.dir = .ok e'.rules) (hdir : e'.dir = e.dir) : Refined r e true e' where
  accepted := ⟨fun _ => haccepted, fun _ => rfl⟩
  refused := fun hyes => absurd hyes.symm Bool.false_ne_true
  effect := fun _ => by
    rw [hdir, hstored.store]
    exact heffect
  listed := fun _ => hlisting
  files := hstored.files
  dir := hdir
  kept := by
    rw [hdir]
    exact hstored.kept

end

/-! ### Reading and listing -/

section

variable {d : Disk} {dir : Path} (h : WellKept d dir)

include h

theorem WellKept.rulesAt_of_read {name : String} {entries : List Value} (hname : Text.endsWith name fileEnd = true)
    (hread : entriesIn d (dir.within name) = .ok entries) : rulesAt d (dir.within name) = entries := by
  obtain ⟨es, hdir, hes⟩ := h
  obtain ⟨ns, hopens⟩ := Disk.exists_opens hdir
  have hfind := hopens.find_within (ne_up_of_endsWith hname)
  rw [entriesIn_eq, hfind] at hread
  rw [rulesAt, Disk.bytes, hfind]
  generalize (dir.within name).refusal? = refusal at hread ⊢
  rcases refusal with _ | fault
  · cases hchild : (Entry.dir es).child? name with
    | none =>
      rw [hchild] at hread
      exact Except.ok.inj hread
    | some e =>
      obtain ⟨bs, rules, rfl, hrules, -⟩ := holdsRules_of_child? hes hname hchild
      obtain ⟨s, v, hs, hv, hentries⟩ := exists_document hrules
      simp only [hchild, entriesOfBytes, hs, hv, hentries] at hread
      simp only [hrules, Option.getD_some]
      exact Except.ok.inj hread
  · cases fault with
    | nameTooLong s => cases hread
    | _ => exact Except.ok.inj hread

theorem WellKept.store_of_read {entries : List Value} (hlanguage : '/' ∉ language.toList)
    (hread : entriesIn d (dir.child (language ++ fileEnd)) = .ok entries) : storeOf d dir language = entries := by
  rw [child_fileEnd hlanguage] at hread
  rw [storeOf_eq hlanguage]
  exact h.rulesAt_of_read (endsWith_append language fileEnd) hread

theorem WellKept.makeDir : d.makeDir dir = .ok d := by
  obtain ⟨es, hdir, -⟩ := h
  obtain ⟨ns, hopens⟩ := Disk.exists_opens hdir
  exact hopens.makeDir

theorem listing_of_shownIn {rules : List Listed} (hshown : shownIn d dir = .ok rules) :
    listing d dir = .ok rules := by
  obtain ⟨es, hdir, -⟩ := id h
  obtain ⟨ns, hopens⟩ := Disk.exists_opens hdir
  obtain ⟨found, lists, hfound, hlists, rfl⟩ := shownIn_eq_ok.mp hshown
  obtain rfl := Except.ok.inj (hopens.list.symm.trans hfound)
  have hfiles : List.Forall₂ (fun p ls => fileListing d p = .ok ls)
      (RuleSet.ruleFiles (es.map fun x => (dir.within x.1, x.2))) lists := by
    refine ((List.forall₂_and_left _ _).mpr ⟨fun _ hp => hp, hlists⟩).imp ?_
    rintro p ls ⟨hp, hls⟩
    obtain ⟨name, -, -, hname, rfl⟩ := mem_ruleFiles_iff.mp hp
    obtain ⟨entries, hread, hentries⟩ := shownOf_eq_ok.mp hls
    rw [fileListing, h.rulesAt_of_read hname hread]
    exact mapM_eq_ok_iff.mpr hentries
  simp only [listing, bind_eq_ok, mapM_eq_ok_iff]
  exact ⟨_, hfound, lists, hfiles, rfl⟩

end

/-! ### Planning -/

theorem of_key {plan : Except Fault (Option Plan)} {result : Option Plan}
    (h : (if (language == "" || id == "") = true then .ok none else plan) = .ok result) :
    ¬(language ≠ "" ∧ id ≠ "") ∧ result = none ∨ (language ≠ "" ∧ id ≠ "") ∧ plan = .ok result := by
  simp only [Bool.or_eq_true, beq_iff_eq] at h
  split_ifs at h with hempty
  · exact Or.inl ⟨by tauto, (Except.ok.inj h).symm⟩
  · exact Or.inr ⟨by tauto, h⟩

/-- A plan is made if the store accepts the request, and what is planned makes the store that the request
makes. -/
inductive Verdict (r : Request) (e : Editor) : Option Plan → Prop
  | no (h : ¬r.Accepted (storeOf e.disk e.dir)) : Verdict r e none
  | yes {plan : Plan} {s : Store} (haccepted : r.Accepted (storeOf e.disk e.dir))
    (heffect : r.Effect (storeOf e.disk e.dir) s)
    (hstored : ∀ d, filed e.disk plan.drafts = .ok d → Stored e.dir r.languages s e.disk d) : Verdict r e (some plan)

section

variable {r : Request} {e : Editor} {result : Option Plan} (h : WellKept e.disk e.dir)

include h

theorem verdict_of_single {rules : List Value} (hfits : r.Fits)
    (hlanguages : r.languages = [language]) (hrules : ∀ x ∈ rules, IsRule x ∧ x.Legible)
    (haccepted : r.Accepted (storeOf e.disk e.dir))
    (heffect : r.Effect (storeOf e.disk e.dir) (Function.update (storeOf e.disk e.dir) language rules))
    (status : String) :
    Verdict r e (some ⟨[⟨e.dir.child (language ++ fileEnd), rules⟩], status⟩) := by
  have hlanguage := hfits.single language (by simp [hlanguages])
  refine .yes haccepted heffect fun d hd => ?_
  rw [hlanguages]
  rw [child_fileEnd hlanguage, filed_singleton] at hd
  exact stored_of_written h hlanguage hrules hd

theorem verdict_add {f : Form} (hfits : (Request.add language f).Fits)
    (hplan : (Request.add language f).planned e = .ok result) : Verdict (.add language f) e result := by
  have hrules := h.rules (languageName language)
  obtain ⟨refusal, hrefusal, hplan⟩ := bind_eq_ok.mp hplan
  cases refusal with
  | some message =>
    obtain rfl := Except.ok.inj hplan
    exact .no fun haccepted => absurd (haccepted.1.symm.trans hrefusal) (by simp)
  | none =>
    obtain ⟨entries, hread, hplan⟩ := bind_eq_ok.mp hplan
    obtain rfl := h.store_of_read (hfits.single _ (by simp [Request.languages])) hread
    rw [hasId_eq (fun x hx => (hrules x hx).1)] at hplan
    by_cases hhas : (storeOf e.disk e.dir (languageName language)).any (named f.id) = true
    · obtain rfl := Except.ok.inj ((if_pos hhas).symm.trans hplan)
      exact .no fun haccepted => haccepted.2 hhas
    · obtain rfl := Except.ok.inj ((if_neg hhas).symm.trans hplan)
      refine verdict_of_single h hfits rfl ?_ ⟨hrefusal, hhas⟩ rfl _
      intro x hx
      rcases List.mem_append.mp hx with hx | hx
      · exact hrules x hx
      · rw [List.mem_singleton.mp hx]
        exact ⟨isRule_newEntry _ _, legible_newEntry _ _⟩

theorem verdict_delete (hfits : (Request.delete key).Fits)
    (hplan : (Request.delete key).planned e = .ok result) : Verdict (.delete key) e result := by
  have hrules := h.rules (splitKey key).1
  dsimp only [Request.planned] at hplan
  obtain ⟨hempty, rfl⟩ | ⟨hkey, hplan⟩ := of_key hplan
  · exact .no fun haccepted => hempty ⟨haccepted.1, haccepted.2.1⟩
  obtain ⟨entries, hread, hplan⟩ := bind_eq_ok.mp hplan
  obtain rfl := h.store_of_read (hfits.single _ (by simp [Request.languages])) hread
  rw [without_eq (fun x hx => (hrules x hx).1)] at hplan
  by_cases hhas : (storeOf e.disk e.dir (splitKey key).1).any (named (splitKey key).2) = true
  · obtain rfl := Except.ok.inj ((if_neg (by rwa [length_without_eq_iff, not_not])).symm.trans hplan)
    exact verdict_of_single h hfits rfl (fun x hx => hrules x (List.mem_filter.mp hx).1)
      ⟨hkey.1, hkey.2, hhas⟩ rfl _
  · obtain rfl := Except.ok.inj ((if_pos (length_without_eq_iff.mpr hhas)).symm.trans hplan)
    exact .no fun haccepted => hhas haccepted.2.2

theorem verdict_enable {enabled : Value} (hfits : (Request.enable key enabled).Fits)
    (hplan : (Request.enable key enabled).planned e = .ok result) : Verdict (.enable key enabled) e result := by
  have hrules := h.rules (splitKey key).1
  dsimp only [Request.planned] at hplan
  obtain ⟨hempty, rfl⟩ | ⟨hkey, hplan⟩ := of_key hplan
  · exact .no fun haccepted => hempty ⟨haccepted.1, haccepted.2.1⟩
  obtain ⟨entries, hread, hplan⟩ := bind_eq_ok.mp hplan
  obtain rfl := h.store_of_read (hfits.single _ (by simp [Request.languages])) hread
  by_cases hhas : (storeOf e.disk e.dir (splitKey key).1).any (named (splitKey key).2) = true
  · obtain ⟨pre, entry, post, hes, hpre, hnamed, -, -⟩ := exists_first hhas
    have hall : ∀ x ∈ pre ++ entry :: post, IsRule x ∧ x.Legible := hes ▸ hrules
    obtain ⟨hrule, hlegible⟩ := hall entry (by simp)
    have hobject := hrule.object
    have hbecomes := Fields.becomes_set "enabled" enabled entry.fields
    rw [← hobject] at hbecomes
    rw [hes, switch_eq enabled hrule hnamed (fun x hx => (hall x (by simp [hx])).1) hpre] at hplan
    obtain rfl := Except.ok.inj hplan
    refine verdict_of_single h hfits rfl ?_ ⟨hkey.1, hkey.2, hhas⟩
      ⟨pre, entry, post, _, hes, hpre, hnamed, hbecomes, rfl⟩ _
    intro x hx
    rcases List.mem_append.mp hx with hx | hx
    · exact hall x (by simp [hx])
    · rcases List.mem_cons.mp hx with rfl | hx
      · exact ⟨isRule_set hrule (by decide), (hobject ▸ hlegible).set (hfits.legible enabled rfl) _⟩
      · exact hall x (by simp [hx])
  · rw [switch_of_none (fun x hx => (hrules x hx).1) _ enabled (by simpa using hhas)] at hplan
    obtain rfl := Except.ok.inj hplan
    exact .no fun haccepted => hhas haccepted.2.2

theorem rules_take {old new : String} : ∀ x ∈ (storeOf e.disk e.dir).take old id new, IsRule x ∧ x.Legible := by
  intro x hx
  by_cases hsame : new = old
  · rw [hsame, Store.take_self] at hx
    exact h.rules old x (List.mem_of_mem_eraseP hx)
  · rw [Store.take_of_ne hsame] at hx
    exact h.rules new x hx

/-- A rule that was taken out is written at the end of the rules of a language. Across two languages
the old rule file is written first. -/
theorem stored_of_moved {old new : String} {entry : Value} {d : Disk} (hold : '/' ∉ old.toList)
    (hnew : '/' ∉ new.toList) (hentry : IsRule entry ∧ entry.Legible)
    (hd : filed e.disk (if e.dir.child (new ++ fileEnd) != e.dir.child (old ++ fileEnd) then
      [⟨e.dir.child (old ++ fileEnd), (storeOf e.disk e.dir old).eraseP (named id)⟩,
        ⟨e.dir.child (new ++ fileEnd), (storeOf e.disk e.dir).take old id new ++ [entry]⟩]
      else [⟨e.dir.child (new ++ fileEnd), (storeOf e.disk e.dir).take old id new ++ [entry]⟩]) = .ok d) :
    Stored e.dir [old, new] (Function.update ((storeOf e.disk e.dir).take old id) new
      ((storeOf e.disk e.dir).take old id new ++ [entry])) e.disk d := by
  have hadded : ∀ x ∈ (storeOf e.disk e.dir).take old id new ++ [entry], IsRule x ∧ x.Legible := by
    intro x hx
    rcases List.mem_append.mp hx with hx | hx
    · exact rules_take h x hx
    · rw [List.mem_singleton.mp hx]
      exact hentry
  rw [child_fileEnd hold, child_fileEnd hnew] at hd
  split_ifs at hd with hfile
  · obtain ⟨d₁, hd₁, hd⟩ := @filed_concat _ _ [_] _ hd
    have hfirst := stored_of_written h hold (fun x hx => h.rules old x (List.mem_of_mem_eraseP hx))
      (filed_singleton.mp hd₁)
    have hsecond := stored_of_written hfirst.kept hnew hadded hd
    rw [hfirst.store, ← Store.take] at hsecond
    exact hfirst.trans hsecond
  · have hsame : new = old := by simpa [Path.within_inj, append_fileEnd_inj] using hfile
    have htake : Function.update ((storeOf e.disk e.dir).take old id) new =
        Function.update (storeOf e.disk e.dir) new := by
      rw [hsame, Store.take]
      funext rules
      exact Function.update_idem ..
    rw [htake]
    exact (stored_of_written h hnew hadded (filed_singleton.mp hd)).mono (by simp)

theorem verdict_update {f : Form} (hfits : (Request.update key language f).Fits)
    (hplan : (Request.update key language f).planned e = .ok result) : Verdict (.update key language f) e result := by
  have hold := hfits.single (splitKey key).1 (by simp [Request.languages])
  have hnew := hfits.single (languageName language) (by simp [Request.languages])
  have hrules := h.rules (splitKey key).1
  dsimp only [Request.planned] at hplan
  obtain ⟨hempty, rfl⟩ | ⟨hkey, hplan⟩ := of_key hplan
  · exact .no fun haccepted => hempty ⟨haccepted.1.1, haccepted.1.2.1⟩
  obtain ⟨refusal, hrefusal, hplan⟩ := bind_eq_ok.mp hplan
  cases refusal with
  | some message =>
    obtain rfl := Except.ok.inj hplan
    exact .no fun haccepted => absurd (haccepted.2.1.symm.trans hrefusal) (by simp)
  | none =>
    obtain ⟨entries, hread, hplan⟩ := bind_eq_ok.mp hplan
    obtain rfl := h.store_of_read hold hread
    obtain ⟨⟨found, others⟩, hfound, hplan⟩ := bind_eq_ok.mp hplan
    rw [extract_eq (fun x hx => (hrules x hx).1)] at hfound
    obtain ⟨rfl, rfl⟩ := Prod.mk.inj (Except.ok.inj hfound)
    by_cases hhas : (storeOf e.disk e.dir (splitKey key).1).any (named (splitKey key).2) = true
    · obtain ⟨pre, entry, post, hes, -, -, hfirst, -⟩ := exists_first hhas
      obtain ⟨hrule, hlegible⟩ := hrules entry (by simp [hes])
      rw [hfirst] at hplan
      -- in one language or across two, the changed rule is added to the rules that are left
      obtain ⟨entries, hentries, hplan⟩ := of_fork hplan
      have htake : (storeOf e.disk e.dir).take (splitKey key).1 (splitKey key).2
          (languageName language) = entries := by
        split_ifs at hentries with hfile
        · rw [beq_iff_eq, child_fileEnd hold, child_fileEnd hnew, Path.within_inj, append_fileEnd_inj] at hfile
          rw [hfile, Store.take_self]
          exact Except.ok.inj hentries
        · have hne : languageName language ≠ (splitKey key).1 := by
            intro hsame
            exact hfile (by rw [hsame]; exact beq_self_eq_true _)
          rw [Store.take_of_ne hne]
          exact h.store_of_read hnew hentries
      subst htake
      rw [hasId_eq (fun x hx => (rules_take h x hx).1)] at hplan
      by_cases hclash : ((storeOf e.disk e.dir).take (splitKey key).1 (splitKey key).2
        (languageName language)).any (named f.trimmed.id) = true
      · obtain rfl := Except.ok.inj ((if_pos hclash).symm.trans hplan)
        exact .no fun haccepted => haccepted.2.2 hclash
      · obtain rfl := Except.ok.inj ((if_neg hclash).symm.trans hplan)
        have hchanged : IsRule (updatedEntry (languageName language) f.trimmed entry) ∧
            (updatedEntry (languageName language) f.trimmed entry).Legible :=
          ⟨isRule_updatedEntry _ _ hrule, legible_updatedEntry _ _ hrule hlegible⟩
        refine .yes ⟨⟨hkey.1, hkey.2, hhas⟩, hrefusal, hclash⟩
          ⟨entry, _, hfirst, becomes_updatedEntry _ _ hrule, rfl⟩ ?_
        intro d hd
        dsimp only at hd
        exact stored_of_moved h hold hnew hchanged hd
    · have hfirst : (storeOf e.disk e.dir (splitKey key).1).find? (named (splitKey key).2) = none := by
        simpa using hhas
      rw [hfirst] at hplan
      obtain rfl := Except.ok.inj hplan
      exact .no fun haccepted => hhas haccepted.1.2.2

/-- **In a well-kept directory the store decides what is planned.** -/
theorem verdict_planned (hfits : r.Fits) (hplan : r.planned e = .ok result) : Verdict r e result := by
  cases r with
  | add language f => exact verdict_add h hfits hplan
  | delete key => exact verdict_delete h hfits hplan
  | update key language f => exact verdict_update h hfits hplan
  | enable key enabled => exact verdict_enable h hfits hplan

end

/-- **The editor refines the store.** -/
theorem perform_refines {e : Editor} {r : Request} {answer : Bool} {e' : Editor} (h : WellKept e.disk e.dir)
    (hfits : r.Fits) (hrun : r.perform e = (.ok answer, e')) : Refined r e answer e' := by
  rcases (leads_perform r e).gives answer e' hrun with
    ⟨rfl, hplan, hsame⟩ | ⟨rfl, plan, d, hplan, hfiled, hmade, hshown, hdir⟩
  · cases verdict_planned h hfits hplan with
    | no hrefused => exact .no h hrefused hsame
  · cases verdict_planned h hfits hplan with
    | yes haccepted heffect hstored =>
      have hstored := hstored d hfiled
      obtain rfl := Except.ok.inj (hstored.kept.makeDir.symm.trans hmade)
      have hlisting := listing_of_shownIn hstored.kept hshown
      rw [← hdir] at hlisting
      exact .yes haccepted heffect hstored hlisting hdir

/-- An editor of a directory with one rule file, which holds one rule. -/
def oneRule : Editor where
  dir := ⟨"/", ["rules"]⟩
  disk := ⟨.dir [("rules", .dir [("c_rules.json",
    .file (Utf8.encode (Editor.fileText "c" [.object [("id", .str "A")]])))])], []⟩
  rules := []
  status := ""
  notices := []

theorem find_rules (es : List (String × Entry)) :
    (⟨.dir [("rules", .dir es)], []⟩ : Disk).find ⟨"/", ["rules"]⟩ = .ok (.dir es) := by
  rfl

theorem wellKept_oneRule : WellKept oneRule.disk oneRule.dir := by
  have hlegible : ∀ r ∈ [Value.object [("id", .str "A")]], r.Legible := by
    simp [Value.legible_object, Value.legible_str]
  have hfind : oneRule.disk.find oneRule.dir = .ok (.dir [("c_rules.json",
    .file (Utf8.encode (Editor.fileText "c" [.object [("id", .str "A")]])))]) := find_rules _
  refine ⟨_, hfind, ?_⟩
  intro x hx _
  rw [List.mem_singleton.mp hx]
  refine ⟨_, _, rfl, rulesOfBytes?_fileText "c" hlegible, ?_⟩
  intro r hr
  exact ⟨⟨"A", by rw [List.mem_singleton.mp hr]; rfl⟩, (hlegible r hr).reads⟩

theorem fits_switchOff : (Request.enable "c:A" (.bool false)).Fits := by
  have hkey : splitKey "c:A" = ("c", "A") := by decide +kernel
  refine ⟨?_, ?_⟩
  · rw [Request.languages, hkey]
    simp
  · intro v hv
    obtain rfl := Option.some.inj hv
    exact Value.legible_bool false

theorem eq_mk_of_fst {α β : Type} {p : α × β} {a : α} (h : p.1 = a) : p = (a, p.2) := by
  rw [← h]

theorem perform_refines_switchOff :
    WellKept oneRule.disk oneRule.dir ∧ (Request.enable "c:A" (.bool false)).Fits ∧
      ∃ e', (Request.enable "c:A" (.bool false)).perform oneRule = (.ok true, e') ∧
        Refined (.enable "c:A" (.bool false)) oneRule true e' := by
  have hanswer : ((Request.enable "c:A" (.bool false)).perform oneRule).1 = .ok true := by decide +kernel
  have hrun := eq_mk_of_fst hanswer
  exact ⟨wellKept_oneRule, fits_switchOff, _, hrun, perform_refines wellKept_oneRule fits_switchOff hrun⟩

end SourceAudit.Rules
