/-
# What a request writes

A request first reads the rule files it is about and settles what it is going to write
(`Request.plan`). It writes these files, one after the other (`Request.change`), and at
last it tells of it and reads the directory again. The operations of the editor are
these three parts (`perform_eq`).

A plan is decided by what is in the files (`Request.planned`), and with it all that a
request does (`leads_perform`). All that is written is made from what was read before,
and only a request that moves an entry to another file writes two files
(`Request.Writes`).
-/
import SourceAudit.Proofs.Rules.Places

namespace SourceAudit.Rules

open RuleSet (fileEnd)
open Editor (languageName splitKey written formRefusal fileOf)

variable {d d' : Disk} {draft : Draft} {c : Prop}

/-! ### Requests -/

/-- What can be asked of the editor. -/
inductive Request where
  | add (language : String) (f : Form)
  | delete (key : String)
  | update (key language : String) (f : Form)
  | enable (key : String) (enabled : Value)

namespace Request

def perform : Request → Edit Bool
  | .add language f => Editor.add language f
  | .delete key => Editor.delete key
  | .update key language f => Editor.update key language f
  | .enable key enabled => Editor.enable key enabled

def value? : Request → Option Value
  | .enable _ enabled => some enabled
  | _ => none

end Request

/-- The form with its identifier as an update stores it. -/
def Form.trimmed (f : Form) : Form := { f with id := Text.strip f.id }

/-- A rule file as it is to be written. -/
structure Draft where
  path : Path
  entries : List Value

/-- What is to be written, in this order, and what is told then. -/
structure Plan where
  drafts : List Draft
  status : String

def noPlan (s : String) : Edit (Option Plan) := do
  Editor.setStatus s
  return none

def carryOut : Option Plan → Edit (Option String)
  | none => return none
  | some plan => do
    plan.drafts.forM fun draft => Editor.write draft.path draft.entries
    return some plan.status

/-- Tells that something was done, and lists the rules anew. -/
def conclude : Option String → Edit Bool
  | none => return false
  | some status => do
    Editor.setStatus status
    Editor.reload
    return true

namespace Request

/-- What a request is going to write, nothing if it is refused. -/
def plan : Request → Edit (Option Plan)
  | .add language f => do
    let language := languageName language
    if let some message ← Editor.check (formRefusal language f) then return ← noPlan message
    let p ← fileOf language
    let entries ← Editor.read p
    if ← Editor.check (hasId f.id entries) then return ← noPlan ("规则ID已存在: " ++ f.id)
    return some ⟨[⟨p, entries ++ [newEntry language f]⟩], "已新增规则 " ++ f.id⟩
  | .delete key => do
    let (language, id) := splitKey key
    if language == "" || id == "" then return none
    let p ← fileOf language
    let entries ← Editor.read p
    let kept ← Editor.check (without id entries)
    if kept.length == entries.length then return ← noPlan ("未找到规则 " ++ id)
    return some ⟨[⟨p, kept⟩], "已删除规则 " ++ id⟩
  | .update key language f => do
    let (oldLanguage, oldId) := splitKey key
    let language := languageName language
    let f := { f with id := Text.strip f.id }
    if oldLanguage == "" || oldId == "" then return ← noPlan "未选择要编辑的规则"
    if let some message ← Editor.check (formRefusal language f) then return ← noPlan message
    let oldFile ← fileOf oldLanguage
    let oldEntries ← Editor.read oldFile
    let (found, others) ← Editor.check (extract oldId oldEntries)
    let some entry := found | return ← noPlan ("未找到规则 " ++ oldId)
    let newFile ← fileOf language
    let entries ← if newFile == oldFile then pure others else Editor.read newFile
    if ← Editor.check (hasId f.id entries) then return ← noPlan ("规则ID已存在: " ++ f.id)
    let draft : Draft := ⟨newFile, entries ++ [updatedEntry language f entry]⟩
    return some ⟨if newFile != oldFile then [⟨oldFile, others⟩, draft] else [draft], "已更新规则 " ++ f.id⟩
  | .enable key enabled => do
    let (language, id) := splitKey key
    if language == "" || id == "" then return none
    let p ← fileOf language
    let entries ← Editor.read p
    let some changed ← Editor.check (switch id enabled entries) | return ← noPlan ("未找到规则 " ++ id)
    return some ⟨[⟨p, changed⟩], (if enabled.truthy then "已启用规则 " else "已禁用规则 ") ++ id⟩

/-- A request up to where the rules are listed anew: what it tells if it has changed something. -/
def change (r : Request) : Edit (Option String) :=
  r.plan >>= carryOut

end Request

/-! ### The parts of a request -/

theorem finish_noPlan (s : String) : (noPlan s >>= fun plan => carryOut plan >>= conclude) = Editor.refuse s := by
  simp only [noPlan, Editor.refuse, bind_assoc, pure_bind, carryOut, conclude]

theorem finish_none : ((pure none : Edit (Option Plan)) >>= fun plan => carryOut plan >>= conclude) = pure false := by
  simp only [pure_bind, carryOut, conclude]

theorem finish_draft (p : Path) (entries : List Value) (status : String) :
    ((pure (some ⟨[⟨p, entries⟩], status⟩) : Edit (Option Plan)) >>= fun plan => carryOut plan >>= conclude) = (do
      Editor.write p entries
      Editor.setStatus status
      Editor.reload
      return true) := by
  simp only [pure_bind, carryOut, conclude, List.forM_eq_forM, List.forM_cons, List.forM_nil, bind_assoc]

theorem finish_drafts (p q : Path) (others entries : List Value) (status : String) :
    ((pure (some ⟨[⟨p, others⟩, ⟨q, entries⟩], status⟩) : Edit (Option Plan)) >>= fun plan =>
        carryOut plan >>= conclude) = (do
      Editor.write p others
      Editor.write q entries
      Editor.setStatus status
      Editor.reload
      return true) := by
  simp only [pure_bind, carryOut, conclude, List.forM_eq_forM, List.forM_cons, List.forM_nil, bind_assoc]

theorem add_eq (language : String) (f : Form) :
    Editor.add language f = (Request.add language f).change >>= conclude := by
  unfold Editor.add Request.change Request.plan
  simp only [bind_assoc]
  refine bind_congr fun refusal => ?_
  cases refusal with
  | some message => exact (finish_noPlan message).symm
  | none =>
    simp only [bind_assoc]
    refine bind_congr fun p => bind_congr fun entries => bind_congr fun used => ?_
    cases used with
    | true => exact (finish_noPlan _).symm
    | false => exact (finish_draft _ _ _).symm

theorem delete_eq (key : String) : Editor.delete key = (Request.delete key).change >>= conclude := by
  unfold Editor.delete Request.change Request.plan
  simp only [bind_assoc]
  split_ifs with hempty
  · exact finish_none.symm
  · simp only [bind_assoc]
    refine bind_congr fun p => bind_congr fun entries => bind_congr fun kept => ?_
    split_ifs with hnone
    · exact (finish_noPlan _).symm
    · exact (finish_draft _ _ _).symm

theorem enable_eq (key : String) (enabled : Value) :
    Editor.enable key enabled = (Request.enable key enabled).change >>= conclude := by
  unfold Editor.enable Request.change Request.plan
  simp only [bind_assoc]
  by_cases hempty : ((splitKey key).1 == "" || (splitKey key).2 == "") = true
  · rw [if_pos hempty, if_pos hempty]
    exact finish_none.symm
  · rw [if_neg hempty, if_neg hempty]
    simp only [bind_assoc]
    refine bind_congr fun p => bind_congr fun entries => bind_congr fun found => ?_
    cases found with
    | none => exact (finish_noPlan _).symm
    | some changed => exact (finish_draft _ _ _).symm

theorem update_eq (key language : String) (f : Form) :
    Editor.update key language f = (Request.update key language f).change >>= conclude := by
  unfold Editor.update Request.change Request.plan
  simp only [bind_assoc]
  split_ifs with hempty
  · exact (finish_noPlan _).symm
  · simp only [bind_assoc]
    refine bind_congr fun refusal => ?_
    cases refusal with
    | some message => exact (finish_noPlan message).symm
    | none =>
      simp only [bind_assoc]
      refine bind_congr fun oldFile => bind_congr fun oldEntries => bind_congr fun found => ?_
      obtain ⟨found, others⟩ := found
      cases found with
      | none => exact (finish_noPlan _).symm
      | some entry =>
        simp only [bind_assoc]
        refine bind_congr fun newFile => ?_
        by_cases hfile : (newFile == oldFile) = true
        · have hstays : ¬(newFile != oldFile) = true := by
            rw [bne, hfile]
            simp
          rw [if_pos hfile, if_pos hfile]
          simp only [pure_bind, bind_assoc]
          refine bind_congr fun used => ?_
          cases used with
          | true => exact (finish_noPlan _).symm
          | false =>
            simp only [if_neg hstays]
            exact (finish_draft _ _ _).symm
        · have hmoves : (newFile != oldFile) = true := by
            rw [bne, eq_false_of_ne_true hfile]
            rfl
          rw [if_neg hfile, if_neg hfile]
          simp only [bind_assoc]
          refine bind_congr fun entries => bind_congr fun used => ?_
          cases used with
          | true => exact (finish_noPlan _).symm
          | false =>
            simp only [if_pos hmoves]
            exact (finish_drafts _ _ _ _ _).symm

/-- **A request reads, writes and lists.** -/
theorem perform_eq (r : Request) : r.perform = r.change >>= conclude := by
  cases r with
  | add language f => exact add_eq language f
  | delete key => exact delete_eq key
  | update key language f => exact update_eq key language f
  | enable key enabled => exact enable_eq key enabled

/-! ### Writing -/

/-- The files after drafts are written one after the other, or the files where that stops. -/
def filed (d : Disk) : List Draft → Except Disk Disk
  | [] => .ok d
  | draft :: drafts =>
    match written d draft.path draft.entries with
    | .ok d' => filed d' drafts
    | .error _ => .error (d.tryMakeDir draft.path.parent)

theorem filed_cons_ok (h : written d draft.path draft.entries = .ok d')
    (drafts : List Draft) : filed d (draft :: drafts) = filed d' drafts := by
  rw [filed, h]

theorem filed_cons_error {fault : Fault}
    (h : written d draft.path draft.entries = .error fault) (drafts : List Draft) :
    filed d (draft :: drafts) = .error (d.tryMakeDir draft.path.parent) := by
  rw [filed, h]

theorem filed_cons_eq_ok {drafts : List Draft} : filed d (draft :: drafts) = .ok d' ↔
    ∃ d₁, written d draft.path draft.entries = .ok d₁ ∧ filed d₁ drafts = .ok d' := by
  rw [filed]
  cases written d draft.path draft.entries <;> simp

theorem filed_singleton {p : Path} {entries : List Value} :
    filed d [⟨p, entries⟩] = .ok d' ↔ written d p entries = .ok d' := by
  rw [filed_cons_eq_ok]
  simp [filed]

theorem filed_concat : ∀ {drafts : List Draft} {d : Disk}, filed d (drafts ++ [draft]) = .ok d' →
    ∃ d₁, filed d drafts = .ok d₁ ∧ written d₁ draft.path draft.entries = .ok d'
  | [], d, h => ⟨d, rfl, filed_singleton.mp h⟩
  | next :: drafts, d, h => by
    obtain ⟨d₁, hwritten, h⟩ := filed_cons_eq_ok.mp h
    rw [filed_cons_ok hwritten]
    exact filed_concat h

theorem leads_drafts : ∀ (drafts : List Draft) (e : Editor),
    Leads e (drafts.forM fun draft => Editor.write draft.path draft.entries)
      (fun _ e' => filed e.disk drafts = .ok e'.disk ∧ e'.dir = e.dir)
      fun e' => filed e.disk drafts = .error e'.disk
  | [], e => leads_pure ⟨rfl, rfl⟩
  | draft :: drafts, e => by
    rw [List.forM_eq_forM, List.forM_cons]
    refine (leads_write (Q := fun _ e' => written e.disk draft.path draft.entries = .ok e'.disk ∧ e'.dir = e.dir)
      (fun d hd => ⟨hd, rfl⟩) fun fault hfault => filed_cons_error hfault drafts).bind ?_
    rintro _ e₁ ⟨hwritten, hdir⟩
    have ih := leads_drafts drafts e₁
    rw [List.forM_eq_forM, hdir] at ih
    rw [filed_cons_ok hwritten]
    exact ih

section

variable {I : Disk → Prop}

theorem filed_invariant : ∀ {drafts : List Draft} {d : Disk},
    (∀ draft ∈ drafts, ∀ d d', I d → written d draft.path draft.entries = .ok d' → I d') → I d →
    filed d drafts = .ok d' → I d'
  | [], d, _, hd, h => by rwa [← Except.ok.inj h]
  | draft :: drafts, d, hwrite, hd, h => by
    rw [List.forall_mem_cons] at hwrite
    obtain ⟨d₁, hwritten, h⟩ := filed_cons_eq_ok.mp h
    exact filed_invariant hwrite.2 (hwrite.1 d d₁ hd hwritten) h

theorem invariant_of_stops (hspare : ∀ d d', I d → d.Spares d' → I d') : ∀ {drafts : List Draft} {d : Disk},
    (∀ draft ∈ drafts.dropLast, ∀ d d', I d → written d draft.path draft.entries = .ok d' → I d') → I d →
    filed d drafts = .error d' → I d'
  | [], d, _, _, h => absurd h (by simp [filed])
  | draft :: drafts, d, hwrite, hd, h => by
    cases hwritten : written d draft.path draft.entries with
    | error fault =>
      rw [filed_cons_error hwritten] at h
      rw [← Except.error.inj h]
      exact hspare d _ hd (Disk.tryMakeDir_spares _ _)
    | ok d₁ =>
      rw [filed_cons_ok hwritten] at h
      cases drafts with
      | nil => exact absurd h (by simp [filed])
      | cons next rest =>
        rw [List.dropLast_cons_cons, List.forall_mem_cons] at hwrite
        exact invariant_of_stops hspare hwrite.2 (hwrite.1 d d₁ hd hwritten) h

end

/-! ### Planning -/

/-- A rule is added: nothing is wrong with the form, and none of these entries has its identifier. -/
structure Granted (e : Editor) (language : String) (f : Form) (entries : List Value) : Prop where
  form : formRefusal (languageName language) f = .ok none
  read : entriesIn e.disk (e.dir.child (languageName language ++ fileEnd)) = .ok entries
  free : hasId f.id entries = .ok false

namespace Request

section

variable (e : Editor)

inductive Writes : Request → List Draft → Prop
  /-- A new entry comes after those of a file. -/
  | add {language : String} {f : Form} {entries : List Value} (h : Granted e language f entries) :
    Writes (.add language f) [⟨e.dir.child (languageName language ++ fileEnd),
      entries ++ [newEntry (languageName language) f]⟩]
  /-- Some entries are left out. -/
  | delete {key : String} {entries kept : List Value}
    (hread : entriesIn e.disk (e.dir.child ((splitKey key).1 ++ fileEnd)) = .ok entries)
    (hsub : kept.Sublist entries) (hlength : kept.length ≠ entries.length) :
    Writes (.delete key) [⟨e.dir.child ((splitKey key).1 ++ fileEnd), kept⟩]
  /-- An entry is switched. -/
  | enable {key : String} {v entry : Value} {pre post : List Value} (hobject : entry.isObject = true)
    (hread : entriesIn e.disk (e.dir.child ((splitKey key).1 ++ fileEnd)) = .ok (pre ++ entry :: post)) :
    Writes (.enable key v) [⟨e.dir.child ((splitKey key).1 ++ fileEnd),
      pre ++ .object (Fields.set "enabled" v entry.fields) :: post⟩]
  /-- An entry goes, changed, to the end of its file. -/
  | stay {key language : String} {f : Form} {entry : Value} {pre post : List Value}
    (hfile : e.dir.child (languageName language ++ fileEnd) = e.dir.child ((splitKey key).1 ++ fileEnd))
    (hobject : entry.isObject = true)
    (hread : entriesIn e.disk (e.dir.child (languageName language ++ fileEnd)) = .ok (pre ++ entry :: post))
    (hfree : hasId f.trimmed.id (pre ++ post) = .ok false) :
    Writes (.update key language f) [⟨e.dir.child (languageName language ++ fileEnd),
      pre ++ post ++ [updatedEntry (languageName language) f.trimmed entry]⟩]
  /-- An entry goes, changed, from one file to another. -/
  | move {key language : String} {f : Form} {entry : Value} {pre post entries : List Value}
    (hfile : e.dir.child (languageName language ++ fileEnd) ≠ e.dir.child ((splitKey key).1 ++ fileEnd))
    (hobject : entry.isObject = true)
    (hold : entriesIn e.disk (e.dir.child ((splitKey key).1 ++ fileEnd)) = .ok (pre ++ entry :: post))
    (hnew : entriesIn e.disk (e.dir.child (languageName language ++ fileEnd)) = .ok entries)
    (hfree : hasId f.trimmed.id entries = .ok false) :
    Writes (.update key language f) [⟨e.dir.child ((splitKey key).1 ++ fileEnd), pre ++ post⟩,
      ⟨e.dir.child (languageName language ++ fileEnd),
        entries ++ [updatedEntry (languageName language) f.trimmed entry]⟩]

end

theorem Writes.ne_nil {e : Editor} {r : Request} {drafts : List Draft} (h : r.Writes e drafts) : drafts ≠ [] := by
  cases h <;> exact List.cons_ne_nil _ _

theorem Writes.legible {e : Editor} {r : Request} {drafts : List Draft} (h : r.Writes e drafts)
    (hvalue : ∀ v ∈ r.value?, v.Legible) : ∀ draft ∈ drafts, ∀ x ∈ draft.entries, x.Legible := by
  have hconcat : ∀ {es : List Value} {y : Value}, (∀ x ∈ es, x.Legible) → y.Legible → ∀ x ∈ es ++ [y], x.Legible := by
    intro es y hes hy x hx
    rcases List.mem_append.mp hx with hx | hx
    · exact hes x hx
    · rw [List.mem_singleton.mp hx]
      exact hy
  have hothers : ∀ {pre post : List Value} {entry : Value}, (∀ x ∈ pre ++ entry :: post, x.Legible) →
      ∀ x ∈ pre ++ post, x.Legible :=
    fun hes x hx => hes x ((List.Sublist.append_left (List.sublist_cons_self _ _) _).subset hx)
  have hupdated : ∀ {language : String} {f : Form} {pre post : List Value} {entry : Value}, entry.isObject = true →
      (∀ x ∈ pre ++ entry :: post, x.Legible) → (updatedEntry language f entry).Legible :=
    fun hobject hes => legible_updatedEntry_of_object _ _ (eq_object_of_isObject hobject) (hes _ (by simp))
  cases h with
  | add hgranted =>
    rw [List.forall_mem_singleton]
    exact hconcat (legible_entriesIn hgranted.read) (legible_newEntry _ _)
  | delete hread hsub =>
    rw [List.forall_mem_singleton]
    exact fun x hx => legible_entriesIn hread x (hsub.subset hx)
  | @enable key v entry pre post hobject hread =>
    rw [List.forall_mem_singleton]
    have hlegible := legible_entriesIn hread
    have hentry : (Value.object entry.fields).Legible := by
      rw [← eq_object_of_isObject hobject]
      exact hlegible entry (by simp)
    intro x hx
    rcases List.mem_append.mp hx with hx | hx
    · exact hlegible x (List.mem_append_left _ hx)
    · rcases List.mem_cons.mp hx with rfl | hx
      · exact hentry.set (hvalue v rfl) "enabled"
      · exact hlegible x (by simp [hx])
  | stay _ hobject hread =>
    rw [List.forall_mem_singleton]
    have hlegible := legible_entriesIn hread
    exact hconcat (hothers hlegible) (hupdated hobject hlegible)
  | move _ hobject hold hnew =>
    have hlegible := legible_entriesIn hold
    rw [List.forall_mem_cons, List.forall_mem_singleton]
    exact ⟨hothers hlegible, hconcat (legible_entriesIn hnew) (hupdated hobject hlegible)⟩

end Request

theorem Granted.legible {e : Editor} {language : String} {f : Form} {entries : List Value}
    (h : Granted e language f entries) :
    ∀ x ∈ entries ++ [newEntry (languageName language) f], x.Legible :=
  (Request.Writes.add h).legible (by simp [Request.value?]) _ List.mem_cons_self

/-- What the plan of a request is, with nothing told. -/
def Request.planned (e : Editor) : Request → Except Fault (Option Plan)
  | .add language f => do
    if (← formRefusal (languageName language) f).isSome then return none
    let p := e.dir.child (languageName language ++ fileEnd)
    let entries ← entriesIn e.disk p
    if ← hasId f.id entries then return none
    return some ⟨[⟨p, entries ++ [newEntry (languageName language) f]⟩], "已新增规则 " ++ f.id⟩
  | .delete key => do
    let (language, id) := splitKey key
    if language == "" || id == "" then return none
    let p := e.dir.child (language ++ fileEnd)
    let entries ← entriesIn e.disk p
    let kept ← without id entries
    if kept.length == entries.length then return none
    return some ⟨[⟨p, kept⟩], "已删除规则 " ++ id⟩
  | .update key language f => do
    let (oldLanguage, oldId) := splitKey key
    if oldLanguage == "" || oldId == "" then return none
    if (← formRefusal (languageName language) f.trimmed).isSome then return none
    let oldFile := e.dir.child (oldLanguage ++ fileEnd)
    let newFile := e.dir.child (languageName language ++ fileEnd)
    let (some entry, others) ← extract oldId (← entriesIn e.disk oldFile) | return none
    let entries ← if newFile == oldFile then pure others else entriesIn e.disk newFile
    if ← hasId f.trimmed.id entries then return none
    let draft : Draft := ⟨newFile, entries ++ [updatedEntry (languageName language) f.trimmed entry]⟩
    return some ⟨if newFile != oldFile then [⟨oldFile, others⟩, draft] else [draft], "已更新规则 " ++ f.trimmed.id⟩
  | .enable key enabled => do
    let (language, id) := splitKey key
    if language == "" || id == "" then return none
    let p := e.dir.child (language ++ fileEnd)
    let some changed ← switch id enabled (← entriesIn e.disk p) | return none
    return some ⟨[⟨p, changed⟩], (if enabled.truthy then "已启用规则 " else "已禁用规则 ") ++ id⟩

/-- The operation gives the result, and changes no files. -/
def Finds {α : Type} (e₀ e : Editor) (m : Edit α) (x : Except Fault α) : Prop :=
  ∃ e', Untouched e₀ e' ∧ m e = (x, e')

section

variable {α β : Type} {e₀ e : Editor} (h : Untouched e₀ e)

include h

theorem finds_pure (b : β) : Finds e₀ e (pure b) (.ok b) := ⟨e, h, rfl⟩

theorem finds_noPlan (s : String) : Finds e₀ e (noPlan s) (.ok none) := by
  obtain ⟨e', hsame, hrun⟩ := exists_setStatus e s
  refine ⟨e', h.trans hsame, ?_⟩
  rw [noPlan, bind_apply, hrun]
  rfl

omit h in
theorem Finds.ite [Decidable c] {m m' : Edit α} {x x' : Except Fault α} (hm : Finds e₀ e m x)
    (hm' : Finds e₀ e m' x') : Finds e₀ e (if c then m else m') (if c then x else x') := by
  split_ifs
  · exact hm
  · exact hm'

theorem Finds.check_bind {r : Except Fault α} {f : α → Edit β} {g : α → Except Fault β}
    (hf : ∀ a, Finds e₀ e (f a) (g a)) : Finds e₀ e (Editor.check r >>= f) (r >>= g) := by
  cases r with
  | ok a => exact hf a
  | error fault => exact ⟨e, h, rfl⟩

theorem Finds.file_bind {language : String} {f : Path → Edit β} {x : Except Fault β}
    (hf : Finds e₀ e (f (e₀.dir.child (language ++ fileEnd))) x) : Finds e₀ e (fileOf language >>= f) x := by
  rw [← h.dir] at hf
  exact hf

theorem Finds.read_bind {p : Path} {f : List Value → Edit β} {g : List Value → Except Fault β}
    (hf : ∀ entries e', Untouched e₀ e' → Finds e₀ e' (f entries) (g entries)) :
    Finds e₀ e (Editor.read p >>= f) (entriesIn e₀.disk p >>= g) := by
  obtain ⟨e', hsame, hrun⟩ := exists_read e p
  have hsame := h.trans hsame
  rw [h.disk] at hrun
  unfold Finds
  rw [bind_apply, hrun]
  cases entriesIn e₀.disk p with
  | ok entries => exact hf entries e' hsame
  | error fault => exact ⟨e', hsame, rfl⟩

end

/-- **Planning only reads.** -/
theorem finds_plan (r : Request) (e : Editor) : Finds e e r.plan (r.planned e) := by
  have h := Untouched.refl e
  cases r with
  | add language f =>
    refine .check_bind h fun refusal => ?_
    cases refusal with
    | some message => exact finds_noPlan h message
    | none =>
      refine .file_bind h (.read_bind h fun entries e₁ h₁ => .check_bind h₁ fun used => ?_)
      exact .ite (finds_noPlan h₁ _) (finds_pure h₁ _)
  | delete key =>
    refine .ite (finds_pure h _) (.file_bind h (.read_bind h fun entries e₁ h₁ => .check_bind h₁ fun kept => ?_))
    exact .ite (finds_noPlan h₁ _) (finds_pure h₁ _)
  | enable key enabled =>
    refine .ite (finds_pure h _) (.file_bind h (.read_bind h fun entries e₁ h₁ => .check_bind h₁ fun changed => ?_))
    cases changed with
    | none => exact finds_noPlan h₁ _
    | some changed => exact finds_pure h₁ _
  | update key language f =>
    refine .ite (finds_noPlan h _) (.check_bind h fun refusal => ?_)
    cases refusal with
    | some message => exact finds_noPlan h message
    | none =>
      refine .file_bind h (.read_bind h fun oldEntries e₁ h₁ => .check_bind h₁ fun ⟨found, others⟩ => ?_)
      cases found with
      | none => exact finds_noPlan h₁ _
      | some entry =>
        refine .file_bind h₁ (.ite ?_ (.read_bind h₁ fun entries e₂ h₂ => ?_))
        · exact .check_bind h₁ fun used => .ite (finds_noPlan h₁ _) (finds_pure h₁ _)
        · exact .check_bind h₂ fun used => .ite (finds_noPlan h₂ _) (finds_pure h₂ _)

/-! ### What can be written -/

section

variable {r : Request} {e : Editor} {plan : Plan}

theorem of_unless [Decidable c] {x : Except Fault (Option Plan)}
    (h : (if c then pure none else x) = .ok (some plan)) : ¬c ∧ x = .ok (some plan) := by
  split_ifs at h with hc
  · exact absurd (Except.ok.inj h) (by simp)
  · exact ⟨hc, h⟩

theorem of_fork {α β : Type} [Decidable c] {a : α} {x : Except Fault α} {k : α → Except Fault β} {b : β}
    (h : (if c then (pure a : Except Fault α) >>= k else x >>= k) = .ok b) :
    ∃ a', (if c then pure a else x) = .ok a' ∧ k a' = .ok b := by
  split_ifs at h ⊢ <;> exact bind_eq_ok.mp h

/-- **There is not much that a request can write.** -/
theorem writes_of_planned (h : r.planned e = .ok (some plan)) : r.Writes e plan.drafts := by
  have hplan : ∀ {plan'}, (pure (some plan') : Except Fault _) = .ok (some plan) → plan' = plan :=
    fun h => Option.some.inj (Except.ok.inj h)
  cases r with
  | add language f =>
    obtain ⟨refusal, hrefusal, h⟩ := bind_eq_ok.mp h
    obtain ⟨hnone, h⟩ := of_unless h
    obtain ⟨entries, hread, h⟩ := bind_eq_ok.mp h
    obtain ⟨used, hused, h⟩ := bind_eq_ok.mp h
    obtain ⟨hfree, h⟩ := of_unless h
    rw [Option.not_isSome_iff_eq_none] at hnone
    rw [hnone] at hrefusal
    rw [eq_false_of_ne_true hfree] at hused
    obtain rfl := hplan h
    exact .add ⟨hrefusal, hread, hused⟩
  | delete key =>
    obtain ⟨-, h⟩ := of_unless h
    obtain ⟨entries, hread, h⟩ := bind_eq_ok.mp h
    obtain ⟨kept, hkept, h⟩ := bind_eq_ok.mp h
    obtain ⟨hlength, h⟩ := of_unless h
    obtain rfl := hplan h
    exact .delete hread (sublist_of_without hkept) (by simpa using hlength)
  | enable key enabled =>
    obtain ⟨-, h⟩ := of_unless h
    obtain ⟨entries, hread, h⟩ := bind_eq_ok.mp h
    obtain ⟨changed, hchanged, h⟩ := bind_eq_ok.mp h
    cases changed with
    | none => exact absurd (Except.ok.inj h) (by simp)
    | some changed =>
      obtain ⟨pre, x, post, hobject, rfl, rfl⟩ := exists_of_switch hchanged
      obtain rfl := hplan h
      exact .enable hobject hread
  | update key language f =>
    unfold Request.planned at h
    dsimp only at h
    obtain ⟨-, h⟩ := of_unless h
    obtain ⟨refusal, -, h⟩ := bind_eq_ok.mp h
    replace h := (of_unless h).2
    obtain ⟨oldEntries, hold, h⟩ := bind_eq_ok.mp h
    obtain ⟨⟨found, others⟩, hfound, h⟩ := bind_eq_ok.mp h
    cases found with
    | none => exact absurd (Except.ok.inj h) (by simp)
    | some entry =>
      obtain ⟨hobject, pre, post, rfl, rfl⟩ := exists_of_extract hfound
      obtain ⟨entries, hnew, h⟩ := of_fork h
      obtain ⟨used, hused, h⟩ := bind_eq_ok.mp h
      obtain ⟨hfree, h⟩ := of_unless h
      rw [eq_false_of_ne_true hfree] at hused
      obtain rfl := hplan h
      dsimp only
      by_cases hfile : e.dir.child (languageName language ++ fileEnd) =
          e.dir.child ((splitKey key).1 ++ fileEnd)
      · rw [if_pos (beq_iff_eq.mpr hfile)] at hnew
        rw [if_neg (by simp [hfile])]
        obtain rfl := Except.ok.inj hnew
        exact .stay hfile hobject (by rw [hfile]; exact hold) hused
      · rw [if_neg (by simpa using hfile)] at hnew
        rw [if_pos (by simpa using hfile)]
        exact .move hfile hobject hold hnew hused

end

/-! ### The files after a request -/

/-- The files that a request writes, none if it is refused or stops before. -/
def Request.drafts (r : Request) (e : Editor) : List Draft :=
  match (r.plan e).1 with
  | .ok (some plan) => plan.drafts
  | _ => []

section

variable (r : Request) (e : Editor)

theorem drafts_eq : r.drafts e = match r.planned e with | .ok (some plan) => plan.drafts | _ => [] := by
  obtain ⟨e₁, -, hrun⟩ := finds_plan r e
  rw [Request.drafts, hrun]

theorem drafts_eq_nil_or_writes : r.drafts e = [] ∨ r.Writes e (r.drafts e) := by
  rw [drafts_eq]
  rcases hplan : r.planned e with fault | (_ | plan)
  · exact Or.inl rfl
  · exact Or.inl rfl
  · exact Or.inr (writes_of_planned hplan)

/-- A request writes what was planned, or stops at one of the files. -/
theorem leads_change : Leads e r.change
    (fun status e' => (status = none ∧ r.planned e = .ok none ∧ Untouched e e') ∨
      ∃ plan, status = some plan.status ∧ r.planned e = .ok (some plan) ∧
        filed e.disk plan.drafts = .ok e'.disk ∧ e'.dir = e.dir)
    fun e' => ((∃ fault, r.planned e = .error fault) ∧ Untouched e e') ∨
      ∃ plan, r.planned e = .ok (some plan) ∧ filed e.disk plan.drafts = .error e'.disk := by
  obtain ⟨e₁, hsame, hrun⟩ := finds_plan r e
  rcases hplan : r.planned e with fault | (_ | plan) <;> rw [hplan] at hrun
  · unfold Leads Request.change
    rw [bind_apply, hrun]
    exact Or.inl ⟨⟨fault, rfl⟩, hsame⟩
  · exact .step hrun (leads_pure (Or.inl ⟨rfl, rfl, hsame⟩))
  · have hdrafts := leads_drafts plan.drafts e₁
    rw [hsame.disk, hsame.dir] at hdrafts
    refine .step hrun ((hdrafts.mono (fun _ _ h => h) fun _ h => Or.inr ⟨plan, rfl, h⟩).bind ?_)
    intro _ e₂ hfiled
    exact leads_pure (Or.inr ⟨plan, rfl, rfl, hfiled⟩)

/-- **What a request does**: it is refused, or writes what was planned and lists the rules anew, or
stops at one of these. -/
theorem leads_perform : Leads e r.perform
    (fun b e' => (b = false ∧ r.planned e = .ok none ∧ Untouched e e') ∨
      (b = true ∧ ∃ plan d, r.planned e = .ok (some plan) ∧ filed e.disk plan.drafts = .ok d ∧
        d.makeDir e.dir = .ok e'.disk ∧ shownIn e'.disk e.dir = .ok e'.rules ∧ e'.dir = e.dir))
    fun e' => ((∃ fault, r.planned e = .error fault) ∧ Untouched e e') ∨
      ∃ plan, r.planned e = .ok (some plan) ∧ (filed e.disk plan.drafts = .error e'.disk ∨
        ∃ d, filed e.disk plan.drafts = .ok d ∧
          (((∃ fault, d.makeDir e.dir = .error fault) ∧ e'.disk = d.tryMakeDir e.dir) ∨
            (d.makeDir e.dir = .ok e'.disk ∧ ∃ fault, shownIn e'.disk e.dir = .error fault))) := by
  rw [perform_eq]
  refine ((leads_change r e).mono (fun _ _ h => h) ?_).bind ?_
  · rintro e₁ (hplan | ⟨plan, hplan, hstops⟩)
    · exact Or.inl hplan
    · exact Or.inr ⟨plan, hplan, Or.inl hstops⟩
  · rintro _ e₁ (⟨rfl, hplan⟩ | ⟨plan, rfl, hplan, hfiled, hdir⟩)
    · exact leads_pure (Or.inl ⟨rfl, hplan⟩)
    · obtain ⟨e₂, hsame, hrun⟩ := exists_setStatus e₁ plan.status
      have hreload := leads_reload e₂
      rw [hsame.disk, hsame.dir, hdir] at hreload
      refine .step hrun ((hreload.mono (fun _ _ h => h) ?_).bind ?_)
      · exact fun _ h => Or.inr ⟨plan, hplan, Or.inr ⟨_, hfiled, h.2⟩⟩
      · exact fun _ _ h => leads_pure (Or.inr ⟨rfl, plan, _, hplan, hfiled, h⟩)

variable {r e} in
theorem exists_refused (h : r.planned e = .ok none) : ∃ e', r.perform e = (.ok false, e') := by
  have hleads : Leads e r.perform (fun b _ => b = false) fun _ => False := by
    refine (leads_perform r e).mono ?_ ?_
    · rintro _ _ (⟨hb, -⟩ | ⟨-, plan, _, hplan, -⟩)
      · exact hb
      · exact absurd (h.symm.trans hplan) (by simp)
    · rintro _ (⟨⟨fault, hfault⟩, -⟩ | ⟨plan, hplan, -⟩)
      · exact absurd (h.symm.trans hfault) (by simp)
      · exact absurd (h.symm.trans hplan) (by simp)
  obtain ⟨_, e', hrun, rfl⟩ := hleads.returns
  exact ⟨e', hrun⟩

variable {r e} in
/-- A request is done if what is planned can be written and the rules can be listed then. -/
theorem exists_performed {drafts : List Draft} {status : String} {rules : List Listed}
    (h : r.planned e = .ok (some ⟨drafts, status⟩)) (hfiled : filed e.disk drafts = .ok d)
    (hmade : d.makeDir e.dir = .ok d) (hshown : shownIn d e.dir = .ok rules) : ∃ e', r.perform e = (.ok true, e') ∧ e'.disk = d := by
  have hsame : ∀ {plan}, r.planned e = .ok (some plan) → ⟨drafts, status⟩ = plan :=
    fun hplan => Option.some.inj (Except.ok.inj (h.symm.trans hplan))
  have hleads : Leads e r.perform (fun b e' => b = true ∧ e'.disk = d) fun _ => False := by
    refine (leads_perform r e).mono ?_ ?_
    · rintro _ e' (⟨-, hplan, -⟩ | ⟨hb, plan, d', hplan, hfiled', hmade', -⟩)
      · exact absurd (h.symm.trans hplan) (by simp)
      · obtain rfl := hsame hplan
        obtain rfl := Except.ok.inj (hfiled.symm.trans hfiled')
        exact ⟨hb, (Except.ok.inj (hmade.symm.trans hmade')).symm⟩
    · rintro e' (⟨⟨fault, hplan⟩, -⟩ | ⟨plan, hplan, hstop⟩)
      · exact absurd (h.symm.trans hplan) (by simp)
      · obtain rfl := hsame hplan
        simp only [hfiled] at hstop
        rcases hstop with hstop | ⟨d', hd', hstop⟩
        · cases hstop
        · obtain rfl := Except.ok.inj hd'
          rw [hmade] at hstop
          rcases hstop with ⟨⟨fault, hfault⟩, -⟩ | ⟨hmade', fault, hfault⟩
          · cases hfault
          · rw [← Except.ok.inj hmade', hshown] at hfault
            cases hfault
  obtain ⟨_, e', hrun, rfl, hdisk⟩ := hleads.returns
  exact ⟨e', hrun, hdisk⟩

/-- **After a request the files are those that its drafts make**, but for directories. -/
theorem perform_files : (∃ d, filed e.disk (r.drafts e) = .ok d ∧ d.Spares (r.perform e).2.disk) ∨
    filed e.disk (r.drafts e) = .error (r.perform e).2.disk := by
  have hsame : ∀ e', Untouched e e' → ∃ d, filed e.disk [] = .ok d ∧ d.Spares e'.disk := by
    intro e' h
    rw [h.disk]
    exact ⟨_, rfl, .refl _⟩
  rw [drafts_eq]
  refine Leads.after (E := fun e' => (∃ d, filed e.disk _ = .ok d ∧ d.Spares e'.disk) ∨ filed e.disk _ = .error e'.disk)
    ((leads_perform r e).mono ?_ ?_)
  · rintro _ e' (⟨-, hplan, h⟩ | ⟨-, plan, d, hplan, hfiled, hmade, -⟩) <;> rw [hplan]
    · exact Or.inl (hsame e' h)
    · exact Or.inl ⟨d, hfiled, (Disk.makeDir_makes hmade).spares⟩
  · rintro e' (⟨⟨fault, hplan⟩, h⟩ | ⟨plan, hplan, hstops | ⟨d, hfiled, ⟨-, htried⟩ | ⟨hmade, -⟩⟩⟩) <;> rw [hplan]
    · exact Or.inl (hsame e' h)
    · exact Or.inr hstops
    · refine Or.inl ⟨d, hfiled, ?_⟩
      rw [htried]
      exact Disk.tryMakeDir_spares _ _
    · exact Or.inl ⟨d, hfiled, (Disk.makeDir_makes hmade).spares⟩

/-- **What the drafts of a request leave true is true after it**, if directories make no difference. -/
theorem perform_invariant {I : Disk → Prop} (hspare : ∀ d d', I d → d.Spares d' → I d')
    (hwrite : ∀ draft ∈ r.drafts e, ∀ d d', I d → written d draft.path draft.entries = .ok d' → I d')
    (h : I e.disk) : I (r.perform e).2.disk := by
  rcases perform_files r e with ⟨d, hd, hspares⟩ | hstops
  · exact hspare d _ (filed_invariant hwrite h hd) hspares
  · exact invariant_of_stops hspare (fun draft hdraft => hwrite draft (List.mem_of_mem_dropLast hdraft)) h hstops

end

end SourceAudit.Rules
