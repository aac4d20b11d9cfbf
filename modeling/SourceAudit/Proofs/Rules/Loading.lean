/-
# The rules in a directory

A directory of rule files stands for a store: the rules of each language (`storeOf`). It
is well kept if each of its rule files is a file with a list of rules in it
(`WellKept`). Writing a rule file sets the rules of its language, keeps all other
languages and files, and leaves the directory well kept (`stored_of_written`). That
numbers with decimals are read as they are written is asked of the rules
(`Value.Exact`).

In a directory of which nothing is known, a file that cannot be read counts as empty
(`entriesIn`), and what is listed are the entries of all rule files, one file after the
other (`shownIn`). An operation returns, or it stops at a fault, and either way the state
it leaves is described (`Leads`).
-/
import Mathlib.Logic.Function.Basic
import SourceAudit.Proofs.Files.Disk
import SourceAudit.Proofs.Rules.Entries
import SourceAudit.Proofs.Text.Utf8
import SourceAudit.Proofs.Value.Json

namespace SourceAudit

variable {d' : Disk} {bs : List UInt8} {language : String}

theorem Text.joinNewlines_of_notMem {s : String} (h : '\r' ∉ s.toList) : Text.joinNewlines s = s := by
  have hnone : s.toList.contains '\r' = false := by simpa using h
  rw [joinNewlines, hnone, if_neg Bool.false_ne_true]

namespace Rules

open RuleSet (fileEnd)

/-- The rules in the bytes of a rule file: an object with a list of them. -/
def rulesOfBytes? (bs : List UInt8) : Option (List Value) :=
  match Utf8.decode? bs with
  | none => none
  | some s =>
    match Json.read (Text.joinNewlines s) with
    | .error _ => none
    | .ok v =>
      match v.field? "rules" with
      | some (.list rules) => some rules
      | _ => none

/-- The rules in a file, none if there is no file with rules. -/
def rulesAt (d : Disk) (p : Path) : List Value :=
  match d.bytes p with
  | .ok bs => (rulesOfBytes? bs).getD []
  | .error _ => []

theorem rulesAt_of_bytes {d : Disk} {p : Path} (h : d.bytes p = .ok bs) :
    rulesAt d p = (rulesOfBytes? bs).getD [] := by
  rw [rulesAt, h]

abbrev Store := String → List Value

/-- The store that a directory stands for. A language with a slash in its name has no rules of its
own. -/
@[irreducible] def storeOf (d : Disk) (dir : Path) : Store := fun language =>
  if '/' ∈ language.toList then [] else rulesAt d (dir.child (language ++ fileEnd))

def HoldsRules (e : Entry) : Prop :=
  ∃ bs rules, e = .file bs ∧ rulesOfBytes? bs = some rules ∧ ∀ r ∈ rules, IsRule r ∧ r.Exact

/-- The path leads to a directory, and all rule files in it are files with rules. -/
def WellKept (d : Disk) (dir : Path) : Prop :=
  ∃ es, d.find dir = .ok (.dir es) ∧ ∀ x ∈ es, Text.endsWith x.1 fileEnd = true → HoldsRules x.2

/-! ### Names of rule files -/

theorem endsWith_append (s tail : String) : Text.endsWith (s ++ tail) tail = true := by
  rw [Text.endsWith, List.isSuffixOf_iff_suffix, String.toList_append]
  exact List.suffix_append _ _

theorem ne_up_of_endsWith {name : String} (h : Text.endsWith name fileEnd = true) : name ≠ ".." := by
  rintro rfl
  exact absurd h (by decide)

theorem append_fileEnd_inj {s t : String} : s ++ fileEnd = t ++ fileEnd ↔ s = t := by
  constructor
  · intro h
    have hchars := congrArg String.toList h
    rw [String.toList_append, String.toList_append, List.append_left_inj] at hchars
    exact String.toList_injective hchars
  · rintro rfl
    rfl

theorem child_fileEnd (h : '/' ∉ language.toList) (dir : Path) :
    dir.child (language ++ fileEnd) = dir.within (language ++ fileEnd) := by
  have hend : '/' ∉ fileEnd.toList := by decide
  have hlong : ∀ s : String, s.toList.length < fileEnd.toList.length → language ++ fileEnd ≠ s := by
    rintro s hs rfl
    rw [String.toList_append, List.length_append] at hs
    omega
  refine Path.child_eq ?_ (hlong "" (by decide)) (hlong "." (by decide)) dir
  rw [String.toList_append, List.mem_append]
  exact fun hmem => hmem.elim h hend

theorem storeOf_eq (h : '/' ∉ language.toList) (d : Disk) (dir : Path) :
    storeOf d dir language = rulesAt d (dir.within (language ++ fileEnd)) := by
  rw [storeOf, if_neg h, child_fileEnd h]

/-! ### What is in a rule file -/

theorem rulesOfBytes?_fileText (language : String) {rules : List Value} (h : ∀ r ∈ rules, r.Legible) :
    rulesOfBytes? (Utf8.encode (Editor.fileText language rules)) = some rules := by
  have hlegible : (Value.object [("version", .int 1), ("language", .str language),
      ("rules", .list rules)]).Legible := by
    rw [Value.legible_object]
    simp [Value.legible_int, Value.legible_str, Value.legible_list.mpr h]
  have hread := Json.read_writePretty hlegible
  have hreturn : '\r' ∉ (Editor.fileText language rules).toList := by
    rw [Editor.fileText, String.toList_append, List.mem_append, not_or]
    exact ⟨Json.return_notMem_writePretty _, by decide⟩
  rw [rulesOfBytes?, Utf8.decode?_encode]
  dsimp only
  rw [Text.joinNewlines_of_notMem hreturn, Editor.fileText, hread]
  simp [Value.field?, Fields.get?]

theorem distinct_of_rulesOfBytes? {rules : List Value} (h : rulesOfBytes? bs = some rules) :
    ∀ r ∈ rules, r.Distinct := by
  unfold rulesOfBytes? at h
  split at h
  · cases h
  · split at h
    · cases h
    · rename_i v hv
      have hdistinct := Json.distinct_of_read hv
      split at h
      · rename_i xs hxs
        obtain rfl := Option.some.inj h
        cases v with
        | object fields =>
          obtain ⟨f, hf, hlist⟩ := Option.map_eq_some_iff.mp hxs
          have hfield := (Value.throughout_object.mp hdistinct).2 f (List.mem_of_find?_eq_some hf)
          rw [hlist] at hfield
          exact (Value.throughout_list.mp hfield).2
        | _ => exact absurd hxs (by simp [Value.field?])
      · cases h

theorem exists_document {rules : List Value} (h : rulesOfBytes? bs = some rules) :
    ∃ s v, Utf8.decode? bs = some s ∧ Json.read (Text.joinNewlines s) = .ok v ∧
      Editor.entriesOf v = .ok rules := by
  unfold rulesOfBytes? at h
  split at h
  · cases h
  · rename_i s hs
    split at h
    · cases h
    · rename_i v hv
      refine ⟨s, v, hs, hv, ?_⟩
      split at h
      · rename_i xs hxs
        obtain rfl := Option.some.inj h
        cases v with
        | object fields =>
          rw [Editor.entriesOf]
          simp [hxs, Value.members?]
        | _ => exact absurd hxs (by simp [Value.field?])
      · cases h

/-! ### Reading -/

section

variable {d : Disk} {dir : Path} {ns : List String} {es : List (String × Entry)} {name : String}

theorem holdsRules_of_child? (hes : ∀ x ∈ es, Text.endsWith x.1 fileEnd = true → HoldsRules x.2)
    (hname : Text.endsWith name fileEnd = true) {e : Entry} (he : (Entry.dir es).child? name = some e) :
    HoldsRules e := by
  obtain ⟨x, hx, rfl⟩ := Option.map_eq_some_iff.mp he
  have hself : x.1 = name := by simpa using List.find?_some hx
  exact hes x (List.mem_of_find?_eq_some hx) (hself ▸ hname)

theorem rulesAt_within (h : d.Opens dir ns es)
    (hes : ∀ x ∈ es, Text.endsWith x.1 fileEnd = true → HoldsRules x.2) (hname : Text.endsWith name fileEnd = true) :
    ∀ r ∈ rulesAt d (dir.within name), IsRule r ∧ r.Legible := by
  intro r hr
  unfold rulesAt at hr
  split at hr
  · rename_i bs hbs
    have hfind := h.find_within (ne_up_of_endsWith hname)
    rw [Disk.bytes, hfind] at hbs
    cases hrefusal : (dir.within name).refusal? with
    | some fault =>
      rw [hrefusal] at hbs
      cases hbs
    | none =>
      rw [hrefusal] at hbs
      cases hchild : (Entry.dir es).child? name with
      | none =>
        rw [hchild] at hbs
        cases hbs
      | some e =>
        obtain ⟨cs, rules, rfl, hrules, hall⟩ := holdsRules_of_child? hes hname hchild
        rw [hchild] at hbs
        obtain rfl := Except.ok.inj hbs
        rw [hrules, Option.getD_some] at hr
        exact ⟨(hall r hr).1, distinct_of_rulesOfBytes? hrules r hr, (hall r hr).2⟩
  · cases hr

end

theorem WellKept.rules {d : Disk} {dir : Path} (h : WellKept d dir) (language : String) :
    ∀ r ∈ storeOf d dir language, IsRule r ∧ r.Legible := by
  obtain ⟨es, hfind, hes⟩ := h
  obtain ⟨ns, hopens⟩ := Disk.exists_opens hfind
  by_cases hlanguage : '/' ∈ language.toList
  · rw [storeOf, if_pos hlanguage]
    simp
  · rw [storeOf_eq hlanguage]
    exact rulesAt_within hopens hes (endsWith_append language fileEnd)

/-! ### Writing -/

/-- The second disk holds a store, and no file of the first has changed but the rule files of some
languages. -/
structure Stored (dir : Path) (languages : List String) (s : Store) (d d' : Disk) : Prop where
  kept : WellKept d' dir
  store : storeOf d' dir = s
  located : d'.locate dir = d.locate dir
  files : ∀ ns, d.locate dir = .ok ns →
    d.SameFilesBut (languages.map fun language => ns ++ [language ++ fileEnd]) d'

theorem Stored.mono {dir : Path} {xs ys : List String} {s : Store} {d : Disk} (h : Stored dir xs s d d')
    (hsub : xs ⊆ ys) : Stored dir ys s d d' where
  kept := h.kept
  store := h.store
  located := h.located
  files := fun ns hns names hnames => h.files ns hns names fun hmem => hnames (List.map_subset _ hsub hmem)

theorem Stored.trans {dir : Path} {xs ys : List String} {s s' : Store} {d d'' : Disk} (h : Stored dir xs s d d')
    (h' : Stored dir ys s' d' d'') : Stored dir (xs ++ ys) s' d d'' where
  kept := h'.kept
  store := h'.store
  located := h'.located.trans h.located
  files := fun ns hns => by
    rw [List.map_append]
    exact (h.files ns hns).trans (h'.files ns (h.located.trans hns)) (List.subset_append_left _ _)
      (List.subset_append_right _ _)

theorem rulesAt_setEntry {d : Disk} {dir : Path} {ns : List String} {es : List (String × Entry)}
    {name other : String} {e : Entry} (h : d.Opens dir ns es) (h' : d'.Opens dir ns (Entry.setEntry name e es))
    (hother : other ≠ "..") (hne : other ≠ name) : rulesAt d' (dir.within other) = rulesAt d (dir.within other) := by
  have hfind : d'.find (dir.within other) = d.find (dir.within other) := by
    rw [h.find_within hother, h'.find_within hother, Entry.child?_setEntry, if_neg hne]
  rw [rulesAt, rulesAt, Disk.bytes, Disk.bytes, hfind]

/-- **Writing a rule file sets the rules of its language**, and changes nothing else. -/
theorem stored_of_written {d : Disk} {dir : Path} {rules : List Value} (h : WellKept d dir)
    (hlanguage : '/' ∉ language.toList) (hrules : ∀ r ∈ rules, IsRule r ∧ r.Legible)
    (hwritten : Editor.written d (dir.within (language ++ fileEnd)) rules = .ok d') :
    Stored dir [language] (Function.update (storeOf d dir) language rules) d d' := by
  obtain ⟨es, hfind, hes⟩ := h
  obtain ⟨ns, hopens⟩ := Disk.exists_opens hfind
  have hend := endsWith_append language fileEnd
  rw [Editor.written, Path.parent_within, hopens.makeDir] at hwritten
  obtain ⟨hrefusal, hopens', hsame⟩ := hopens.write (ne_up_of_endsWith hend) hwritten
  have hread := rulesOfBytes?_fileText (RuleSet.languageOfFile (dir.within (language ++ fileEnd)).name)
    fun r hr => (hrules r hr).2
  refine ⟨⟨_, hopens'.find, ?_⟩, ?_, hopens'.located.trans hopens.located.symm, ?_⟩
  · intro x hx hxend
    rcases Entry.mem_setEntry hx with rfl | hx
    · exact ⟨_, rules, rfl, hread, fun r hr => ⟨(hrules r hr).1, (hrules r hr).2.reads⟩⟩
    · exact hes x hx hxend
  · funext other
    by_cases hother : other = language
    · have hnew := hopens'.find_within (ne_up_of_endsWith hend)
      rw [hrefusal, Entry.child?_setEntry, if_pos rfl] at hnew
      rw [hother, Function.update_self, storeOf_eq hlanguage, rulesAt_of_bytes (by rw [Disk.bytes, hnew]), hread,
        Option.getD_some]
    · rw [Function.update_of_ne hother]
      by_cases hslash : '/' ∈ other.toList
      · rw [storeOf, storeOf, if_pos hslash, if_pos hslash]
      · rw [storeOf_eq hslash, storeOf_eq hslash]
        exact rulesAt_setEntry hopens hopens' (ne_up_of_endsWith (endsWith_append other fileEnd))
          fun heq => hother (append_fileEnd_inj.mp heq)
  · intro ms hms
    have hplace : ms = ns := Except.ok.inj (hms.symm.trans hopens.located)
    rw [hplace]
    exact hsame

end Rules

end SourceAudit

namespace SourceAudit.Rules

/-! ### Operations that return or stop -/

/-- The operation returns as the first condition says, or stops at a fault in a state as the second
says. -/
@[irreducible] def Leads {α : Type} (e : Editor) (m : Edit α) (Q : α → Editor → Prop) (E : Editor → Prop) : Prop :=
  match m e with
  | (.ok a, e') => Q a e'
  | (.error _, e') => E e'

section

variable {α β : Type} {e : Editor} {m : Edit α} {P Q : α → Editor → Prop} {E : Editor → Prop}

theorem bind_apply (m : Edit α) (f : α → Edit β) (e : Editor) :
    (m >>= f) e =
      match m e with
      | (.ok a, e') => f a e'
      | (.error fault, e') => (.error fault, e') := by
  show (match m e with | (r, e') => ExceptT.bindCont f r e') = _
  rcases m e with ⟨r, e'⟩
  cases r <;> rfl

theorem Leads.bind {f : α → Edit β} {R : β → Editor → Prop} (hm : Leads e m P E)
    (hf : ∀ a e', P a e' → Leads e' (f a) R E) : Leads e (m >>= f) R E := by
  unfold Leads at hm hf ⊢
  rw [bind_apply]
  rcases hrun : m e with ⟨r, e'⟩
  rw [hrun] at hm
  cases r with
  | ok a => exact hf a e' hm
  | error fault => exact hm

theorem Leads.mono {E' : Editor → Prop} (hm : Leads e m P E) (h : ∀ a e', P a e' → Q a e')
    (hE : ∀ e', E e' → E' e') : Leads e m Q E' := by
  unfold Leads at hm ⊢
  rcases hrun : m e with ⟨r, e'⟩
  rw [hrun] at hm
  cases r with
  | ok a => exact h a e' hm
  | error fault => exact hE e' hm

theorem Leads.gives (hm : Leads e m Q E) (a : α) (e' : Editor) (hrun : m e = (.ok a, e')) : Q a e' := by
  rw [Leads, hrun] at hm
  exact hm

theorem Leads.returns (hm : Leads e m Q fun _ => False) : ∃ a e', m e = (.ok a, e') ∧ Q a e' := by
  unfold Leads at hm
  rcases hrun : m e with ⟨r, e'⟩
  rw [hrun] at hm
  cases r with
  | ok a => exact ⟨a, e', rfl, hm⟩
  | error fault => exact hm.elim

theorem Leads.after (hm : Leads e m (fun _ e' => E e') E) : E (m e).2 := by
  unfold Leads at hm
  rcases hrun : m e with ⟨r, e'⟩
  rw [hrun] at hm
  cases r with
  | ok a => exact hm
  | error fault => exact hm

theorem leads_of_apply {a : α} {e' : Editor} (hrun : m e = (.ok a, e')) (h : Q a e') : Leads e m Q E := by
  rw [Leads, hrun]
  exact h

theorem leads_pure {a : α} (h : Q a e) : Leads e (pure a) Q E := leads_of_apply rfl h

theorem Leads.step {f : α → Edit β} {R : β → Editor → Prop} {a : α} {e' : Editor} (hrun : m e = (.ok a, e'))
    (h : Leads e' (f a) R E) : Leads e (m >>= f) R E := by
  unfold Leads at h ⊢
  rw [bind_apply, hrun]
  exact h

theorem Leads.check_bind {r : Except Fault α} {f : α → Edit β} {R : β → Editor → Prop}
    (hok : ∀ a, r = .ok a → Leads e (f a) R E) (hfault : ∀ fault, r = .error fault → E e) :
    Leads e (Editor.check r >>= f) R E := by
  cases r with
  | ok a => exact .step rfl (hok a rfl)
  | error fault =>
    unfold Leads
    exact hfault fault rfl

end

/-! ### Reading -/

/-- The files and the listed rules are the same; the status need not be. -/
structure Untouched (e e' : Editor) : Prop where
  disk : e'.disk = e.disk
  rules : e'.rules = e.rules
  dir : e'.dir = e.dir

theorem Untouched.refl (e : Editor) : Untouched e e := ⟨rfl, rfl, rfl⟩

theorem Untouched.trans {e e₁ e₂ : Editor} (h : Untouched e e₁) (h' : Untouched e₁ e₂) : Untouched e e₂ :=
  ⟨h'.disk.trans h.disk, h'.rules.trans h.rules, h'.dir.trans h.dir⟩

theorem exists_setStatus (e : Editor) (s : String) :
    ∃ e', Untouched e e' ∧ Editor.setStatus s e = (.ok (), e') := by
  refine ⟨_, ?_, rfl⟩
  exact ⟨rfl, rfl, rfl⟩

/-- The entries of a rule file, none if it cannot be read. -/
def entriesIn (d : Disk) (p : Path) : Except Fault (List Value) :=
  (Editor.readEntries d p).map fun r => r.toOption.getD []

theorem exists_read (e : Editor) (p : Path) :
    ∃ e', Untouched e e' ∧ Editor.read p e = (entriesIn e.disk p, e') := by
  unfold entriesIn
  change ∃ e', Untouched e e' ∧ (Editor.check (Editor.readEntries e.disk p) >>= _) e = (_, e')
  rcases Editor.readEntries e.disk p with fault | (message | entries)
  · exact ⟨e, .refl e, rfl⟩
  · refine ⟨_, ?_, rfl⟩
    exact ⟨rfl, rfl, rfl⟩
  · exact ⟨e, .refl e, rfl⟩

/-! ### Listing -/

def shownOf (d : Disk) (p : Path) : Except Fault (List Listed) := do
  (← entriesIn d p).mapM (Listed.ofEntry (RuleSet.languageOfFile p.name))

/-- The entries of all rule files of a directory, as they are listed. -/
def shownIn (d : Disk) (dir : Path) : Except Fault (List Listed) := do
  let lists ← (RuleSet.ruleFiles (← d.list dir)).mapM (shownOf d)
  return lists.flatten

theorem shownOf_eq_ok {d : Disk} {p : Path} {ls : List Listed} : shownOf d p = .ok ls ↔
    ∃ entries, entriesIn d p = .ok entries ∧
      List.Forall₂ (fun x l => Listed.ofEntry (RuleSet.languageOfFile p.name) x = .ok l) entries ls := by
  simp only [shownOf, bind_eq_ok, mapM_eq_ok_iff]

theorem shownIn_eq_ok {d : Disk} {dir : Path} {rules : List Listed} : shownIn d dir = .ok rules ↔
    ∃ found lists, d.list dir = .ok found ∧
      List.Forall₂ (fun p ls => shownOf d p = .ok ls) (RuleSet.ruleFiles found) lists ∧ rules = lists.flatten := by
  simp only [shownIn, bind_eq_ok, mapM_eq_ok_iff]
  constructor
  · rintro ⟨found, hfound, lists, hlists, h⟩
    exact ⟨found, lists, hfound, hlists, (Except.ok.inj h).symm⟩
  · rintro ⟨found, lists, hfound, hlists, rfl⟩
    exact ⟨found, hfound, lists, hlists, rfl⟩

theorem mem_ruleFiles_iff {dir p : Path} {es : List (String × Entry)} :
    p ∈ RuleSet.ruleFiles (es.map fun x => (dir.within x.1, x.2)) ↔
      ∃ name e, (name, e) ∈ es ∧ Text.endsWith name RuleSet.fileEnd = true ∧ dir.within name = p := by
  simp only [RuleSet.ruleFiles, List.mem_map, List.mem_filter]
  constructor
  · rintro ⟨_, ⟨⟨⟨name, e⟩, hmem, rfl⟩, hend⟩, rfl⟩
    exact ⟨name, e, hmem, by simpa using hend, rfl⟩
  · rintro ⟨name, e, hmem, hend, rfl⟩
    exact ⟨_, ⟨⟨_, hmem, rfl⟩, by simpa using hend⟩, rfl⟩

/-- The listed rules have become these; the files are as they were. -/
structure Lists (e : Editor) (rules : List Listed) (e' : Editor) : Prop where
  rules : e'.rules = e.rules ++ rules
  disk : e'.disk = e.disk
  dir : e'.dir = e.dir

theorem mapM_cons_error {α β : Type} {f : α → Except Fault β} {x : α} {xs : List α} {fault : Fault}
    (h : f x = .error fault) : (x :: xs).mapM f = .error fault := by
  rw [List.mapM_cons, h]
  rfl

/-- Steps that each list what they find list all of it, and stop where nothing can be found. -/
theorem leads_forM {α β : Type} {step : α → Edit PUnit} {found : α → Except Fault β} (shown : β → List Listed)
    (d : Disk) (dir : Path)
    (hstep : ∀ x, ∀ e : Editor, e.disk = d → e.dir = dir →
      Leads e (step x) (fun _ e' => ∃ b, found x = .ok b ∧ Lists e (shown b) e')
        fun e' => (∃ fault, found x = .error fault) ∧ e'.disk = d ∧ e'.dir = dir) :
    ∀ (xs : List α) (e : Editor), e.disk = d → e.dir = dir →
      Leads e (xs.forM step) (fun _ e' => ∃ bs, xs.mapM found = .ok bs ∧ Lists e (bs.flatMap shown) e')
        fun e' => (∃ fault, xs.mapM found = .error fault) ∧ e'.disk = d ∧ e'.dir = dir
  | [], e, _, _ => leads_pure ⟨[], rfl, by simp, rfl, rfl⟩
  | x :: xs, e, hdisk, hdir => by
    refine ((hstep x e hdisk hdir).mono (fun _ _ h => h)
      fun _ ⟨⟨fault, hfault⟩, hsame⟩ => ⟨⟨fault, mapM_cons_error hfault⟩, hsame⟩).bind ?_
    rintro _ e₁ ⟨b, hb, hlists⟩
    have hmore := leads_forM shown d dir hstep xs e₁ (hlists.disk.trans hdisk) (hlists.dir.trans hdir)
    refine hmore.mono ?_ ?_
    · rintro _ e₂ ⟨bs, hbs, hlists₂⟩
      refine ⟨b :: bs, ?_, ?_, hlists₂.disk.trans hlists.disk, hlists₂.dir.trans hlists.dir⟩
      · rw [List.mapM_cons, hb, hbs]
        rfl
      · rw [hlists₂.rules, hlists.rules, List.flatMap_cons, List.append_assoc]
    · rintro e₂ ⟨⟨fault, hfault⟩, hsame⟩
      refine ⟨⟨fault, ?_⟩, hsame⟩
      rw [List.mapM_cons, hb, hfault]
      rfl

theorem leads_list (language : String) (entry : Value) (e : Editor) :
    Leads e (Editor.list language entry) (fun _ e' => ∃ r, Listed.ofEntry language entry = .ok r ∧ Lists e [r] e')
      fun e' => (∃ fault, Listed.ofEntry language entry = .error fault) ∧ e'.disk = e.disk ∧ e'.dir = e.dir :=
  .check_bind (fun r hr => leads_of_apply rfl ⟨r, hr, rfl, rfl, rfl⟩) fun fault hr => ⟨⟨fault, hr⟩, rfl, rfl⟩

theorem leads_listFile (p : Path) (e : Editor) :
    Leads e (Editor.listFile p) (fun _ e' => ∃ rs, shownOf e.disk p = .ok rs ∧ Lists e rs e')
      fun e' => (∃ fault, shownOf e.disk p = .error fault) ∧ e'.disk = e.disk ∧ e'.dir = e.dir := by
  obtain ⟨e₁, hsame, hrun⟩ := exists_read e p
  unfold Editor.listFile shownOf
  cases hentries : entriesIn e.disk p with
  | error fault =>
    rw [hentries] at hrun
    unfold Leads
    rw [bind_apply, hrun]
    exact ⟨⟨fault, rfl⟩, hsame.disk, hsame.dir⟩
  | ok entries =>
    rw [hentries] at hrun
    have hall := leads_forM (fun r => [r]) e.disk e.dir (fun entry e₂ hdisk hdir => by
      have hone := leads_list (RuleSet.languageOfFile p.name) entry e₂
      rw [hdisk, hdir] at hone
      exact hone) entries e₁ hsame.disk hsame.dir
    refine .step hrun (hall.mono ?_ fun _ h => h)
    rintro _ e₂ ⟨rs, hrs, hlists⟩
    refine ⟨rs, hrs, ?_, hlists.disk.trans hsame.disk, hlists.dir.trans hsame.dir⟩
    rw [hlists.rules, hsame.rules, List.flatMap_singleton']

/-- **Reading the directory again** makes it if it is missing, and lists the entries of all its rule
files; it stops where the directory cannot be made or an entry cannot be listed. -/
theorem leads_reload (e : Editor) :
    Leads e Editor.reload
      (fun _ e' => e.disk.makeDir e.dir = .ok e'.disk ∧ shownIn e'.disk e.dir = .ok e'.rules ∧ e'.dir = e.dir)
      fun e' => e'.dir = e.dir ∧ (((∃ fault, e.disk.makeDir e.dir = .error fault) ∧
          e'.disk = e.disk.tryMakeDir e.dir) ∨
        (e.disk.makeDir e.dir = .ok e'.disk ∧ ∃ fault, shownIn e'.disk e.dir = .error fault)) := by
  unfold Editor.reload Editor.openDir
  refine .step rfl ?_
  simp only [bind_assoc, pure_bind]
  refine .step rfl (.step rfl (.check_bind (fun d hd => .step rfl (.check_bind (fun found hfound => ?_) ?_)) ?_))
  · have hshown : ∀ r, (RuleSet.ruleFiles found).mapM (shownOf d) = r → shownIn d e.dir = r.map List.flatten := by
      rintro r rfl
      rw [shownIn, hfound]
      rfl
    have hfiles := leads_forM (fun rs => rs) d e.dir (fun p e₂ hdisk hdir => by
      have hone := leads_listFile p e₂
      rw [hdisk, hdir] at hone
      exact hone) (RuleSet.ruleFiles found) { e with rules := [], disk := d } rfl rfl
    refine (hfiles.mono (fun _ _ h => h) ?_).bind ?_
    · rintro e₂ ⟨⟨fault, hfault⟩, hdisk, hdir⟩
      refine ⟨hdir, .inr ⟨?_, fault, ?_⟩⟩
      · rw [hdisk]
        exact hd
      · rw [hdisk, hshown _ hfault]
        rfl
    · rintro _ e₂ ⟨lists, hlists, hend⟩
      refine leads_of_apply rfl ⟨?_, ?_, hend.dir⟩
      · show e.disk.makeDir e.dir = .ok e₂.disk
        rw [hend.disk]
        exact hd
      · show shownIn e₂.disk e.dir = .ok e₂.rules
        rw [hend.disk, hshown _ hlists, hend.rules, List.flatMap_id']
        rfl
  · exact fun fault hfault => ⟨rfl, .inr ⟨hd, fault, by rw [shownIn, hfault]; rfl⟩⟩
  · exact fun fault hfault => ⟨rfl, .inl ⟨⟨fault, hfault⟩, rfl⟩⟩

theorem exists_reload {e : Editor} {es : List (String × Entry)} (hdir : e.disk.find e.dir = .ok (.dir es))
    (hok : (Editor.reload e).1 = .ok ()) :
    ∃ e', Editor.reload e = (.ok (), e') ∧ e'.disk = e.disk ∧ e'.dir = e.dir := by
  obtain ⟨ns, hopens⟩ := Disk.exists_opens hdir
  rcases hrun : Editor.reload e with ⟨r, e'⟩
  rw [hrun] at hok
  obtain rfl : r = .ok () := hok
  obtain ⟨hmade, -, hdir'⟩ := (leads_reload e).gives () e' hrun
  rw [hopens.makeDir] at hmade
  exact ⟨e', rfl, (Except.ok.inj hmade).symm, hdir'⟩

end SourceAudit.Rules
