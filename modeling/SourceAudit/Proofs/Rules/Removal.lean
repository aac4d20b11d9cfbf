/-
# A rule that is added can be removed

When a rule is added, it is listed under the key made of the name of its language and
its identifier, and deleting that key brings the entries of all files back. A key is cut
at its first colon and the language of a rule file is read from its name, so there are
names for which this does not work: a name with a colon cannot be found in the key
again, a name with the end of the names of rule files inside loses it when the rules are
listed, and a name with a slash leads out of the directory.

The deletion lists all the rules of the directory anew, and a directory that could be
listed with the rule can be listed without it (`PutIn.exists_shownIn`).
-/
import SourceAudit.Proofs.Rules.Uniqueness
import SourceAudit.Proofs.Text.Case

namespace SourceAudit

/-! ### Looking for a text -/

namespace Text

theorem indexFrom_append_cons {c : Char} {rest : List Char} : ∀ {cs : List Char} (at' : Nat), c ∉ cs →
    indexFrom [c] at' (cs ++ c :: rest) = some (at' + cs.length)
  | [], at', _ => by simp [indexFrom]
  | x :: cs, at', h => by
    rw [List.mem_cons, not_or] at h
    rw [List.cons_append, indexFrom, if_neg (by simpa using h.1), indexFrom_append_cons (at' + 1) h.2,
      List.length_cons]
    congr 1
    omega

theorem cutAt_colon {s : String} (h : ':' ∉ s.toList) (t : String) : cutAt (s ++ ":" ++ t) ":" = (s, some t) := by
  have hlist : (s ++ ":" ++ t).toList = s.toList ++ ':' :: t.toList := by simp
  have hindex : indexOf? ":" (s ++ ":" ++ t) = some s.toList.length := by
    rw [indexOf?, hlist]
    exact (indexFrom_append_cons 0 h).trans (by rw [Nat.zero_add])
  have hlength : ":".length = 1 := rfl
  rw [cutAt, hindex]
  dsimp only
  rw [hlist, hlength, List.take_left, ← List.drop_drop, List.drop_left]
  simp

theorem not_infix_of_indexFrom {needle : List Char} : ∀ {cs : List Char} {at' : Nat},
    indexFrom needle at' cs = none → ¬needle <:+: cs
  | [], at', h => by
    rw [indexFrom] at h
    rw [List.infix_nil]
    rintro rfl
    cases h
  | c :: cs, at', h => by
    rw [indexFrom] at h
    split_ifs at h with hfront
    rw [List.infix_cons_iff, ← List.isPrefixOf_iff_prefix]
    exact not_or.mpr ⟨hfront, not_infix_of_indexFrom h⟩

theorem replaceFrom_of_length_le {old new done : List Char} : ∀ {cs : List Char} {skip : Nat}, cs.length ≤ skip →
    replaceFrom old new done skip cs = done.reverse
  | [], skip, _ => by rw [replaceFrom]
  | c :: cs, 0, h => absurd h (by simp)
  | c :: cs, skip + 1, h => by
    rw [replaceFrom]
    exact replaceFrom_of_length_le (Nat.le_of_succ_le_succ h)

/-- An ending is dropped from behind a text that it does not occur in: its first character stands in
it only once. -/
theorem replaceFrom_append {c : Char} {tail : List Char} (hc : c ∉ tail) : ∀ {cs : List Char} (done : List Char),
    ¬(c :: tail) <:+: cs → replaceFrom (c :: tail) [] done 0 (cs ++ c :: tail) = done.reverse ++ cs
  | [], done, _ => by
    rw [List.nil_append, replaceFrom, if_pos (by simp), List.reverse_nil, List.nil_append, List.append_nil]
    exact replaceFrom_of_length_le (by simp)
  | x :: cs, done, h => by
    have hfront : ¬(c :: tail) <+: (x :: cs) ++ c :: tail := by
      intro hfront
      rcases List.prefix_or_prefix_of_prefix hfront (List.prefix_append _ _) with hin | ⟨rest, hrest⟩
      · exact h hin.isInfix
      · cases rest with
        | nil =>
          rw [List.append_nil] at hrest
          exact h (by rw [hrest])
        | cons y rest =>
          -- what reaches behind the text would start with the first character again
          have hagain : y :: rest <+: c :: tail := by
            rw [← hrest] at hfront ⊢
            exact (List.prefix_append_right_inj (x :: cs)).mp hfront
          obtain rfl : y = c := (List.cons_prefix_cons.mp hagain).1
          have htail : tail = cs ++ y :: rest := by
            rw [List.cons_append] at hrest
            exact (List.cons.inj hrest).2.symm
          exact hc (by rw [htail]; simp)
    have hrest : ¬(c :: tail) <:+: cs := fun hin => h (List.infix_cons hin)
    rw [List.cons_append, replaceFrom, if_neg (by rwa [List.isPrefixOf_iff_prefix]),
      replaceFrom_append hc (x :: done) hrest, List.reverse_cons, List.append_assoc]
    rfl

end Text

namespace Rules

open RuleSet (fileEnd)
open Editor (languageName splitKey written)

/-! ### Keys and names of files -/

theorem languageOfFile_append {language : String} (h : Text.contains language fileEnd = false) :
    RuleSet.languageOfFile (language ++ fileEnd) = language := by
  have hend : fileEnd.toList = '_' :: "rules.json".toList := rfl
  have hnone : ¬('_' :: "rules.json".toList) <:+: language.toList := by
    rw [Text.contains, Option.isSome_eq_false_iff, Option.isNone_iff_eq_none] at h
    rw [← hend]
    exact Text.not_infix_of_indexFrom h
  have hdropped := Text.replaceFrom_append (by decide) [] hnone
  rw [RuleSet.languageOfFile, Text.replaceAll, String.toList_append, hend, String.toList_empty, hdropped]
  simp

theorem languageName_languageName (s : String) : languageName (languageName s) = languageName s := by
  have hpython : languageName "python" = "python" := by decide +kernel
  by_cases hpy : (Text.lower (Text.strip s) == "py") = true
  · have hname : languageName s = "python" := by
      unfold languageName
      dsimp only
      rw [if_pos hpy]
    rw [hname, hpython]
  · have hname : languageName s = Text.lower (Text.strip s) := by
      unfold languageName
      dsimp only
      rw [if_neg hpy]
    rw [hname, languageName, Text.strip_lower_strip, Text.lower_lower, if_neg hpy]

/-- The key of a rule is cut where it was joined, unless there is a colon in the name of the language. -/
theorem splitKey_append {s : String} (h : ':' ∉ (languageName s).toList) (id : String) :
    splitKey (languageName s ++ ":" ++ id) = (languageName s, id) := by
  rw [splitKey, Text.cutAt_colon h]
  dsimp only
  rw [languageName_languageName]

theorem ne_empty_of_formRefusal {language : String} {f : Form} (h : Editor.formRefusal language f = .ok none) :
    language ≠ "" ∧ Text.strip f.id ≠ "" := by
  unfold Editor.formRefusal at h
  split_ifs at h with hempty
  · cases h
  · simp only [Bool.or_eq_true, beq_iff_eq, List.any_cons, not_or] at hempty
    exact ⟨hempty.1, hempty.2.1⟩

/-! ### What can be listed -/

theorem exists_forall₂ {α β : Type} {R : α → β → Prop} : ∀ {xs : List α}, (∀ x ∈ xs, ∃ y, R x y) → ∃ ys, List.Forall₂ R xs ys
  | [], _ => ⟨[], .nil⟩
  | x :: xs, h => by
    rw [List.forall_mem_cons] at h
    obtain ⟨y, hy⟩ := h.1
    obtain ⟨ys, hys⟩ := exists_forall₂ h.2
    exact ⟨y :: ys, .cons hy hys⟩

/-- The entries can all be listed, as entries of a file of this name. -/
def Listable (name : String) (entries : List Value) : Prop :=
  ∀ x ∈ entries, ∃ l, Listed.ofEntry (RuleSet.languageOfFile name) x = .ok l

theorem exists_shownOf {d : Disk} {p : Path} {entries : List Value} (hread : entriesIn d p = .ok entries)
    (h : Listable p.name entries) : ∃ ls, shownOf d p = .ok ls := by
  obtain ⟨ls, hls⟩ := exists_forall₂ h
  exact ⟨ls, shownOf_eq_ok.mpr ⟨entries, hread, hls⟩⟩

theorem key_of_ofEntry {language id : String} {e : Value} {l : Listed} (hl : Listed.ofEntry language e = .ok l)
    (hid : e.field? "id" = some (.str id)) : l.key = language ++ ":" ++ id := by
  unfold Listed.ofEntry at hl
  split_ifs at hl
  split at hl
  · cases hl
  · obtain rfl := Except.ok.inj hl
    simp [Listed.key, hid, Value.display]

theorem exists_ofEntry_newEntry (language name : String) (f : Form) :
    ∃ l, Listed.ofEntry language (newEntry name f) = .ok l := by
  unfold newEntry
  dsimp only
  split_ifs <;> exact ⟨_, rfl⟩

section

variable {d d' : Disk} {dir : Path} {ns : List String} {es : List (String × Entry)} {name : String}
  {rules : List Listed}

/-- Each rule file of a directory that is listed can be listed, and its rules are among the listed. -/
theorem exists_shownOf_of_shownIn (h : d.Opens dir ns es) (hshown : shownIn d dir = .ok rules) {e : Entry}
    (hmem : (name, e) ∈ es) (hend : Text.endsWith name fileEnd = true) :
    ∃ ls, shownOf d (dir.within name) = .ok ls ∧ ls ⊆ rules := by
  obtain ⟨found, lists, hfound, hlists, rfl⟩ := shownIn_eq_ok.mp hshown
  obtain rfl := Except.ok.inj (h.list.symm.trans hfound)
  obtain ⟨ls, hls, hof⟩ := exists_mem_of_forall₂ hlists (mem_ruleFiles_iff.mpr ⟨name, e, hmem, hend, rfl⟩)
  exact ⟨ls, hof, fun l hl => List.mem_flatten.mpr ⟨ls, hls, hl⟩⟩

theorem exists_shownIn (h : d.Opens dir ns es)
    (hfiles : ∀ x ∈ es, Text.endsWith x.1 fileEnd = true → ∃ ls, shownOf d (dir.within x.1) = .ok ls) :
    ∃ rules, shownIn d dir = .ok rules := by
  have hall : ∀ p ∈ RuleSet.ruleFiles (es.map fun x => (dir.within x.1, x.2)), ∃ ls, shownOf d p = .ok ls := by
    intro p hp
    obtain ⟨name, e, hmem, hend, rfl⟩ := mem_ruleFiles_iff.mp hp
    exact hfiles (name, e) hmem hend
  obtain ⟨lists, hlists⟩ := exists_forall₂ hall
  exact ⟨lists.flatten, shownIn_eq_ok.mpr ⟨_, lists, h.list, hlists, rfl⟩⟩

/-! ### Writing in a directory that is there -/

theorem entriesIn_within (h : d.Opens dir ns es) (hname : name ≠ "..") (hrefusal : (dir.within name).refusal? = none) :
    entriesIn d (dir.within name) =
      match (Entry.dir es).child? name with
      | some (.file bs) => entriesOfBytes bs
      | _ => .ok [] := by
  rw [entriesIn_eq, h.find_within hname, hrefusal]
  rcases (Entry.dir es).child? name with _ | (_ | _) <;> rfl

theorem entriesAt_within (h : d.Opens dir ns es) (hname : name ≠ "..") (hrefusal : (dir.within name).refusal? = none)
    {entries : List Value} (hread : entriesIn d (dir.within name) = .ok entries) :
    entriesAt d (ns ++ [name]) = entries := by
  rw [entriesIn_within h hname hrefusal] at hread
  rw [entriesAt, Entry.get?_snoc h.entries]
  cases hchild : (Entry.dir es).child? name with
  | none =>
    rw [hchild] at hread
    exact Except.ok.inj hread
  | some e =>
    rw [hchild] at hread
    cases e with
    | dir fs => exact Except.ok.inj hread
    | file bs =>
      dsimp only at hread ⊢
      rw [hread]
      rfl

/-- A rule file with these entries has been set in the directory, and no other file has changed. -/
structure PutIn (d : Disk) (dir : Path) (ns : List String) (es : List (String × Entry)) (name : String)
    (entries : List Value) (bs : List UInt8) (d' : Disk) : Prop where
  before : d.Opens dir ns es
  after : d'.Opens dir ns (Entry.setEntry name (.file bs) es)
  plain : name ≠ ".."
  allowed : (dir.within name).refusal? = none
  holds : entriesOfBytes bs = .ok entries
  same : Disk.SameFilesBut [ns ++ [name]] d d'

theorem written_eq_write (h : d.Opens dir ns es) (entries : List Value) :
    written d (dir.within name) entries =
      d.write (dir.within name) (Utf8.encode (Editor.fileText (RuleSet.languageOfFile name) entries)) := by
  rw [written, Path.parent_within, h.makeDir, Path.name_within]
  rfl

theorem putIn_of_written {entries : List Value} (h : d.Opens dir ns es) (hname : name ≠ "..")
    (hentries : ∀ x ∈ entries, x.Legible) (hwritten : written d (dir.within name) entries = .ok d') :
    PutIn d dir ns es name entries (Utf8.encode (Editor.fileText (RuleSet.languageOfFile name) entries)) d' := by
  rw [written_eq_write h] at hwritten
  obtain ⟨hallowed, hafter, hsame⟩ := h.write hname hwritten
  exact ⟨h, hafter, hname, hallowed, entriesOfBytes_fileText _ hentries, hsame⟩

namespace PutIn

variable {entries : List Value} {bs : List UInt8} (h : PutIn d dir ns es name entries bs d')

include h

theorem read : entriesIn d' (dir.within name) = .ok entries := by
  rw [entriesIn_within h.after h.plain h.allowed, Entry.child?_setEntry, if_pos rfl]
  exact h.holds

theorem read_of_ne {other : String} (hup : other ≠ "..") (hne : other ≠ name) :
    entriesIn d' (dir.within other) = entriesIn d (dir.within other) := by
  rw [entriesIn_eq, entriesIn_eq, h.after.find_within hup, h.before.find_within hup, Entry.child?_setEntry,
    if_neg hne]

theorem entriesAt_of_ne {place : List String} (hne : place ≠ ns ++ [name]) : entriesAt d' place = entriesAt d place :=
  entriesAt_congr (h.same place (by simpa using hne))

theorem exists_written (new : List Value) : ∃ d'', written d' (dir.within name) new = .ok d'' := by
  rw [written_eq_write h.after]
  refine ⟨_, h.after.write_eq h.plain h.allowed ?_ _⟩
  intro fs
  rw [Entry.child?_setEntry, if_pos rfl]
  simp

/-- **A directory that can be listed can be listed after a file is written**, if the entries of that
file can. -/
theorem exists_shownIn (hshown : shownIn d dir = .ok rules) (hentries : Listable name entries) :
    ∃ rules', shownIn d' dir = .ok rules' := by
  refine Rules.exists_shownIn h.after ?_
  rintro ⟨other, e⟩ hother hend
  by_cases hne : other = name
  · rw [hne]
    refine exists_shownOf h.read ?_
    rw [Path.name_within]
    exact hentries
  · have hmem := (Entry.mem_setEntry hother).resolve_left fun heq => hne (Prod.mk.inj heq).1
    obtain ⟨ls, hls, -⟩ := exists_shownOf_of_shownIn h.before hshown hmem hend
    refine ⟨ls, ?_⟩
    rw [shownOf, h.read_of_ne (ne_up_of_endsWith hend) hne]
    exact hls

theorem exists_listed (hshown : shownIn d' dir = .ok rules) (hend : Text.endsWith name fileEnd = true) {x : Value}
    (hx : x ∈ entries) : ∃ l ∈ rules, Listed.ofEntry (RuleSet.languageOfFile name) x = .ok l := by
  obtain ⟨ls, hls, hsub⟩ := exists_shownOf_of_shownIn h.after hshown (Entry.mem_setEntry_self name (.file bs) es) hend
  obtain ⟨entries', hread, hlisted⟩ := shownOf_eq_ok.mp hls
  obtain rfl := Except.ok.inj (h.read.symm.trans hread)
  rw [Path.name_within] at hlisted
  obtain ⟨l, hl, hof⟩ := exists_mem_of_forall₂ hlisted hx
  exact ⟨l, hsub hl, hof⟩

end PutIn

end

/-! ### Adding -/

theorem Granted.planned {e : Editor} {language : String} {f : Form} {entries : List Value}
    (h : Granted e language f entries) :
    (Request.add language f).planned e = .ok (some ⟨[⟨e.dir.child (languageName language ++ fileEnd),
      entries ++ [newEntry (languageName language) f]⟩], "已新增规则 " ++ f.id⟩) := by
  rw [Request.planned, h.form]
  dsimp only [bind, Except.bind]
  rw [h.read]
  dsimp only
  rw [h.free]
  rfl

/-- A rule has been added behind these entries of the file of its language, and the rules are listed. -/
structure Added (e : Editor) (language : String) (f : Form) (ns : List String) (es : List (String × Entry))
    (entries : List Value) (bs : List UInt8) (e' : Editor) : Prop where
  granted : Granted e language f entries
  put : PutIn e.disk e.dir ns es (languageName language ++ fileEnd)
    (entries ++ [newEntry (languageName language) f]) bs e'.disk
  dir : e'.dir = e.dir
  shown : shownIn e'.disk e.dir = .ok e'.rules

section

variable {e e' : Editor} {language : String} {f : Form} {ns : List String} {es : List (String × Entry)}

theorem ne_up_append_fileEnd (s : String) : s ++ fileEnd ≠ ".." :=
  ne_up_of_endsWith (endsWith_append s fileEnd)

theorem added_of_add (h : e.disk.Opens e.dir ns es) (hslash : '/' ∉ (languageName language).toList)
    (hadd : Editor.add language f e = (.ok true, e')) : ∃ entries bs, Added e language f ns es entries bs e' := by
  rcases (leads_perform (.add language f) e).gives true e' hadd with
    ⟨hfalse, -⟩ | ⟨-, plan, d, hplan, hfiled, hmade, hshown, hdir⟩
  · cases hfalse
  have hwrites := writes_of_planned hplan
  generalize plan.drafts = drafts at hwrites hfiled
  cases hwrites with
  | @add _ _ entries hgranted =>
    rw [filed_singleton, child_fileEnd hslash] at hfiled
    have hput := putIn_of_written h (ne_up_append_fileEnd _) hgranted.legible hfiled
    obtain rfl := Except.ok.inj (hput.after.makeDir.symm.trans hmade)
    exact ⟨entries, _, hgranted, hput, hdir, hshown⟩

/-- **A rule that is granted is added**, in a directory that can be listed, unless the path of its file
is refused or a directory stands there. -/
theorem exists_add (h : e.disk.Opens e.dir ns es) (hslash : '/' ∉ (languageName language).toList)
    {entries : List Value} (hgranted : Granted e language f entries)
    (hallowed : (e.dir.within (languageName language ++ fileEnd)).refusal? = none)
    (hfile : ∀ fs, (Entry.dir es).child? (languageName language ++ fileEnd) ≠ some (.dir fs))
    {rules : List Listed} (hshown : shownIn e.disk e.dir = .ok rules)
    (hentries : Listable (languageName language ++ fileEnd) entries) :
    ∃ e', Editor.add language f e = (.ok true, e') := by
  have hwritten := (written_eq_write h (entries ++ [newEntry (languageName language) f])).trans
    (h.write_eq (ne_up_append_fileEnd _) hallowed hfile _)
  have hput := putIn_of_written h (ne_up_append_fileEnd _) hgranted.legible hwritten
  have hnew : Listable (languageName language ++ fileEnd)
      (entries ++ [newEntry (languageName language) f]) := by
    intro x hx
    rcases List.mem_append.mp hx with hx | hx
    · exact hentries x hx
    · rw [List.mem_singleton.mp hx]
      exact exists_ofEntry_newEntry _ _ f
  obtain ⟨rules', hshown'⟩ := hput.exists_shownIn hshown hnew
  rw [← child_fileEnd hslash] at hwritten
  obtain ⟨e', hrun, -⟩ := exists_performed hgranted.planned (filed_singleton.mpr hwritten) hput.after.makeDir hshown'
  exact ⟨e', hrun⟩

theorem Added.exists_key {entries : List Value} {bs : List UInt8} (h : Added e language f ns es entries bs e')
    (hname : Text.contains (languageName language) fileEnd = false) :
    ∃ r ∈ e'.rules, r.key = languageName language ++ ":" ++ Text.strip f.id := by
  obtain ⟨r, hr, hof⟩ := h.put.exists_listed h.shown (endsWith_append _ fileEnd)
    (List.mem_append_right _ List.mem_cons_self)
  rw [languageOfFile_append hname] at hof
  exact ⟨r, hr, key_of_ofEntry hof (field?_newEntry _ f)⟩

/-! ### Deleting -/

theorem planned_delete {key language id : String} {entries kept : List Value}
    (hkey : splitKey key = (language, id)) (hlanguage : language ≠ "") (hid : id ≠ "")
    (hread : entriesIn e.disk (e.dir.child (language ++ fileEnd)) = .ok entries) (hkept : without id entries = .ok kept) :
    (Request.delete key).planned e = .ok (if kept.length = entries.length then none
      else some ⟨[⟨e.dir.child (language ++ fileEnd), kept⟩], "已删除规则 " ++ id⟩) := by
  rw [Request.planned, hkey]
  dsimp only
  rw [if_neg (by simp [hlanguage, hid]), hread]
  dsimp only [bind, Except.bind]
  rw [hkept]
  simp only [beq_iff_eq]
  split_ifs <;> rfl

theorem without_newEntry {entries : List Value} (hgranted : Granted e language f entries)
    (hclash : ¬(Request.add language f).Clashes e) :
    without (Text.strip f.id) (entries ++ [newEntry (languageName language) f]) = .ok entries := by
  have hfree := hasId_eq_false hgranted.free fun hused => hclash ⟨entries, hgranted.read, hgranted.free, hused⟩
  have hold : ∀ x ∈ entries, x.isObject = true ∧ (x.field "id").same (.str (Text.strip f.id)) = false :=
    fun x hx => entryHasId_eq_ok.mp (forall_of_hasId hfree x hx)
  have hnew : ((newEntry (languageName language) f).field "id").same (.str (Text.strip f.id)) = true := by
    rw [Value.field, field?_newEntry, Option.getD_some]
    simp [Value.same]
  have hall : ∀ x ∈ entries ++ [newEntry (languageName language) f],
      entryHasId (Text.strip f.id) x = .ok ((x.field "id").same (.str (Text.strip f.id))) := by
    intro x hx
    refine entryHasId_eq_ok.mpr ⟨?_, rfl⟩
    rcases List.mem_append.mp hx with hx | hx
    · exact (hold x hx).1
    · rw [List.mem_singleton.mp hx]
      rfl
  have hkept : entries.filter (fun x => !(x.field "id").same (.str (Text.strip f.id))) = entries :=
    List.filter_eq_self.mpr fun x hx => by rw [(hold x hx).2]; rfl
  rw [without_of_forall hall, List.filter_append, hkept, List.filter_singleton, hnew]
  simp

/-- **Deleting what was added brings all entries back.** -/
theorem Added.exists_delete {entries : List Value} {bs : List UInt8} (h : Added e language f ns es entries bs e')
    (hslash : '/' ∉ (languageName language).toList) (hcolon : ':' ∉ (languageName language).toList)
    (hclash : ¬(Request.add language f).Clashes e) :
    ∃ e'', Editor.delete (languageName language ++ ":" ++ Text.strip f.id) e' = (.ok true, e'') ∧
      ∀ place, entriesAt e''.disk place = entriesAt e.disk place := by
  obtain ⟨hlanguage, hid⟩ := ne_empty_of_formRefusal h.granted.form
  have hread : entriesIn e'.disk (e'.dir.child (languageName language ++ fileEnd)) =
      .ok (entries ++ [newEntry (languageName language) f]) := by
    rw [h.dir, child_fileEnd hslash]
    exact h.put.read
  have hlisted : Listable (languageName language ++ fileEnd) entries := by
    intro x hx
    obtain ⟨l, -, hl⟩ := h.put.exists_listed h.shown (endsWith_append _ fileEnd) (List.mem_append_left _ hx)
    exact ⟨l, hl⟩
  obtain ⟨d, hwritten⟩ := h.put.exists_written entries
  have hput := putIn_of_written h.put.after h.put.plain (legible_entriesIn h.granted.read) hwritten
  obtain ⟨rules, hshown⟩ := hput.exists_shownIn h.shown hlisted
  have hplan := planned_delete (splitKey_append hcolon _) hlanguage hid hread (without_newEntry h.granted hclash)
  rw [if_neg (by simp)] at hplan
  rw [← h.dir, ← child_fileEnd hslash] at hwritten
  have hmade := hput.after.makeDir
  rw [← h.dir] at hmade hshown
  obtain ⟨e'', hrun, hdisk⟩ := exists_performed hplan (filed_singleton.mpr hwritten) hmade hshown
  refine ⟨e'', hrun, ?_⟩
  intro place
  rw [hdisk]
  by_cases hplace : place = ns ++ [languageName language ++ fileEnd]
  · have hbefore := h.granted.read
    rw [child_fileEnd hslash] at hbefore
    rw [hplace, entriesAt_within hput.after hput.plain hput.allowed hput.read,
      entriesAt_within h.put.before h.put.plain h.put.allowed hbefore]
  · rw [hput.entriesAt_of_ne hplace, h.put.entriesAt_of_ne hplace]

/-- **A rule that is added can be found and removed.** It is listed under its key, unless the name of
its language has the end of the name of a rule file inside, and deleting that key brings all entries
back, unless the name has a colon or other entries have the same identifier. -/
theorem delete_undoes_add (hdir : e.disk.find e.dir = .ok (.dir es))
    (hslash : '/' ∉ (Editor.languageName language).toList) (hadd : Editor.add language f e = (.ok true, e')) :
    (Text.contains (Editor.languageName language) fileEnd = false →
      ∃ r ∈ e'.rules, r.key = Editor.languageName language ++ ":" ++ Text.strip f.id) ∧
    (':' ∉ (Editor.languageName language).toList → ¬(Request.add language f).Clashes e →
      ∃ e'', Editor.delete (Editor.languageName language ++ ":" ++ Text.strip f.id) e' = (.ok true, e'') ∧
        ∀ place, entriesAt e''.disk place = entriesAt e.disk place) := by
  obtain ⟨ns, hopens⟩ := Disk.exists_opens hdir
  obtain ⟨entries, bs, hadded⟩ := added_of_add hopens hslash hadd
  exact ⟨hadded.exists_key, hadded.exists_delete hslash⟩

end

def blanksAround : Form := ⟨" B ", "n", "x", "", ""⟩

theorem granted_blanksAround : Granted oneRule " C" blanksAround [.object [("id", .str "A")]] := by
  have hlanguage : languageName " C" = languageName "c" := by decide +kernel
  refine ⟨by decide +kernel, ?_, by decide +kernel⟩
  rw [hlanguage]
  exact entriesIn_oneRule

theorem exists_add_blanksAround : ∃ e', Editor.add " C" blanksAround oneRule = (.ok true, e') := by
  have hopens : oneRule.disk.Opens oneRule.dir ["rules"] [("c_rules.json",
      .file (Utf8.encode (Editor.fileText "c" [.object [("id", .str "A")]])))] := ⟨by decide +kernel, rfl⟩
  have hlanguage : languageName " C" = "c" := by decide +kernel
  have hfile : oneRule.dir.child (languageName " C" ++ fileEnd) = oneRule.dir.within "c_rules.json" := by
    decide +kernel
  have hlistable : Listable (languageName " C" ++ fileEnd) [.object [("id", .str "A")]] := by
    intro x hx
    rw [List.mem_singleton.mp hx]
    exact ⟨_, rfl⟩
  have hread := granted_blanksAround.read
  rw [hfile] at hread
  obtain ⟨rules, hshown⟩ := exists_shownIn hopens (by
    rw [List.forall_mem_singleton]
    intro _
    refine exists_shownOf hread ?_
    rw [hlanguage] at hlistable
    exact hlistable)
  refine exists_add hopens (by decide +kernel) granted_blanksAround (by decide +kernel) ?_ hshown hlistable
  intro fs
  rw [hlanguage]
  simp [Entry.child?, Entry.entries]

theorem delete_undoes_add_blanksAround :
    ∃ e', Editor.add " C" blanksAround oneRule = (.ok true, e') ∧ (∃ r ∈ e'.rules, r.key = "c:B") ∧
      ∃ e'', Editor.delete "c:B" e' = (.ok true, e'') ∧
        entriesAt e''.disk ["rules", "c_rules.json"] = [.object [("id", .str "A")]] := by
  obtain ⟨e', hadd⟩ := exists_add_blanksAround
  have hslash : '/' ∉ (Editor.languageName " C").toList := by decide +kernel
  have hcolon : ':' ∉ (Editor.languageName " C").toList := by decide +kernel
  have hend : Text.contains (Editor.languageName " C") fileEnd = false := by decide +kernel
  have hkey : Editor.languageName " C" ++ ":" ++ Text.strip blanksAround.id = "c:B" := by decide +kernel
  have hclash : ¬(Request.add " C" blanksAround).Clashes oneRule := by
    rintro ⟨entries, hread, -, hused⟩
    obtain rfl := Except.ok.inj (granted_blanksAround.read.symm.trans hread)
    exact absurd hused (by decide +kernel)
  obtain ⟨hfound, hdelete⟩ := delete_undoes_add (find_rules _) hslash hadd
  rw [hkey] at hfound hdelete
  obtain ⟨e'', hrun, hback⟩ := hdelete hcolon hclash
  refine ⟨e', hadd, hfound hend, e'', hrun, ?_⟩
  rw [hback, entriesAt_oneRule, if_pos rfl]

/-- An editor of a directory without rule files. -/
def noRules : Editor where
  dir := ⟨"/", ["rules"]⟩
  disk := ⟨.dir [("rules", .dir [])], []⟩
  rules := []
  status := ""
  notices := []

/-- The form of a rule for a language with a colon in its name. -/
def plainForm : Form := ⟨"X", "n", "p", "", ""⟩

/-- A rule of a language with a colon in its name is listed, but its key leads to another language. -/
theorem colon_splits_key :
    ∃ e', Editor.add "a:b" plainForm noRules = (.ok true, e') ∧ (∃ r ∈ e'.rules, r.key = "a:b:X") ∧
      ∃ e'', Editor.delete "a:b:X" e' = (.ok false, e'') := by
  have hopens : noRules.disk.Opens noRules.dir ["rules"] [] := ⟨by decide +kernel, rfl⟩
  have hlanguage : Editor.languageName "a:b" = "a:b" := by decide +kernel
  have hslash : '/' ∉ (Editor.languageName "a:b").toList := by decide +kernel
  have hgranted : Granted noRules "a:b" plainForm [] := ⟨by decide +kernel, rfl, rfl⟩
  have hshown : shownIn noRules.disk noRules.dir = .ok [] := rfl
  obtain ⟨e', hadd⟩ := exists_add hopens hslash hgranted (by decide +kernel)
    (fun fs => by simp [Entry.child?, Entry.entries]) hshown (by simp [Listable])
  obtain ⟨entries, bs, hadded⟩ := added_of_add hopens hslash hadd
  have hkey := hadded.exists_key (by decide +kernel)
  have hread : entriesIn e'.disk (e'.dir.child ("a" ++ fileEnd)) = .ok [] := by
    have hother := hadded.put.read_of_ne (by decide : "a_rules.json" ≠ "..") (by rw [hlanguage]; decide)
    have hchild : noRules.dir.child ("a" ++ fileEnd) = noRules.dir.within "a_rules.json" := by decide +kernel
    rw [hadded.dir, hchild, hother]
    rfl
  have hplan := planned_delete (by decide +kernel : Editor.splitKey "a:b:X" = ("a", "b:X")) (by decide) (by decide) hread rfl
  obtain ⟨e'', hrun⟩ := exists_refused hplan
  refine ⟨e', hadd, ?_, e'', hrun⟩
  rw [hlanguage] at hkey
  exact hkey

end Rules

end SourceAudit
