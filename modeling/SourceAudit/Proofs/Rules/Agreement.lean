/-
# The rules that are listed and the rules that are used

The editor and the rule set read the same files. If the editor has listed the rules of a
directory, and no rule file is a bare list of entries, then the rule set can be loaded
(`foldlM_readFile`), and for a language with one rule file it has the rules that are
listed as enabled, in the same order (`load_agrees`). A rule file that is a bare list
stops the rule set. A language has more than one rule file if the common end of their
names stands in a name twice; the rule set then keeps the last.
-/
import SourceAudit.Proofs.Rules.Refinement

namespace SourceAudit

variable {language : String} {ls : List Listed} {d : Disk} {entries : List Value} {e : Value}

/-! ### Rule sets -/

namespace RuleSet

theorem get?_insert (language other : String) (rules : List Rule) : ∀ set : RuleSet,
    (set.insert language rules).get? other = if other = language then some rules else set.get? other
  | [] => by
    by_cases h : other = language
    · simp [insert, get?, h]
    · simp [insert, get?, h, Ne.symm h]
  | (l, rs) :: rest => by
    have ih := get?_insert language other rules rest
    by_cases hl : l = language
    · by_cases h : other = language
      · simp [insert, get?, hl, h]
      · simp [insert, get?, hl, h, Ne.symm h]
    · by_cases hother : l = other
      · have h : other ≠ language := fun heq => hl (hother.trans heq)
        simp [insert, get?, hother, h]
      · simpa [insert, get?, hl, hother] using ih

theorem rulesOfEntries_eq : ∀ {entries : List Value}, (∀ x ∈ entries, x.isObject = true) →
    rulesOfEntries entries = .ok ((entries.filter Rule.isEnabled).map Rule.ofValue)
  | [], _ => rfl
  | v :: vs, h => by
    rw [List.forall_mem_cons] at h
    rw [rulesOfEntries, h.1, rulesOfEntries_eq h.2, List.filter_cons]
    cases Rule.isEnabled v <;> rfl

end RuleSet

theorem Disk.follow_ne_undecodable (d : Disk) (shown : String) : ∀ (names here : List String),
    d.follow shown here names ≠ .error .undecodable
  | [], here => by simp [follow]
  | n :: ns, here => by
    rw [follow]
    split
    · split_ifs
      · exact follow_ne_undecodable d shown ns _
      · simp
      · exact follow_ne_undecodable d shown ns _
      · simp
    · simp
    · simp

theorem Disk.find_ne_undecodable (d : Disk) (p : Path) : d.find p ≠ .error .undecodable := by
  intro h
  rw [Disk.find, locate_eq] at h
  by_cases hnul : p.toString.toList.contains '\x00' = true
  · rw [if_pos hnul] at h
    cases h
  · rw [if_neg hnul] at h
    cases hfollow : d.follow p.toString (d.startOf p) p.names with
    | error fault =>
      rw [hfollow] at h
      have hfault : fault = .undecodable := by simpa using h
      exact d.follow_ne_undecodable _ _ _ (hfault ▸ hfollow)
    | ok here =>
      rw [hfollow] at h
      dsimp only at h
      split at h <;> exact absurd h (by simp)

namespace Rules

/-! ### One rule file -/

/-- The document in a rule file is a list, and not an object with a list among its fields. -/
def IsBareList (d : Disk) (p : Path) : Prop :=
  ∃ s xs, d.readText [.utf8] p = .ok s ∧ Json.read s = .ok (.list xs)

theorem readText_utf8 (d : Disk) (p : Path) :
    d.readText [.utf8] p =
      match d.find p with
      | .error fault => .error fault
      | .ok (.dir _) => .error (.isDirectory p.toString)
      | .ok (.file bs) =>
        match Utf8.decode? bs with
        | none => .error .undecodable
        | some s => .ok (Text.joinNewlines s) := by
  rw [Disk.readText, Disk.bytes]
  rcases d.find p with fault | (bs | es)
  · rfl
  · simp only [decodeFirst?, Encoding.decode?, List.findSome?_cons, List.findSome?_nil]
    cases Utf8.decode? bs <;> rfl
  · rfl

/-- A rule file that the editor can read is read by the rule set in the same way, if it is no bare
list: the entries are the same. -/
theorem readFile_of_entriesIn {p : Path} (hentries : entriesIn d p = .ok entries)
    (hbare : ¬IsBareList d p) : RuleSet.readFile d p = RuleSet.rulesOfEntries entries := by
  have hnone : (Except.ok [] : Except Fault _) = .ok entries → .ok [] = RuleSet.rulesOfEntries entries := by
    intro h
    rw [← Except.ok.inj h]
    rfl
  have htext := readText_utf8 d p
  rw [entriesIn_eq] at hentries
  unfold RuleSet.readFile
  cases hfind : d.find p with
  | error fault =>
    rw [hfind] at htext hentries
    rw [htext]
    cases fault with
    | nameTooLong s => cases hentries
    | undecodable => exact absurd hfind (d.find_ne_undecodable p)
    | _ => exact hnone hentries
  | ok entry =>
    rw [hfind] at htext hentries
    cases entry with
    | dir es =>
      rw [htext]
      exact hnone hentries
    | file bs =>
      dsimp only [entriesOfBytes] at htext hentries
      cases hs : Utf8.decode? bs with
      | none =>
        rw [hs] at hentries
        cases hentries
      | some s =>
        rw [hs] at htext hentries
        rw [htext]
        dsimp only at hentries ⊢
        cases hjson : Json.read (Text.joinNewlines s) with
        | error message =>
          rw [hjson] at hentries
          exact hnone hentries
        | ok v =>
          rw [hjson] at hentries
          cases v with
          | list xs => exact absurd ⟨_, xs, htext, hjson⟩ hbare
          | object fields =>
            show RuleSet.rulesOfDocument (.object fields) = _
            dsimp only [Editor.entriesOf] at hentries
            rw [RuleSet.rulesOfDocument]
            cases hmembers : (((Value.object fields).field? "rules").getD (.list [])).members? with
            | none =>
              rw [hmembers] at hentries
              cases hentries
            | some xs =>
              rw [hmembers] at hentries
              obtain rfl := Except.ok.inj hentries
              rfl
          | _ => exact absurd hentries (by simp [Editor.entriesOf])

/-- A listed rule and a rule in use are the same rule. -/
structure Listed.SameAs (l : Listed) (r : Rule) : Prop where
  id : r.id = .str l.id
  name : r.name = .str l.name
  kind : r.kind = .str l.kind
  pattern : r.pattern = .str l.pattern
  severity : r.severity = .str l.severity
  description : r.description = .str l.description

def HasText (e : Value) (name : String) : Prop :=
  ∃ s, e.field? name = some (.str s)

instance (e : Value) (name : String) : Decidable (HasText e name) :=
  match h : e.field? name with
  | some (.str s) => isTrue ⟨s, h⟩
  | none | some .null | some (.bool _) | some (.int _) | some (.real _) | some (.list _) | some (.object _) =>
    isFalse fun ⟨s, hs⟩ => absurd (h.symm.trans hs) (by simp)

/-- An entry has an identifier and a name, and what else the list shows of it is missing or a text. -/
structure Textual (e : Value) : Prop where
  id : HasText e "id"
  name : HasText e "name"
  others : ∀ name ∈ ["type", "pattern", "severity", "description"], e.field? name = none ∨ HasText e name

instance (e : Value) : Decidable (Textual e) :=
  decidable_of_iff (HasText e "id" ∧ HasText e "name" ∧
      ∀ name ∈ ["type", "pattern", "severity", "description"], (e.field? name).isNone = true ∨ HasText e name) <| by
    simp only [Option.isNone_iff_eq_none]
    exact ⟨fun ⟨hid, hname, hothers⟩ => ⟨hid, hname, hothers⟩, fun h => ⟨h.id, h.name, h.others⟩⟩

theorem getD_eq_str_display {name : String} (h : e.field? name = none ∨ HasText e name) (other : String) :
    (e.field? name).getD (.str other) = .str ((e.field? name).getD (.str other)).display := by
  rcases h with hnone | ⟨s, hs⟩
  · rw [hnone]
    rfl
  · rw [hs]
    rfl

theorem sameAs_ofValue {l : Listed} (hl : Listed.ofEntry language e = .ok l)
    (h : Textual e) : l.SameAs (Rule.ofValue e) := by
  obtain ⟨id, hid⟩ := h.id
  obtain ⟨name, hname⟩ := h.name
  have htexts := h.others
  simp only [List.forall_mem_cons, List.not_mem_nil, false_implies, implies_true, and_true] at htexts
  obtain ⟨hkind, hpattern, hseverity, hdescription⟩ := htexts
  unfold Listed.ofEntry at hl
  split_ifs at hl
  split at hl
  · cases hl
  · obtain rfl := Except.ok.inj hl
    refine ⟨?_, ?_, getD_eq_str_display hkind _, getD_eq_str_display hpattern _,
      getD_eq_str_display hseverity _, getD_eq_str_display hdescription _⟩
    · simp [Rule.ofValue, hid, Value.display]
    · simp [Rule.ofValue, hname, Value.display]

theorem facts_of_ofEntry {l : Listed} (hl : Listed.ofEntry language e = .ok l) :
    e.isObject = true ∧ l.language = language ∧ l.enabled = Rule.isEnabled e := by
  unfold Listed.ofEntry at hl
  split_ifs at hl with hobject
  split at hl
  · cases hl
  · obtain rfl := Except.ok.inj hl
    exact ⟨by simpa using hobject, rfl, rfl⟩

theorem facts_of_listed (h : List.Forall₂ (fun x l => Listed.ofEntry language x = .ok l) entries ls) :
    (∀ x ∈ entries, x.isObject = true) ∧ ∀ l ∈ ls, l.language = language := by
  induction h with
  | nil => simp
  | cons hl _ ih =>
    obtain ⟨hobject, hlanguage, -⟩ := facts_of_ofEntry hl
    exact ⟨List.forall_mem_cons.mpr ⟨hobject, ih.1⟩, List.forall_mem_cons.mpr ⟨hlanguage, ih.2⟩⟩

theorem forall₂_sameAs (h : List.Forall₂ (fun x l => Listed.ofEntry language x = .ok l) entries ls)
    (htextual : ∀ x ∈ entries, Rule.isEnabled x = true → Textual x) :
    List.Forall₂ Listed.SameAs (ls.filter (·.enabled)) ((entries.filter Rule.isEnabled).map Rule.ofValue) := by
  induction h with
  | nil => exact .nil
  | @cons x l xs ls hl _ ih =>
    rw [List.forall_mem_cons] at htextual
    have henabled := (facts_of_ofEntry hl).2.2
    cases hx : Rule.isEnabled x with
    | true =>
      rw [List.filter_cons_of_pos (henabled.trans hx), List.filter_cons_of_pos hx, List.map_cons]
      exact .cons (sameAs_ofValue hl (htextual.1 hx)) (ih htextual.2)
    | false =>
      rw [List.filter_cons_of_neg (by rw [henabled, hx]; decide), List.filter_cons_of_neg (by rw [hx]; decide)]
      exact ih htextual.2

theorem readFile_of_shown {p : Path} (hshown : shownOf d p = .ok ls) (hbare : ¬IsBareList d p) :
    (∀ l ∈ ls, l.language = RuleSet.languageOfFile p.name) ∧ ∃ rs, RuleSet.readFile d p = .ok rs ∧
      ((∀ entries, entriesIn d p = .ok entries → ∀ x ∈ entries, Rule.isEnabled x = true → Textual x) →
        List.Forall₂ Listed.SameAs (ls.filter (·.enabled)) rs) := by
  obtain ⟨entries, hentries, hall⟩ := shownOf_eq_ok.mp hshown
  obtain ⟨hobjects, hlanguage⟩ := facts_of_listed hall
  refine ⟨hlanguage, _, (readFile_of_entriesIn hentries hbare).trans (RuleSet.rulesOfEntries_eq hobjects), ?_⟩
  exact fun htextual => forall₂_sameAs hall (htextual entries hentries)

/-! ### A directory -/

def filesIn (d : Disk) (dir : Path) : List Path :=
  match d.list dir with
  | .ok found => RuleSet.ruleFiles found
  | .error _ => []

def SoleFile (files : List Path) (language : String) : Prop :=
  files.Pairwise fun p q => ¬(RuleSet.languageOfFile p.name = language ∧ RuleSet.languageOfFile q.name = language)

/-- The entries in use in the files of a language are textual. -/
def TextualIn (d : Disk) (files : List Path) (language : String) : Prop :=
  ∀ p ∈ files, RuleSet.languageOfFile p.name = language → ∀ entries, entriesIn d p = .ok entries →
    ∀ x ∈ entries, Rule.isEnabled x = true → Textual x

def inUse (language : String) (ls : List Listed) : List Listed :=
  ls.filter fun l => l.language == language && l.enabled

theorem inUse_of_language (h : ∀ l ∈ ls, l.language = language) : inUse language ls = ls.filter (·.enabled) := by
  apply List.filter_congr
  intro l hl
  rw [h l hl, beq_self_eq_true, Bool.true_and]

theorem inUse_eq_nil (h : ∀ l ∈ ls, l.language ≠ language) : inUse language ls = [] := by
  rw [inUse, List.filter_eq_nil_iff]
  intro l hl
  simp [h l hl]

/-- A language without a file keeps the rules that it had, and one with a single file gets those that
the list shows of it. -/
theorem foldlM_readFile {files : List Path} {lists : List (List Listed)}
    (h : List.Forall₂ (fun p ls => shownOf d p = .ok ls) files lists) (hbare : ∀ p ∈ files, ¬IsBareList d p) :
    ∀ set : RuleSet, ∃ set' : RuleSet,
      files.foldlM (fun set p => return set.insert (RuleSet.languageOfFile p.name) (← RuleSet.readFile d p)) set =
        .ok set' ∧
      (∀ language, (∀ p ∈ files, RuleSet.languageOfFile p.name ≠ language) →
        inUse language lists.flatten = [] ∧ set'.get? language = set.get? language) ∧
      ∀ language, SoleFile files language → TextualIn d files language →
        (∃ p ∈ files, RuleSet.languageOfFile p.name = language) →
        List.Forall₂ Listed.SameAs (inUse language lists.flatten) ((set'.get? language).getD []) := by
  induction h with
  | nil => exact fun set => ⟨set, rfl, fun _ _ => ⟨rfl, rfl⟩, fun _ _ _ ⟨_, hp, _⟩ => absurd hp (by simp)⟩
  | @cons p ls files lists hshown _ ih =>
    intro set
    rw [List.forall_mem_cons] at hbare
    obtain ⟨hlanguage, rs, hread, hsame⟩ := readFile_of_shown hshown hbare.1
    obtain ⟨set', hfold, hothers, hown⟩ := ih hbare.2 (set.insert (RuleSet.languageOfFile p.name) rs)
    have hsplit : ∀ language, inUse language (ls :: lists).flatten =
        inUse language ls ++ inUse language lists.flatten := by
      intro language
      rw [inUse, List.flatten_cons, List.filter_append]
      rfl
    refine ⟨set', ?_, ?_, ?_⟩
    · rw [List.foldlM_cons, hread]
      exact hfold
    · intro language hnone
      rw [List.forall_mem_cons] at hnone
      obtain ⟨hempty, hget⟩ := hothers language hnone.2
      constructor
      · rw [hsplit, hempty, inUse_eq_nil fun l hl => by rw [hlanguage l hl]; exact hnone.1]
        rfl
      · rw [hget, RuleSet.get?_insert, if_neg (Ne.symm hnone.1)]
    · intro language hsole htextual hsome
      rw [SoleFile, List.pairwise_cons] at hsole
      by_cases hp : RuleSet.languageOfFile p.name = language
      · -- the file of the language comes first, and no later file is for it
        have hlater : ∀ q ∈ files, RuleSet.languageOfFile q.name ≠ language :=
          fun q hq hlang => hsole.1 q hq ⟨hp, hlang⟩
        obtain ⟨hempty, hget⟩ := hothers language hlater
        rw [hsplit, hempty, List.append_nil, inUse_of_language fun l hl => (hlanguage l hl).trans hp, hget,
          RuleSet.get?_insert, if_pos hp.symm, Option.getD_some]
        exact hsame (htextual p List.mem_cons_self hp)
      · have hmissing : inUse language ls = [] := inUse_eq_nil fun l hl => by rw [hlanguage l hl]; exact hp
        rw [hsplit, hmissing, List.nil_append]
        refine hown language hsole.2 (fun q hq => htextual q (List.mem_cons_of_mem _ hq)) ?_
        obtain ⟨q, hq, hlang⟩ := hsome
        rcases List.mem_cons.mp hq with rfl | hq
        · exact absurd hlang hp
        · exact ⟨q, hq, hlang⟩

/-- **The rules in use are the rules that are listed as in use.** -/
theorem load_agrees {e e' : Editor} (hload : Editor.reload e = (.ok (), e'))
    (hbare : ∀ p ∈ filesIn e'.disk e'.dir, ¬IsBareList e'.disk p) :
    ∃ set, RuleSet.load e'.disk e'.dir = .ok set ∧
      ∀ language, SoleFile (filesIn e'.disk e'.dir) language →
        TextualIn e'.disk (filesIn e'.disk e'.dir) language →
        List.Forall₂ Listed.SameAs (inUse language e'.rules) ((set.get? language).getD []) := by
  obtain ⟨-, hshown, hdir⟩ := (leads_reload e).gives () e' hload
  rw [← hdir] at hshown
  obtain ⟨found, lists, hlist, hlists, hrules⟩ := shownIn_eq_ok.mp hshown
  unfold RuleSet.load
  unfold filesIn at hbare ⊢
  rw [hlist] at hbare ⊢
  obtain ⟨set, hfold, hothers, hown⟩ := foldlM_readFile hlists hbare []
  refine ⟨set, hfold, ?_⟩
  intro language hsole htextual
  rw [hrules]
  by_cases hsome : ∃ p ∈ RuleSet.ruleFiles found, RuleSet.languageOfFile p.name = language
  · exact hown language hsole htextual hsome
  · obtain ⟨hempty, hget⟩ := hothers language fun p hp hlang => hsome ⟨p, hp, hlang⟩
    rw [hempty, hget]
    exact .nil

/-- An editor of a directory with one rule file. -/
def editorOf (text : String) : Editor where
  dir := ⟨"/", ["rules"]⟩
  disk := ⟨.dir [("rules", .dir [("c_rules.json", .file (Utf8.encode text))])], []⟩
  rules := []
  status := ""
  notices := []

theorem find_editorOf (text : String) :
    (editorOf text).disk.find (editorOf text).dir = .ok (.dir [("c_rules.json", .file (Utf8.encode text))]) :=
  find_rules _

theorem filesIn_editorOf (text : String) :
    filesIn (editorOf text).disk (editorOf text).dir = [⟨"/", ["rules", "c_rules.json"]⟩] := by
  obtain ⟨ns, hopens⟩ := Disk.exists_opens (find_editorOf text)
  rw [filesIn, hopens.list]
  dsimp only
  rw [RuleSet.ruleFiles, List.filter_eq_self.mpr]
  · rfl
  · intro x hx
    rw [List.map_singleton, List.mem_singleton] at hx
    rw [hx, Path.name_within]
    exact endsWith_append "c" RuleSet.fileEnd

/-- A rule file with two rules, of which one is switched off. -/
def halfUsed : Editor :=
  editorOf "\x7b\"rules\":[\x7b\"id\":\"A\",\"name\":\"n\"\x7d,\x7b\"id\":7,\"enabled\":false\x7d]\x7d"

theorem textual_halfUsed :
    ∀ entries, entriesIn halfUsed.disk ⟨"/", ["rules", "c_rules.json"]⟩ = .ok entries →
      ∀ x ∈ entries, Rule.isEnabled x = true → Textual x := by
  have hall : (match entriesIn halfUsed.disk ⟨"/", ["rules", "c_rules.json"]⟩ with
      | .ok entries => decide (∀ x ∈ entries, Rule.isEnabled x = true → Textual x)
      | .error _ => false) = true := by decide +kernel
  intro entries hentries
  rw [hentries] at hall
  exact of_decide_eq_true hall

theorem not_isBareList_halfUsed : ¬IsBareList halfUsed.disk ⟨"/", ["rules", "c_rules.json"]⟩ := by
  rintro ⟨s, xs, htext, hread⟩
  have hobject : ((halfUsed.disk.readText [.utf8] ⟨"/", ["rules", "c_rules.json"]⟩).toOption.bind
      fun s => (Json.read s).toOption).any Value.isList = false := by decide +kernel
  rw [htext] at hobject
  simp [Except.toOption, hread, Value.isList] at hobject

theorem load_agrees_halfUsed :
    ∃ e', Editor.reload halfUsed = (.ok (), e') ∧ (∀ p ∈ filesIn e'.disk e'.dir, ¬IsBareList e'.disk p) ∧
      SoleFile (filesIn e'.disk e'.dir) "c" ∧ TextualIn e'.disk (filesIn e'.disk e'.dir) "c" ∧
      ∃ set, RuleSet.load e'.disk e'.dir = .ok set ∧
        List.Forall₂ Listed.SameAs (inUse "c" e'.rules) ((set.get? "c").getD []) := by
  have hok : (Editor.reload halfUsed).1 = .ok () := by decide +kernel
  obtain ⟨e', hload, hdisk, hdir⟩ := exists_reload (find_editorOf _) hok
  have hfiles : filesIn e'.disk e'.dir = [⟨"/", ["rules", "c_rules.json"]⟩] := by
    rw [hdisk, hdir]
    exact filesIn_editorOf _
  have hbare : ∀ p ∈ filesIn e'.disk e'.dir, ¬IsBareList e'.disk p := by
    rw [hfiles, List.forall_mem_singleton, hdisk]
    exact not_isBareList_halfUsed
  have hsole : SoleFile (filesIn e'.disk e'.dir) "c" := by
    rw [hfiles]
    exact List.pairwise_singleton _ _
  have htextual : TextualIn e'.disk (filesIn e'.disk e'.dir) "c" := by
    rw [TextualIn, hfiles, List.forall_mem_singleton, hdisk]
    exact fun _ => textual_halfUsed
  obtain ⟨set, hset, hagrees⟩ := load_agrees hload hbare
  exact ⟨e', hload, hbare, hsole, htextual, set, hset, hagrees "c" hsole htextual⟩

def bareList : Editor := editorOf "[\x7b\"id\": \"A\", \"name\": \"first\"\x7d]"

/-- The editor lists the rules of a bare list, and the rule set cannot be loaded. -/
theorem bare_list_stops_load :
    ∃ e', Editor.reload bareList = (.ok (), e') ∧
      (∀ p ∈ filesIn e'.disk e'.dir, ∀ entries, entriesIn e'.disk p = .ok entries →
        ∀ x ∈ entries, HasText x "id" ∧ HasText x "name") ∧
      e'.rules.map (·.id) = ["A"] ∧ ∀ set, RuleSet.load e'.disk e'.dir ≠ .ok set := by
  have hok : (Editor.reload bareList).1 = .ok () := by decide +kernel
  have hrules : ((Editor.reload bareList).2.rules.map (·.id)) = ["A"] := by decide +kernel
  have hstops : (RuleSet.load bareList.disk bareList.dir).isOk = false := by decide +kernel
  have htexts : (match entriesIn bareList.disk ⟨"/", ["rules", "c_rules.json"]⟩ with
      | .ok entries => decide (∀ x ∈ entries, HasText x "id" ∧ HasText x "name")
      | .error _ => false) = true := by decide +kernel
  obtain ⟨e', hload, hdisk, hdir⟩ := exists_reload (find_editorOf _) hok
  refine ⟨e', hload, ?_, ?_, ?_⟩
  · have hfiles : filesIn e'.disk e'.dir = [⟨"/", ["rules", "c_rules.json"]⟩] := by
      rw [hdisk, hdir]
      exact filesIn_editorOf _
    rw [hfiles, List.forall_mem_singleton, hdisk]
    intro entries hentries
    change entriesIn bareList.disk _ = _ at hentries
    rw [hentries] at htexts
    exact of_decide_eq_true htexts
  · change Editor.reload bareList = _ at hload
    rw [hload] at hrules
    exact hrules
  · intro set hset
    rw [hdisk, hdir] at hset
    change RuleSet.load bareList.disk bareList.dir = _ at hset
    rw [hset] at hstops
    exact absurd hstops (by simp [Except.isOk, Except.toBool])

end Rules

end SourceAudit
