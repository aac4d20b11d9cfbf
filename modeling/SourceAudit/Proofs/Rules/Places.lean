/-
# Rule files at their places

A language can have any name, so the path of its rule file may lead through other
directories, up, or to the root. What a rule file holds is told here by the place where
it lies (`entriesAt`). Reading a path gives the entries at the place it leads to, and
none if it leads nowhere (`entriesIn_cases`). Writing makes the directories on the way
and sets the entries at one place (`written_puts`). Whatever was read can be written and
read back (`legible_entriesIn`).
-/
import SourceAudit.Proofs.Files.Subtree
import SourceAudit.Proofs.Rules.Loading
import SourceAudit.Proofs.Value.Decimals

namespace SourceAudit.Rules

open RuleSet (fileEnd)

variable {entries : List Value} {d d' : Disk} {p : Path}

/-! ### Reading -/

/-- The entries in the bytes of a rule file. A text that is no document counts as empty. -/
def entriesOfBytes (bs : List UInt8) : Except Fault (List Value) :=
  match Utf8.decode? bs with
  | none => .error .undecodable
  | some s =>
    match Json.read (Text.joinNewlines s) with
    | .error _ => .ok []
    | .ok v => Editor.entriesOf v

/-- The entries of the rule file at a place, none if there is no such file. -/
def entriesAt (d : Disk) (place : List String) : List Value :=
  match d.root.get? place with
  | some (.file bs) => (orNothing (entriesOfBytes bs)).getD []
  | _ => []

theorem entriesIn_eq (d : Disk) (p : Path) :
    entriesIn d p =
      match d.find p with
      | .error (.nameTooLong s) => .error (.nameTooLong s)
      | .error _ => .ok []
      | .ok (.dir _) => .ok []
      | .ok (.file bs) => entriesOfBytes bs := by
  rw [entriesIn, Editor.readEntries, Disk.holds, Disk.find?, Disk.readText, Disk.bytes]
  cases d.find p with
  | error fault => cases fault <;> rfl
  | ok entry =>
    cases entry with
    | dir es => rfl
    | file bs =>
      unfold entriesOfBytes
      simp only [decodeFirst?, Encoding.decode?, List.findSome?_cons, List.findSome?_nil]
      cases Utf8.decode? bs with
      | none => rfl
      | some s =>
        dsimp only
        cases Json.read (Text.joinNewlines s) with
        | error message => rfl
        | ok v =>
          cases hv : Editor.entriesOf v with
          | error fault => simp [hv, Except.map, bind, Except.bind]
          | ok entries => simp [hv, Except.map, bind, Except.bind, pure, Except.pure, Except.toOption]

/-- A path leads to a place, and what is read are the entries there, or it leads nowhere, and nothing
is read. -/
theorem entriesIn_cases (h : entriesIn d p = .ok entries) :
    (∃ place, d.locate p = .ok place ∧ entries = entriesAt d place) ∨ entries = [] := by
  rw [entriesIn_eq, Disk.find] at h
  cases hp : d.locate p with
  | error fault =>
    rw [hp] at h
    cases fault with
    | nameTooLong s => cases h
    | _ => exact .inr (Except.ok.inj h).symm
  | ok place =>
    rw [hp] at h
    refine .inl ⟨place, rfl, ?_⟩
    unfold entriesAt
    cases hentry : d.root.get? place with
    | none =>
      simp only [hentry] at h
      exact (Except.ok.inj h).symm
    | some entry =>
      simp only [hentry] at h
      cases entry with
      | dir es => exact (Except.ok.inj h).symm
      | file bs =>
        dsimp only at h ⊢
        rw [h]
        rfl

theorem legible_entriesOf {v : Value} (hv : v.Legible) (h : Editor.entriesOf v = .ok entries) :
    ∀ x ∈ entries, x.Legible := by
  have hempty : (Value.list []).Legible := Value.legible_list.mpr (by simp)
  cases v with
  | list xs =>
    obtain rfl := Except.ok.inj h
    exact Value.legible_list.mp hv
  | object fields =>
    have hfield : (((Value.object fields).field? "rules").getD (.list [])).Legible := legible_getD hv hempty
    rw [Editor.entriesOf] at h
    generalize ((Value.object fields).field? "rules").getD (.list []) = w at h hfield
    cases w with
    | list xs =>
      obtain rfl := Except.ok.inj h
      exact Value.legible_list.mp hfield
    | object fs =>
      obtain rfl := Except.ok.inj h
      intro x hx
      obtain ⟨f, -, rfl⟩ := List.mem_map.mp hx
      exact Value.legible_str f.1
    | str s =>
      obtain rfl := Except.ok.inj h
      intro x hx
      obtain ⟨c, -, rfl⟩ := List.mem_map.mp hx
      exact Value.legible_str _
    | _ => exact absurd h (by simp [Value.members?])
  | _ => exact absurd h (by simp [Editor.entriesOf])

theorem legible_entriesIn (h : entriesIn d p = .ok entries) : ∀ x ∈ entries, x.Legible := by
  have hnone : ∀ entries : List Value, (Except.ok [] : Except Fault _) = .ok entries → ∀ x ∈ entries, x.Legible := by
    rintro _ ⟨⟩
    simp
  rw [entriesIn_eq] at h
  split at h
  · cases h
  · exact hnone _ h
  · exact hnone _ h
  · unfold entriesOfBytes at h
    split at h
    · cases h
    · split at h
      · exact hnone _ h
      · rename_i v hv
        exact legible_entriesOf (Json.legible_of_read hv) h

/-! ### Writing -/

theorem entriesAt_congr {place : List String}
    (h : ∀ bs, d'.root.get? place = some (.file bs) ↔ d.root.get? place = some (.file bs)) :
    entriesAt d' place = entriesAt d place := by
  have hnone : ∀ d : Disk, (∀ bs, d.root.get? place ≠ some (.file bs)) → entriesAt d place = [] := by
    intro d hd
    unfold entriesAt
    split
    · rename_i bs hbs
      exact absurd hbs (hd bs)
    · rfl
  by_cases hfile : ∃ bs, d.root.get? place = some (.file bs)
  · obtain ⟨bs, hbs⟩ := hfile
    rw [entriesAt, entriesAt, hbs, (h bs).mpr hbs]
  · rw [not_exists] at hfile
    rw [hnone d hfile, hnone d' fun bs hbs => hfile bs ((h bs).mp hbs)]

theorem entriesAt_of_spares (h : d.Spares d') (place : List String) : entriesAt d' place = entriesAt d place :=
  entriesAt_congr (h.file_iff place)

/-- A rule file has been written: its path leads to a place with these entries, and at every other
place the entries are the same. -/
structure Puts (d : Disk) (p : Path) (entries : List Value) (place : List String) (d' : Disk) : Prop where
  grown : d.Extends d'
  located : d'.locate p = .ok place
  here : entriesAt d' place = entries
  others : ∀ other, other ≠ place → entriesAt d' other = entriesAt d other

theorem entriesOfBytes_fileText (language : String) (h : ∀ x ∈ entries, x.Legible) :
    entriesOfBytes (Utf8.encode (Editor.fileText language entries)) = .ok entries := by
  obtain ⟨s, v, hs, hv, hentries⟩ := exists_document (rulesOfBytes?_fileText language h)
  rw [entriesOfBytes, hs]
  dsimp only
  rw [hv]
  exact hentries

theorem exists_file_eq_within (dir : Path) (language : String) :
    ∃ (q : Path) (name : String), dir.child (language ++ fileEnd) = q.within name ∧ name ≠ ".." := by
  have hslash : '/' ∉ fileEnd.toList := by decide
  obtain ⟨q, name, hchild, hend⟩ := Path.exists_child_eq_within hslash (by decide) dir language
  refine ⟨q, name, hchild, ne_up_of_endsWith ?_⟩
  rw [Text.endsWith, List.isSuffixOf_iff_suffix]
  exact hend

theorem written_file {dir : Path} {language : String}
    (h : Editor.written d (dir.child (language ++ fileEnd)) entries = .ok d') :
    ∃ place name, d.Extends d' ∧ d'.locate (dir.child (language ++ fileEnd)) = .ok place ∧
      d'.root.get? place = some (.file (Utf8.encode (Editor.fileText name entries))) ∧ d.SameFilesBut [place] d' := by
  obtain ⟨q, name, hp, hname⟩ := exists_file_eq_within dir language
  rw [hp] at h ⊢
  rw [Editor.written, Path.parent_within] at h
  obtain ⟨d₁, hmade, h⟩ := bind_eq_ok.mp h
  have hmakes := Disk.makeDir_makes hmade
  obtain ⟨ns, es, hopens⟩ := hmakes.opens
  obtain ⟨hrefusal, hopens', hsame⟩ := hopens.write hname h
  refine ⟨ns ++ [name], RuleSet.languageOfFile (q.within name).name,
    hmakes.grown.trans (hopens.write_extends hname h), ?_, ?_, ?_⟩
  · rw [hopens'.locate_within hname, hrefusal, Entry.child?_setEntry, if_pos rfl]
    rfl
  · rw [Entry.get?_snoc hopens'.entries, Entry.child?_setEntry, if_pos rfl]
  · exact hmakes.files.trans hsame (List.nil_subset _) (List.Subset.refl _)

/-- **Writing a rule file** sets the entries at one place. -/
theorem written_puts {dir : Path} {language : String} (hentries : ∀ x ∈ entries, x.Legible)
    (h : Editor.written d (dir.child (language ++ fileEnd)) entries = .ok d') :
    ∃ place, Puts d (dir.child (language ++ fileEnd)) entries place d' := by
  obtain ⟨place, name, hgrown, hlocated, hhere, hsame⟩ := written_file h
  refine ⟨place, hgrown, hlocated, ?_, fun other hother => entriesAt_congr (hsame other (by simpa using hother))⟩
  rw [entriesAt, hhere]
  dsimp only
  rw [entriesOfBytes_fileText _ hentries]
  rfl

theorem leads_write {e : Editor} {Q : Unit → Editor → Prop} {E : Editor → Prop}
    (hok : ∀ d, Editor.written e.disk p entries = .ok d → Q () { e with disk := d })
    (hfault : ∀ fault, Editor.written e.disk p entries = .error fault →
      E { e with disk := e.disk.tryMakeDir p.parent }) :
    Leads e (Editor.write p entries) Q E :=
  .step rfl (.step rfl (.check_bind (fun d hd => leads_of_apply rfl (hok d hd)) hfault))

end SourceAudit.Rules
