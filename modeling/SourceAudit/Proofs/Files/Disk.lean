/-
# Files in a directory

A path that leads to a directory leads, with one more name, to the entry of that name
(`Disk.Opens.find_within`), unless no file can have such a path (`Path.refusal?`).
Writing the entry changes that file and no other (`Entry.file_put`), and the path leads
to the directory as before: directories on the way are rebuilt, but stay directories
(`Disk.Extends`).

Making a directory with all that lead to it changes no file and loses nothing
(`Disk.makeDir_makes`). An attempt that fails may have made some of the directories on
the way (`Disk.tryMakeDir_spares`).
-/
import Mathlib.Tactic.Common
import SourceAudit.Files.Disk

namespace SourceAudit

/-! ### One name more -/

namespace Text

theorem splitFrom_of_notMem {c : Char} : ∀ {cs : List Char} (piece : List Char) (done : List (List Char)),
    c ∉ cs → splitFrom [c] piece done 0 cs = ((piece.reverse ++ cs) :: done).reverse
  | [], piece, done, _ => by simp [splitFrom]
  | d :: cs, piece, done, h => by
    rw [List.mem_cons, not_or] at h
    have hd : (c == d) = false := beq_eq_false_iff_ne.mpr h.1
    simp [splitFrom, List.isPrefixOf, hd, splitFrom_of_notMem (d :: piece) done h.2]

end Text

namespace Path

def within (p : Path) (name : String) : Path := ⟨p.root, p.names ++ [name]⟩

@[simp] theorem name_within (p : Path) (name : String) : (p.within name).name = name := by
  simp [within, Path.name]

@[simp] theorem parent_within (p : Path) (name : String) : (p.within name).parent = p := by
  simp [within, parent]

theorem within_inj {p : Path} {m n : String} : p.within m = p.within n ↔ m = n := by
  simp [within]

theorem child_eq {name : String} (hslash : '/' ∉ name.toList) (hempty : name ≠ "") (hdot : name ≠ ".") (p : Path) :
    p.child name = p.within name := by
  have hstart : name.toList.takeWhile (· == '/') = [] := by
    cases hcs : name.toList with
    | nil => rfl
    | cons c cs =>
      have hc : c ≠ '/' := by
        rintro rfl
        exact hslash (by simp [hcs])
      simp [hc]
  have hsplit : Text.split name "/" = [name] := by
    have hsep : "/".toList = ['/'] := by simp
    simp [Text.split, hsep, Text.splitFrom_of_notMem [] [] hslash]
  have hread : ofString name = ⟨"", [name]⟩ := by
    simp [ofString, hstart, hsplit, hempty, hdot]
  rw [child, hread]
  rfl

/-- Why no file can have this path, whatever directory its last name is looked for in. -/
def refusal? (p : Path) : Option Fault :=
  if p.toString.toList.contains '\x00' then some .nulInPath
  else if Disk.maxName < (Utf8.encode p.name).length then some (.nameTooLong p.toString)
  else none

end Path

/-! ### Trees -/

namespace Entry

theorem any_eq_isSome (es : List (String × Entry)) (name : String) :
    es.any (·.1 == name) = ((dir es).child? name).isSome := by
  rw [child?, entries, Option.isSome_map, Bool.eq_iff_iff, List.find?_isSome, List.any_eq_true]

theorem child?_setEntry (name other : String) (e : Entry) : ∀ es : List (String × Entry),
    (dir (setEntry name e es)).child? other = if other = name then some e else (dir es).child? other
  | [] => by
    by_cases h : other = name
    · simp [setEntry, child?, entries, h]
    · simp [setEntry, child?, entries, h, Ne.symm h]
  | (n, f) :: rest => by
    have ih := child?_setEntry name other e rest
    by_cases hother : other = name
    · rw [if_pos hother] at ih ⊢
      rw [setEntry]
      split_ifs with hn hlt
      · simp [child?, entries, hother]
      · simp [child?, entries, hother]
      · have hne : (n == other) = false := by simpa [hother] using hn
        simpa [child?, entries, hne] using ih
    · rw [if_neg hother] at ih ⊢
      have hne : (name == other) = false := beq_eq_false_iff_ne.mpr (Ne.symm hother)
      rw [setEntry]
      split_ifs with hn hlt
      · have hnother : (n == other) = false := by rw [eq_of_beq hn]; exact hne
        simp [child?, entries, hne, hnother]
      · simp [child?, entries, hne]
      · by_cases hnother : n = other
        · simp [child?, entries, hnother]
        · simpa [child?, entries, hnother] using ih

theorem mem_setEntry {name : String} {e : Entry} : ∀ {es : List (String × Entry)} {x : String × Entry},
    x ∈ setEntry name e es → x = (name, e) ∨ x ∈ es
  | [], x, h => Or.inl (List.mem_singleton.mp h)
  | (n, f) :: rest, x, h => by
    rw [setEntry] at h
    split_ifs at h with hn hlt
    · rcases List.mem_cons.mp h with h | h
      · exact Or.inl h
      · exact Or.inr (List.mem_cons_of_mem _ h)
    · rcases List.mem_cons.mp h with h | h
      · exact Or.inl h
      · exact Or.inr h
    · rcases List.mem_cons.mp h with h | h
      · exact Or.inr (h ▸ List.mem_cons_self)
      · exact (mem_setEntry h).imp_right (List.mem_cons_of_mem _)

theorem mem_setEntry_self (name : String) (e : Entry) : ∀ es : List (String × Entry), (name, e) ∈ setEntry name e es
  | [] => List.mem_singleton.mpr rfl
  | (n, f) :: rest => by
    rw [setEntry]
    split_ifs
    · exact List.mem_cons_self
    · exact List.mem_cons_self
    · exact List.mem_cons_of_mem _ (mem_setEntry_self name e rest)

theorem get?_append : ∀ (xs ys : List String) (e : Entry), e.get? (xs ++ ys) = (e.get? xs).bind (·.get? ys)
  | [], _, _ => rfl
  | x :: xs, ys, e => by
    rw [List.cons_append, get?, get?, Option.bind_assoc]
    congr 1
    funext f
    exact get?_append xs ys f

theorem get?_snoc {e : Entry} {names : List String} {es : List (String × Entry)} (h : e.get? names = some (.dir es))
    (name : String) : e.get? (names ++ [name]) = (dir es).child? name := by
  rw [get?_append, h, Option.bind_some, get?]
  cases (dir es).child? name <;> rfl

theorem get?_cons_eq {e f : Entry} {n : String} {ns : List String} (h : e.get? (n :: ns) = some f) :
    ∃ g, e.child? n = some g ∧ g.get? ns = some f := by
  rw [get?] at h
  exact Option.bind_eq_some_iff.mp h

theorem eq_dir_of_child? {e f : Entry} {name : String} (h : e.child? name = some f) : ∃ es, e = .dir es := by
  cases e with
  | file content => exact absurd h (by simp [child?, entries])
  | dir es => exact ⟨es, rfl⟩

theorem put_cons {e f : Entry} {n : String} (h : e.child? n = some f) (new : Entry) (ns : List String) :
    put new e (n :: ns) = .dir (setEntry n (put new f ns) e.entries) := by
  rw [put, h, Option.getD_some]

theorem child?_entries (e : Entry) (name : String) : (dir e.entries).child? name = e.child? name := rfl

/-- On the way to the place where something is put, each entry is the old one with that put into it. -/
theorem get?_put {new : Entry} {ys : List String} : ∀ {xs : List String} {e f : Entry}, e.get? xs = some f →
    (put new e (xs ++ ys)).get? xs = some (put new f ys)
  | [], e, f, h => by
    rw [Option.some.inj h]
    rfl
  | x :: xs, e, f, h => by
    obtain ⟨g, hg, hf⟩ := get?_cons_eq h
    rw [List.cons_append, put_cons hg, get?, child?_setEntry, if_pos rfl]
    exact get?_put hf

theorem get?_put_self {e : Entry} {ns : List String} {es : List (String × Entry)} (name : String)
    (h : e.get? ns = some (.dir es)) (new : Entry) :
    (put new e (ns ++ [name])).get? ns = some (.dir (setEntry name new es)) := by
  rw [get?_put h]
  rfl

variable {new : Entry} {es : List (String × Entry)} {name : String}

section

variable (hnew : ∀ n ns, new.get? (n :: ns) = none) (hname : ∀ fs, (dir es).child? name ≠ some (.dir fs))

include hnew hname

/-- A file or an empty directory that is put into a directory changes nothing else, but for the
directories on the way to it. -/
theorem get?_put_or : ∀ {ns : List String} {e : Entry}, e.get? ns = some (.dir es) →
    ∀ {names : List String}, names ≠ ns ++ [name] →
    (put new e (ns ++ [name])).get? names = e.get? names ∨
      (∃ fs, e.get? names = some (.dir fs)) ∧ ∃ gs, (put new e (ns ++ [name])).get? names = some (.dir gs)
  | [], e, h, [], _ => Or.inr ⟨⟨es, h⟩, _, rfl⟩
  | [], e, h, m :: rest, hne => by
    cases Option.some.inj h
    have hput : put new (dir es) [name] = .dir (setEntry name new es) := rfl
    rw [List.nil_append, hput, get?, get?, child?_setEntry]
    refine Or.inl ?_
    by_cases hm : m = name
    · have hrest : rest ≠ [] := by
        rintro rfl
        exact hne (by rw [hm, List.nil_append])
      obtain ⟨k, ks, rfl⟩ := List.exists_cons_of_ne_nil hrest
      -- neither the new entry nor the old one has anything inside it
      rw [if_pos hm, hm, Option.bind_some, hnew]
      cases hold : (dir es).child? name with
      | none => rfl
      | some f =>
        cases f with
        | file c => rfl
        | dir fs => exact absurd hold (hname fs)
    · rw [if_neg hm]
  | n :: ns, e, h, [], _ => by
    obtain ⟨f, hf, -⟩ := get?_cons_eq h
    obtain ⟨fs, rfl⟩ := eq_dir_of_child? hf
    exact Or.inr ⟨⟨fs, rfl⟩, _, rfl⟩
  | n :: ns, e, h, m :: rest, hne => by
    obtain ⟨f, hf, hfs⟩ := get?_cons_eq h
    rw [List.cons_append, put_cons hf, get?, get?, child?_setEntry, child?_entries]
    by_cases hm : m = n
    · have hrest : rest ≠ ns ++ [name] := by
        rintro rfl
        exact hne (by rw [hm, List.cons_append])
      rw [if_pos hm, hm, hf, Option.bind_some, Option.bind_some]
      exact get?_put_or hfs hrest
    · rw [if_neg hm]
      exact Or.inl rfl

variable {ns names : List String} {e : Entry} (h : e.get? ns = some (.dir es))

include h

/-- **A file or an empty directory that is put into a directory changes no other file.** -/
theorem file_put (hne : names ≠ ns ++ [name]) (bs : List UInt8) :
    (put new e (ns ++ [name])).get? names = some (.file bs) ↔ e.get? names = some (.file bs) := by
  rcases get?_put_or hnew hname h hne with heq | ⟨⟨fs, hfs⟩, gs, hgs⟩
  · rw [heq]
  · simp [hfs, hgs]

theorem dir_put {fs : List (String × Entry)} (hfs : e.get? names = some (.dir fs)) :
    ∃ gs, (put new e (ns ++ [name])).get? names = some (.dir gs) := by
  have hne : names ≠ ns ++ [name] := by
    rintro rfl
    exact hname fs (get?_snoc h name ▸ hfs)
  rcases get?_put_or hnew hname h hne with heq | ⟨-, hdir⟩
  · exact ⟨fs, heq.trans hfs⟩
  · exact hdir

end

end Entry

/-! ### Following paths -/

namespace Disk

theorem follow_append (d : Disk) (shown : String) : ∀ (xs ys here : List String),
    d.follow shown here (xs ++ ys) =
      match d.follow shown here xs with
      | .ok there => d.follow shown there ys
      | .error e => .error e
  | [], ys, here => rfl
  | x :: xs, ys, here => by
    rw [List.cons_append, follow, follow]
    cases hat : d.root.get? here.reverse with
    | none => rfl
    | some e =>
      cases e with
      | file content => rfl
      | dir es =>
        dsimp only
        split_ifs
        · exact follow_append d shown xs ys _
        · rfl
        · exact follow_append d shown xs ys _
        · rfl

/-- Where names lead does not depend on how the path is shown, and still holds after changes that
leave entries where they were. -/
theorem follow_mono {d d' : Disk} (shown shown' : String)
    (hdirs : ∀ names es, d.root.get? names = some (.dir es) → ∃ es', d'.root.get? names = some (.dir es'))
    (hsome : ∀ names, (d.root.get? names).isSome → (d'.root.get? names).isSome) :
    ∀ {xs here there : List String}, d.follow shown here xs = .ok there → d'.follow shown' here xs = .ok there
  | [], here, there, h => h
  | x :: xs, here, there, h => by
    rw [follow] at h ⊢
    cases hat : d.root.get? here.reverse with
    | none =>
      rw [hat] at h
      cases h
    | some e =>
      cases e with
      | file content =>
        rw [hat] at h
        cases h
      | dir es =>
        obtain ⟨es', hes'⟩ := hdirs _ _ hat
        have hany : es.any (·.1 == x) = true → es'.any (·.1 == x) = true := by
          rw [Entry.any_eq_isSome, Entry.any_eq_isSome, ← Entry.get?_snoc hat, ← Entry.get?_snoc hes']
          exact hsome _
        rw [hat] at h
        rw [hes']
        dsimp only at h ⊢
        split_ifs at h with hup hlong hthere
        · rw [if_pos hup]
          exact follow_mono shown shown' hdirs hsome h
        · rw [if_neg hup, if_neg hlong, if_pos (hany hthere)]
          exact follow_mono shown shown' hdirs hsome h

def startOf (d : Disk) (p : Path) : List String :=
  if p.isAbsolute then [] else d.cwd.reverse

theorem locate_eq (d : Disk) (p : Path) :
    d.locate p =
      if p.toString.toList.contains '\x00' then .error .nulInPath
      else
        match d.follow p.toString (d.startOf p) p.names with
        | .ok here => .ok here.reverse
        | .error e => .error e := rfl

theorem locate_eq_ok {d : Disk} {p : Path} {ns : List String} :
    d.locate p = .ok ns ↔ p.toString.toList.contains '\x00' = false ∧
      d.follow p.toString (d.startOf p) p.names = .ok ns.reverse := by
  rw [locate_eq]
  by_cases hnul : p.toString.toList.contains '\x00' = true
  · rw [if_pos hnul, hnul]
    simp
  · rw [if_neg hnul, eq_false_of_ne_true hnul]
    cases d.follow p.toString (d.startOf p) p.names with
    | error e => simp
    | ok here =>
      simp only [Except.ok.injEq, true_and]
      exact List.reverse_eq_iff

/-- A path leads to a directory with these entries, which stands at the end of these names. -/
structure Opens (d : Disk) (dir : Path) (ns : List String) (es : List (String × Entry)) : Prop where
  located : d.locate dir = .ok ns
  entries : d.root.get? ns = some (.dir es)

/-- The files of two disks are the same but for those at some places. -/
def SameFilesBut (places : List (List String)) (d d' : Disk) : Prop :=
  ∀ names ∉ places, ∀ bs, d'.root.get? names = some (.file bs) ↔ d.root.get? names = some (.file bs)

theorem SameFilesBut.trans {d d' d'' : Disk} {xs ys zs : List (List String)} (h : SameFilesBut xs d d')
    (h' : SameFilesBut ys d' d'') (hxs : xs ⊆ zs) (hys : ys ⊆ zs) : SameFilesBut zs d d'' := fun names hnames bs =>
  (h' names (fun hmem => hnames (hys hmem)) bs).trans (h names (fun hmem => hnames (hxs hmem)) bs)

/-- The second disk has everything that the first has: directories are directories still, and no entry
is gone. -/
structure Extends (d d' : Disk) : Prop where
  cwd : d'.cwd = d.cwd
  dirs : ∀ names es, d.root.get? names = some (.dir es) → ∃ es', d'.root.get? names = some (.dir es')
  entries : ∀ names, (d.root.get? names).isSome → (d'.root.get? names).isSome

namespace Extends

theorem refl (d : Disk) : d.Extends d := ⟨rfl, fun _ es h => ⟨es, h⟩, fun _ h => h⟩

theorem trans {d d' d'' : Disk} (h : d.Extends d') (h' : d'.Extends d'') : d.Extends d'' where
  cwd := h'.cwd.trans h.cwd
  dirs := fun names es hes => by
    obtain ⟨es', hes'⟩ := h.dirs names es hes
    exact h'.dirs names es' hes'
  entries := fun names hnames => h'.entries names (h.entries names hnames)

theorem locate {d d' : Disk} (h : d.Extends d') {p : Path} {ns : List String} (hp : d.locate p = .ok ns) :
    d'.locate p = .ok ns := by
  obtain ⟨hnul, hfollow⟩ := locate_eq_ok.mp hp
  have hstart : d'.startOf p = d.startOf p := by rw [startOf, startOf, h.cwd]
  refine locate_eq_ok.mpr ⟨hnul, ?_⟩
  rw [hstart]
  exact follow_mono _ _ h.dirs h.entries hfollow

theorem put {d : Disk} {ns : List String} {es : List (String × Entry)} {name : String} {new : Entry}
    (hnew : ∀ n ns, new.get? (n :: ns) = none) (hns : d.root.get? ns = some (.dir es))
    (hname : ∀ fs, (Entry.dir es).child? name ≠ some (.dir fs)) :
    d.Extends { d with root := Entry.put new d.root (ns ++ [name]) } where
  cwd := rfl
  dirs := fun _ _ => Entry.dir_put hnew hname hns
  entries := by
    intro names hnames
    by_cases hat : names = ns ++ [name]
    · have hself := Entry.get?_put_self name hns new
      rw [hat, Entry.get?_snoc hself, Entry.child?_setEntry, if_pos rfl]
      rfl
    · rcases Entry.get?_put_or hnew hname hns hat with heq | ⟨-, gs, hgs⟩
      · exact heq ▸ hnames
      · exact hgs ▸ rfl

end Extends

theorem exists_opens {d : Disk} {dir : Path} {es : List (String × Entry)} (h : d.find dir = .ok (.dir es)) :
    ∃ ns, d.Opens dir ns es := by
  unfold find at h
  split at h
  · cases h
  · rename_i ns hns
    split at h
    · rename_i e he
      rw [Except.ok.inj h] at he
      exact ⟨ns, hns, he⟩
    · cases h

namespace Opens

variable {d d' : Disk} {dir : Path} {ns : List String} {es : List (String × Entry)} {name : String}
  {bs : List UInt8}

theorem find (h : d.Opens dir ns es) : d.find dir = .ok (.dir es) := by
  rw [Disk.find, h.located]
  dsimp only
  rw [h.entries]

theorem makeDir (h : d.Opens dir ns es) : d.makeDir dir = .ok d := by
  have hone : d.makeOne dir = .ok d := by rw [makeOne, h.find]
  rw [Disk.makeDir]
  cases hnames : dir.names.reverse with
  | nil =>
    have hdir : (⟨dir.root, []⟩ : Path) = dir := by
      rw [← List.reverse_nil, ← hnames, List.reverse_reverse]
    rw [makeAll, hdir, hone]
  | cons n rest =>
    have hdir : (⟨dir.root, (n :: rest).reverse⟩ : Path) = dir := by
      rw [← hnames, List.reverse_reverse]
    rw [makeAll, hdir, hone]

theorem list (h : d.Opens dir ns es) : d.list dir = .ok (es.map fun x => (dir.within x.1, x.2)) := by
  rw [Disk.list, find?, h.find]
  rfl

theorem locate_within (h : d.Opens dir ns es) (hname : name ≠ "..") :
    d.locate (dir.within name) =
      match (dir.within name).refusal? with
      | some fault => .error fault
      | none =>
        if ((Entry.dir es).child? name).isSome then .ok (ns ++ [name])
        else .error (.missing (dir.within name).toString) := by
  obtain ⟨-, hfollow⟩ := locate_eq_ok.mp h.located
  have hstart : d.startOf (dir.within name) = d.startOf dir := rfl
  have hdir := follow_mono dir.toString (dir.within name).toString (fun _ es he => ⟨es, he⟩) (fun _ hsome => hsome)
    hfollow
  have hup : (name == "..") = false := beq_eq_false_iff_ne.mpr hname
  have hnames : (dir.within name).names = dir.names ++ [name] := rfl
  rw [locate_eq, hstart, hnames, follow_append, hdir, Path.refusal?, Path.name_within, ← Entry.any_eq_isSome]
  simp only [follow, List.reverse_reverse, h.entries, hup, Bool.false_eq_true, if_false]
  split_ifs <;> simp

theorem find_within (h : d.Opens dir ns es) (hname : name ≠ "..") :
    d.find (dir.within name) =
      match (dir.within name).refusal? with
      | some fault => .error fault
      | none =>
        match (Entry.dir es).child? name with
        | some e => .ok e
        | none => .error (.missing (dir.within name).toString) := by
  rw [Disk.find, h.locate_within hname]
  cases (dir.within name).refusal? with
  | some fault => rfl
  | none =>
    cases hchild : (Entry.dir es).child? name with
    | none => rfl
    | some e =>
      have hentry := Entry.get?_snoc h.entries name
      simp [hentry, hchild]

/-- A file is put into a directory unless its path is refused or a directory stands there. -/
theorem write_eq (h : d.Opens dir ns es) (hname : name ≠ "..") (hrefusal : (dir.within name).refusal? = none)
    (hfile : ∀ fs, (Entry.dir es).child? name ≠ some (.dir fs)) (bs : List UInt8) :
    d.write (dir.within name) bs = .ok { d with root := Entry.put (.file bs) d.root (ns ++ [name]) } := by
  have hentry := Entry.get?_snoc h.entries name
  rw [Disk.write, h.locate_within hname, hrefusal]
  cases hchild : (Entry.dir es).child? name with
  | none =>
    simp only [Option.isSome_none, Bool.false_eq_true, if_false, Path.parent_within, h.located, h.entries,
      Path.name_within]
  | some e =>
    cases e with
    | dir fs => exact absurd hchild (hfile fs)
    | file c => simp only [Option.isSome_some, if_true, hentry, hchild]

theorem root_of_write (h : d.Opens dir ns es) (hname : name ≠ "..") (hwrite : d.write (dir.within name) bs = .ok d') :
    (dir.within name).refusal? = none ∧ (∀ fs, (Entry.dir es).child? name ≠ some (.dir fs)) ∧
      d' = { d with root := Entry.put (.file bs) d.root (ns ++ [name]) } := by
  have hrefusal : (dir.within name).refusal? = none := by
    rw [Disk.write, h.locate_within hname] at hwrite
    cases hrefusal : (dir.within name).refusal? with
    | none => rfl
    | some fault =>
      -- a refused path is not one that is missing
      rw [hrefusal] at hwrite
      unfold Path.refusal? at hrefusal
      split_ifs at hrefusal <;> (cases hrefusal; exact absurd hwrite (by simp))
  have hfile : ∀ fs, (Entry.dir es).child? name ≠ some (.dir fs) := by
    intro fs hchild
    rw [Disk.write, h.locate_within hname, hrefusal] at hwrite
    simp [hchild, Entry.get?_snoc h.entries name] at hwrite
  exact ⟨hrefusal, hfile, Except.ok.inj (hwrite.symm.trans (h.write_eq hname hrefusal hfile bs))⟩

/-- **Writing a file in a directory** sets that entry of the directory, and changes no other file. -/
theorem write (h : d.Opens dir ns es) (hname : name ≠ "..") (hwrite : d.write (dir.within name) bs = .ok d') :
    (dir.within name).refusal? = none ∧ d'.Opens dir ns (Entry.setEntry name (.file bs) es) ∧
      SameFilesBut [ns ++ [name]] d d' := by
  obtain ⟨hrefusal, hfile, rfl⟩ := h.root_of_write hname hwrite
  have hgrown := Extends.put (fun _ _ => rfl : ∀ n ns, (Entry.file bs).get? (n :: ns) = none) h.entries hfile
  refine ⟨hrefusal, ⟨hgrown.locate h.located, Entry.get?_put_self name h.entries (.file bs)⟩, ?_⟩
  intro names hnames
  exact Entry.file_put (fun _ _ => rfl) hfile h.entries (by simpa using hnames)

theorem write_extends (h : d.Opens dir ns es) (hname : name ≠ "..") (hwrite : d.write (dir.within name) bs = .ok d') :
    d.Extends d' := by
  obtain ⟨-, hfile, rfl⟩ := h.root_of_write hname hwrite
  exact .put (fun _ _ => rfl) h.entries hfile

end Opens

end Disk

/-! ### Making directories -/

theorem Path.eq_within {p : Path} (h : p.names ≠ []) : p = p.parent.within p.name := by
  rw [Path.within, Path.parent, Path.name, List.getLast?_eq_some_getLast h, Option.getD_some,
    List.dropLast_concat_getLast h]

theorem Entry.isSome_get?_dropLast {e : Entry} {ns : List String} (h : (e.get? ns).isSome) :
    (e.get? ns.dropLast).isSome := by
  by_cases hns : ns = []
  · rw [hns] at h ⊢
    exact h
  · rw [← List.dropLast_concat_getLast hns, Entry.get?_append] at h
    exact Option.isSome_of_isSome_bind h

namespace Disk

/-- Directories may have been made: nothing is gone, and no file has changed. -/
structure Spares (d d' : Disk) : Prop where
  grown : d.Extends d'
  files : d.SameFilesBut [] d'

theorem Spares.refl (d : Disk) : d.Spares d := ⟨.refl d, fun _ _ _ => Iff.rfl⟩

theorem Spares.trans {d d' d'' : Disk} (h : d.Spares d') (h' : d'.Spares d'') : d.Spares d'' :=
  ⟨h.grown.trans h'.grown, h.files.trans h'.files (List.Subset.refl _) (List.Subset.refl _)⟩

theorem Spares.file_iff {d d' : Disk} (h : d.Spares d') (place : List String) (bs : List UInt8) :
    d'.root.get? place = some (.file bs) ↔ d.root.get? place = some (.file bs) :=
  h.files place List.not_mem_nil bs

/-- A directory has been made: nothing is gone, no file has changed, and the path leads to it. -/
structure Makes (d : Disk) (p : Path) (d' : Disk) : Prop where
  grown : d.Extends d'
  files : d.SameFilesBut [] d'
  opens : ∃ ns es, d'.Opens p ns es

section

variable {d d' : Disk} {p q : Path} {ns : List String} {es : List (String × Entry)}

theorem Opens.find_up_ne_missing (h : d.Opens q ns es) (s : String) : d.find (q.within "..") ≠ .error (.missing s) := by
  intro hmissing
  obtain ⟨-, hfollow⟩ := locate_eq_ok.mp h.located
  have hthere : (d.root.get? ns.dropLast).isSome := Entry.isSome_get?_dropLast (by rw [h.entries]; rfl)
  have hup : d.follow (q.within "..").toString (d.startOf (q.within "..")) (q.within "..").names =
      .ok ns.dropLast.reverse := by
    have hq := follow_mono q.toString (q.within "..").toString (fun _ es he => ⟨es, he⟩) (fun _ hsome => hsome) hfollow
    have hstart : d.startOf (q.within "..") = d.startOf q := rfl
    have hnames : (q.within "..").names = q.names ++ [".."] := rfl
    rw [hstart, hnames, follow_append, hq]
    simp [follow, h.entries, List.drop_one]
  rw [Disk.find, locate_eq, hup] at hmissing
  split_ifs at hmissing with hnul
  · cases hmissing
  · obtain ⟨e, he⟩ := Option.isSome_iff_exists.mp hthere
    simp [he] at hmissing

theorem Opens.child?_of_missing (h : d.Opens q ns es) {name s : String}
    (hmissing : d.find (q.within name) = .error (.missing s)) :
    name ≠ ".." ∧ (q.within name).refusal? = none ∧ (Entry.dir es).child? name = none := by
  have hname : name ≠ ".." := by
    rintro rfl
    exact h.find_up_ne_missing s hmissing
  have hfind := h.find_within hname
  rw [hmissing] at hfind
  refine ⟨hname, ?_⟩
  cases hrefusal : (q.within name).refusal? with
  | some fault =>
    rw [hrefusal] at hfind
    obtain rfl := Except.error.inj hfind
    unfold Path.refusal? at hrefusal
    split_ifs at hrefusal <;> exact absurd (Option.some.inj hrefusal) (by simp)
  | none =>
    refine ⟨rfl, ?_⟩
    cases hchild : (Entry.dir es).child? name with
    | none => rfl
    | some e =>
      rw [hrefusal, hchild] at hfind
      cases hfind

theorem Opens.makes (h : d.Opens q ns es) {name s : String} (hmissing : d.find (q.within name) = .error (.missing s)) :
    d.Makes (q.within name) { d with root := Entry.put (.dir []) d.root (ns ++ [name]) } := by
  obtain ⟨hname, hrefusal, hnone⟩ := h.child?_of_missing hmissing
  have hempty : ∀ n ns, (Entry.dir []).get? (n :: ns) = none := fun _ _ => rfl
  have hfree : ∀ fs, (Entry.dir es).child? name ≠ some (.dir fs) := fun fs => by simp [hnone]
  have hself := Entry.get?_put_self name h.entries (.dir [])
  have hgrown := Extends.put hempty h.entries hfree
  have hopens : Opens { d with root := Entry.put (.dir []) d.root (ns ++ [name]) } q ns
      (Entry.setEntry name (.dir []) es) := ⟨hgrown.locate h.located, hself⟩
  have hhere : (Entry.put (.dir []) d.root (ns ++ [name])).get? (ns ++ [name]) = some (.dir []) := by
    rw [Entry.get?_snoc hself, Entry.child?_setEntry, if_pos rfl]
  refine ⟨hgrown, ?_, ns ++ [name], [], ?_, hhere⟩
  · intro names _ bs
    by_cases hat : names = ns ++ [name]
    · -- the directory is no file, and nothing was there before
      show (Entry.put (.dir []) d.root (ns ++ [name])).get? names = _ ↔ _
      rw [hat, hhere, Entry.get?_snoc h.entries, hnone]
      simp
    · exact Entry.file_put hempty hfree h.entries hat bs
  · rw [hopens.locate_within hname, hrefusal, Entry.child?_setEntry, if_pos rfl]
    rfl

theorem makeOne_makes (h : d.makeOne p = .ok d') : d.Makes p d' := by
  unfold makeOne at h
  split at h
  · rename_i es hes
    obtain rfl := Except.ok.inj h
    obtain ⟨ns, hopens⟩ := exists_opens hes
    exact ⟨.refl d, fun _ _ _ => Iff.rfl, ns, es, hopens⟩
  · cases h
  · rename_i s hmissing
    split at h
    · rename_i ns hns
      split_ifs at h with hdir
      obtain rfl := Except.ok.inj h
      obtain ⟨es, hes⟩ : ∃ es, d.root.get? ns = some (.dir es) := by
        cases hentry : d.root.get? ns with
        | none => simp [hentry] at hdir
        | some e =>
          cases e with
          | file bs => simp [hentry, Entry.isDir] at hdir
          | dir es => exact ⟨es, rfl⟩
      have hopens : d.Opens p.parent ns es := ⟨hns, hes⟩
      by_cases hnames : p.names = []
      · -- a path without names is its own parent, and that is there
        have hself : p.parent = p := by
          rw [Path.parent, hnames, List.dropLast_nil, ← hnames]
        rw [hself] at hopens
        exact absurd (hopens.find.symm.trans hmissing) (by simp)
      · have hp := Path.eq_within hnames
        rw [hp] at hmissing
        have hmakes := hopens.makes hmissing
        rwa [← hp] at hmakes
    · cases h
  · cases h

theorem Makes.after {d'' : Disk} (h : d.Makes q d') (h' : d'.Makes p d'') : d.Makes p d'' where
  grown := h.grown.trans h'.grown
  files := h.files.trans h'.files (List.Subset.refl _) (List.Subset.refl _)
  opens := h'.opens

theorem makeAll_makes {root : String} : ∀ {names : List String} {d' : Disk}, d.makeAll root names = .ok d' →
    d.Makes ⟨root, names.reverse⟩ d'
  | [], d', h => makeOne_makes h
  | n :: ns, d', h => by
    rw [makeAll] at h
    split at h
    · split at h
      · rename_i d₁ hd₁
        exact (makeAll_makes hd₁).after (makeOne_makes h)
      · cases h
    · exact makeOne_makes h

/-- **Making a directory changes no file.** -/
theorem makeDir_makes (h : d.makeDir p = .ok d') : d.Makes p d' := by
  have hmakes := makeAll_makes h
  rwa [List.reverse_reverse] at hmakes

theorem Makes.spares (h : d.Makes p d') : d.Spares d' := ⟨h.grown, h.files⟩

/-! ### Attempts -/

theorem tryOne_spares (d : Disk) (p : Path) : d.Spares ((orNothing (d.makeOne p)).getD d) := by
  cases h : d.makeOne p with
  | error fault => exact .refl d
  | ok d' => exact (makeOne_makes h).spares

theorem tryAll_spares (d : Disk) (root : String) : ∀ names : List String, d.Spares (d.tryAll root names)
  | [] => tryOne_spares d ⟨root, []⟩
  | n :: ns => by
    unfold tryAll
    dsimp only
    split
    · rename_i d' hd'
      exact (makeOne_makes hd').spares
    · split
      · rename_i d₁ hd₁
        exact (makeAll_makes hd₁).spares.trans (tryOne_spares d₁ _)
      · exact tryAll_spares d root ns
    · exact .refl d

/-- **An attempt to make a directory changes no file**, however far it gets. -/
theorem tryMakeDir_spares (d : Disk) (p : Path) : d.Spares (d.tryMakeDir p) := tryAll_spares d p.root _

end

end Disk

end SourceAudit
