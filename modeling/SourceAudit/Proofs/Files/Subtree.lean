/-
# Texts of paths, and the tree below a path

A path that was read has plain names: none is empty or a single dot, and none has
a slash in it (`Path.plain_ofString`). A path with plain names is read back from
its text (`Path.ofString_toString`), so different paths have different texts, and
a null character in a text is not lost (`Path.nul_mem_toString_ofString`).

If a path leads to an entry, then what a longer path leads to is decided by that entry
alone (`Disk.find?_below`). This needs names that a file can have (`Path.ProperName`);
in a proper tree all names are such (`Entry.Proper`).
-/
import Mathlib.Data.List.Basic
import SourceAudit.Files.Encoding
import SourceAudit.Proofs.Files.Disk

namespace SourceAudit

/-! ### Cutting at a character -/

namespace Text

variable {c : Char}

theorem splitFrom_cons (piece : List Char) (done : List (List Char)) (d : Char) (cs : List Char) :
    splitFrom [c] piece done 0 (d :: cs) =
      if c = d then splitFrom [c] [] (piece.reverse :: done) 0 cs else splitFrom [c] (d :: piece) done 0 cs := by
  simp [splitFrom, List.isPrefixOf]

theorem splitFrom_append_cons : ∀ {xs : List Char} (piece : List Char) (done : List (List Char)) (rest : List Char),
    c ∉ xs → splitFrom [c] piece done 0 (xs ++ c :: rest) = splitFrom [c] [] ((piece.reverse ++ xs) :: done) 0 rest
  | [], piece, done, rest, _ => by simp [splitFrom, List.isPrefixOf]
  | d :: xs, piece, done, rest, h => by
    rw [List.mem_cons, not_or] at h
    rw [List.cons_append, splitFrom_cons, if_neg h.1, splitFrom_append_cons (d :: piece) done rest h.2]
    simp

theorem splitFrom_intercalate (done : List (List Char)) : ∀ {pieces : List (List Char)}, pieces ≠ [] →
    (∀ x ∈ pieces, c ∉ x) → splitFrom [c] [] done 0 ([c].intercalate pieces) = done.reverse ++ pieces
  | [x], _, h => by
    have hx : c ∉ x := h x (by simp)
    simp [List.intercalate, splitFrom_of_notMem [] done hx]
  | x :: y :: rest, _, h => by
    rw [List.forall_mem_cons] at h
    have ih := splitFrom_intercalate (x :: done) (by simp) h.2
    have hjoin : [c].intercalate (x :: y :: rest) = x ++ c :: [c].intercalate (y :: rest) := by
      simp [List.intercalate]
    rw [hjoin, splitFrom_append_cons [] done _ h.1]
    simpa using ih

theorem notMem_of_mem_splitFrom : ∀ {cs piece : List Char} {done : List (List Char)}, c ∉ piece →
    (∀ x ∈ done, c ∉ x) → ∀ x ∈ splitFrom [c] piece done 0 cs, c ∉ x
  | [], piece, done, hpiece, hdone => by
    intro x hx
    rw [splitFrom, List.mem_reverse] at hx
    rcases List.mem_cons.mp hx with rfl | hx
    · simpa using hpiece
    · exact hdone x hx
  | d :: cs, piece, done, hpiece, hdone => by
    rw [splitFrom_cons]
    split_ifs with hd
    · refine notMem_of_mem_splitFrom (by simp) ?_
      rw [List.forall_mem_cons]
      exact ⟨by simpa using hpiece, hdone⟩
    · refine notMem_of_mem_splitFrom ?_ hdone
      rw [List.mem_cons, not_or]
      exact ⟨hd, hpiece⟩

theorem exists_mem_splitFrom {x : Char} (hx : x ≠ c) : ∀ {cs piece : List Char} {done : List (List Char)},
    (x ∈ cs ∨ x ∈ piece ∨ ∃ y ∈ done, x ∈ y) → ∃ y ∈ splitFrom [c] piece done 0 cs, x ∈ y
  | [], piece, done, h => by
    rw [splitFrom]
    rcases h with h | h | ⟨y, hy, h⟩
    · cases h
    · exact ⟨piece.reverse, by simp, by simpa using h⟩
    · exact ⟨y, by simp [hy], h⟩
  | d :: cs, piece, done, h => by
    rw [splitFrom_cons]
    split_ifs with hd
    · apply exists_mem_splitFrom hx
      rcases h with h | h | ⟨y, hy, h⟩
      · rcases List.mem_cons.mp h with rfl | h
        · exact absurd hd.symm hx
        · exact .inl h
      · exact .inr (.inr ⟨piece.reverse, by simp, by simpa using h⟩)
      · exact .inr (.inr ⟨y, by simp [hy], h⟩)
    · apply exists_mem_splitFrom hx
      rcases h with h | h | h
      · rcases List.mem_cons.mp h with rfl | h
        · exact .inr (.inl (by simp))
        · exact .inl h
      · exact .inr (.inl (by simp [h]))
      · exact .inr (.inr h)

/-- What the text ends in, if it has no occurrence in it, the last piece ends in. -/
theorem exists_splitFrom_append {tail : List Char} (h : c ∉ tail) : ∀ (cs piece : List Char) (done : List (List Char)),
    ∃ pieces last, splitFrom [c] piece done 0 (cs ++ tail) = pieces ++ [last] ∧ tail <:+ last
  | [], piece, done => by
    refine ⟨done.reverse, piece.reverse ++ tail, ?_, List.suffix_append _ _⟩
    rw [List.nil_append, splitFrom_of_notMem piece done h, List.reverse_cons]
  | d :: cs, piece, done => by
    rw [List.cons_append, splitFrom_cons]
    split_ifs
    · exact exists_splitFrom_append h cs [] (piece.reverse :: done)
    · exact exists_splitFrom_append h cs (d :: piece) done

theorem split_slash (s : String) : split s "/" = (splitFrom ['/'] [] [] 0 s.toList).map String.ofList := by
  have hsep : "/".toList = ['/'] := by simp
  rw [split, hsep]

theorem toList_join_slash (names : List String) :
    (join "/" names).toList = ['/'].intercalate (names.map String.toList) := by
  have hsep : "/".toList = ['/'] := by simp
  rw [join, String.toList_intercalate, hsep]

end Text

/-! ### Plain paths -/

namespace Path

/-- A name that is kept when a path is read. -/
structure PlainName (n : String) : Prop where
  nonempty : n ≠ ""
  notDot : n ≠ "."
  noSlash : '/' ∉ n.toList

/-- A path as it is read: the root is no, one or two slashes, and all names are plain. -/
structure Plain (p : Path) : Prop where
  root : p.root = "" ∨ p.root = "/" ∨ p.root = "//"
  names : ∀ n ∈ p.names, PlainName n

theorem plain_ofString (s : String) : (ofString s).Plain where
  root := by
    simp only [ofString]
    split_ifs <;> simp
  names := by
    intro n hn
    simp only [ofString, List.mem_filter, Text.split_slash, Bool.and_eq_true, bne_iff_ne] at hn
    obtain ⟨hmem, hempty, hdot⟩ := hn
    obtain ⟨x, hx, rfl⟩ := List.mem_map.mp hmem
    have hslash := Text.notMem_of_mem_splitFrom (by simp) (by simp) x hx
    exact ⟨hempty, hdot, by simpa using hslash⟩

theorem map_toList_plain {names : List String} (h : ∀ n ∈ names, PlainName n) :
    ∀ x ∈ names.map String.toList, '/' ∉ x := by
  intro x hx
  obtain ⟨n, hn, rfl⟩ := List.mem_map.mp hx
  exact (h n hn).noSlash

/-- Names joined by slashes are cut apart again, with the empty names before them for each slash at
the start. -/
theorem split_join {names : List String} (hne : names ≠ []) (h : ∀ n ∈ names, PlainName n) (done : List (List Char)) :
    (Text.splitFrom ['/'] [] done 0 (Text.join "/" names).toList).map String.ofList =
      done.reverse.map String.ofList ++ names := by
  rw [Text.toList_join_slash, Text.splitFrom_intercalate done (by simpa using hne) (map_toList_plain h),
    List.map_append, List.map_map]
  simp

theorem filter_plain {names : List String} (h : ∀ n ∈ names, PlainName n) :
    names.filter (fun n => n != "" && n != ".") = names := by
  rw [List.filter_eq_self]
  intro n hn
  simp [(h n hn).nonempty, (h n hn).notDot]

theorem takeWhile_join {names : List String} (hne : names ≠ []) (h : ∀ n ∈ names, PlainName n) :
    (Text.join "/" names).toList.takeWhile (· == '/') = [] := by
  obtain ⟨n, rest, rfl⟩ := List.exists_cons_of_ne_nil hne
  obtain ⟨hempty, -, hslash⟩ := h n (by simp)
  have hchars : n.toList ≠ [] := by simpa using hempty
  obtain ⟨c, cs, hcs⟩ := List.exists_cons_of_ne_nil hchars
  have hc : c ≠ '/' := by
    rintro rfl
    exact hslash (by simp [hcs])
  rw [Text.toList_join_slash]
  cases rest with
  | nil => simp [List.intercalate, hcs, hc]
  | cons m rest => simp [List.intercalate, hcs, hc]

/-- **A path is read back from its text.** -/
theorem ofString_toString {p : Path} (h : p.Plain) : ofString p.toString = p := by
  obtain ⟨root, names⟩ := p
  obtain ⟨hroot, hnames⟩ := h
  dsimp only at hroot hnames
  by_cases hne : names = []
  · subst hne
    rcases hroot with rfl | rfl | rfl <;> decide
  · have hempty : names.isEmpty = false := by simpa using hne
    have hstart := takeWhile_join hne hnames
    have hfilter := filter_plain hnames
    have hsplit := split_join hne hnames
    rcases hroot with rfl | rfl | rfl
    · have htext : toString ⟨"", names⟩ = Text.join "/" names := by simp [toString, hempty]
      rw [htext]
      simp [ofString, hstart, Text.split_slash, hsplit, hfilter]
    · have htext : (toString ⟨"/", names⟩).toList = '/' :: (Text.join "/" names).toList := by simp [toString]
      have hcut := hsplit [[]]
      have hpieces : Text.split (toString ⟨"/", names⟩) "/" = "" :: names := by
        rw [Text.split_slash, htext]
        simpa [Text.splitFrom, List.isPrefixOf] using hcut
      simp [ofString, htext, hstart, hpieces, hfilter]
    · have htext : (toString ⟨"//", names⟩).toList = '/' :: '/' :: (Text.join "/" names).toList := by simp [toString]
      have hcut := hsplit [[], []]
      have hpieces : Text.split (toString ⟨"//", names⟩) "/" = "" :: "" :: names := by
        rw [Text.split_slash, htext]
        simpa [Text.splitFrom, List.isPrefixOf] using hcut
      simp [ofString, htext, hstart, hpieces, hfilter]

theorem toString_inj {p q : Path} (hp : p.Plain) (hq : q.Plain) : p.toString = q.toString ↔ p = q := by
  constructor
  · intro h
    rw [← ofString_toString hp, h, ofString_toString hq]
  · rintro rfl
    rfl

/-- The characters of a path are those of its names, slashes, and the dot of the empty path. -/
theorem mem_toString {p : Path} (hp : p.Plain) {c : Char} (hslash : c ≠ '/') (hdot : c ≠ '.') :
    c ∈ p.toString.toList ↔ ∃ n ∈ p.names, c ∈ n.toList := by
  have hroot : c ∉ p.root.toList := by
    rcases hp.root with h | h | h <;> simp [h, hslash]
  have hjoin : ∀ names : List String, c ∈ (Text.join "/" names).toList ↔ ∃ n ∈ names, c ∈ n.toList := by
    intro names
    rw [Text.toList_join_slash]
    induction names with
    | nil => simp [List.intercalate]
    | cons n rest ih =>
      cases rest with
      | nil => simp [List.intercalate]
      | cons m rest =>
        have hcons : ['/'].intercalate ((n :: m :: rest).map String.toList) =
            n.toList ++ '/' :: ['/'].intercalate ((m :: rest).map String.toList) := by simp [List.intercalate]
        rw [hcons, List.mem_append, List.mem_cons, ih]
        simp [hslash]
  rw [toString]
  by_cases hempty : (p.root == "" && p.names.isEmpty) = true
  · have hnil : p.names = [] := by simpa using (Bool.and_eq_true_iff.mp hempty).2
    rw [if_pos hempty, hnil]
    simp [hdot]
  · rw [if_neg hempty, String.toList_append, List.mem_append, hjoin]
    simp [hroot]

theorem nul_mem_toString_ofString {s : String} (h : '\x00' ∈ s.toList) : '\x00' ∈ (ofString s).toString.toList := by
  rw [mem_toString (plain_ofString s) (by decide) (by decide)]
  obtain ⟨x, hx, hnul⟩ : ∃ x ∈ Text.splitFrom ['/'] [] [] 0 s.toList, '\x00' ∈ x :=
    Text.exists_mem_splitFrom (by decide) (.inl h)
  refine ⟨String.ofList x, ?_, by simpa using hnul⟩
  simp only [ofString, List.mem_filter, Text.split_slash]
  refine ⟨List.mem_map_of_mem hx, ?_⟩
  have hempty : String.ofList x ≠ "" := by
    intro heq
    rw [← String.toList_inj, String.toList_ofList] at heq
    simp [heq] at hnul
  have hdot : String.ofList x ≠ "." := by
    intro heq
    rw [← String.toList_inj, String.toList_ofList] at heq
    simp [heq] at hnul
  simp [hempty, hdot]

/-- A text with this end, as a path in a directory, has a last name with this end. -/
theorem exists_child_eq_within {tail : String} (hslash : '/' ∉ tail.toList) (hlong : 1 < tail.toList.length)
    (dir : Path) (s : String) : ∃ (q : Path) (name : String), dir.child (s ++ tail) = q.within name ∧
      tail.toList <:+ name.toList := by
  obtain ⟨pieces, last, hsplit, hend⟩ := Text.exists_splitFrom_append hslash s.toList [] []
  have hshort : ∀ t : String, t.toList.length ≤ 1 → String.ofList last ≠ t := by
    rintro t ht rfl
    rw [String.toList_ofList] at ht
    have hlength := hend.length_le
    omega
  have hempty := hshort "" (by decide)
  have hdot := hshort "." (by decide)
  obtain ⟨names, hnames⟩ : ∃ names, (ofString (s ++ tail)).names = names ++ [String.ofList last] := by
    refine ⟨(pieces.map String.ofList).filter fun n => n != "" && n != ".", ?_⟩
    rw [ofString, Text.split_slash, String.toList_append, hsplit]
    simp [hempty, hdot]
  rw [child, join]
  split_ifs
  · refine ⟨⟨(ofString (s ++ tail)).root, names⟩, String.ofList last, ?_, by simpa using hend⟩
    rw [within, ← hnames]
  · refine ⟨⟨dir.root, dir.names ++ names⟩, String.ofList last, ?_, by simpa using hend⟩
    rw [within, hnames, List.append_assoc]

end Path

namespace Path

/-! ### The tree below a path -/

def below (p : Path) (names : List String) : Path := ⟨p.root, p.names ++ names⟩

theorem below_nil (p : Path) : p.below [] = p := by
  simp [below]

theorem below_below (p : Path) (xs ys : List String) : (p.below xs).below ys = p.below (xs ++ ys) := by
  simp [below]

theorem join_relative (p : Path) (names : List String) : p.join ⟨"", names⟩ = p.below names := rfl

/-- A name that a file can have. -/
structure ProperName (n : String) : Prop extends PlainName n where
  notUp : n ≠ ".."
  noNul : '\x00' ∉ n.toList
  short : (Utf8.encode n).length ≤ Disk.maxName

instance (n : String) : Decidable (ProperName n) :=
  decidable_of_iff (n ≠ "" ∧ n ≠ "." ∧ '/' ∉ n.toList ∧ n ≠ ".." ∧ '\x00' ∉ n.toList ∧
      (Utf8.encode n).length ≤ Disk.maxName)
    ⟨fun ⟨h₁, h₂, h₃, h₄, h₅, h₆⟩ => ⟨⟨h₁, h₂, h₃⟩, h₄, h₅, h₆⟩,
      fun h => ⟨h.nonempty, h.notDot, h.noSlash, h.notUp, h.noNul, h.short⟩⟩

theorem child_of_proper {n : String} (h : ProperName n) (p : Path) : p.child n = p.below [n] :=
  child_eq h.noSlash h.nonempty h.notDot p

section

variable {p : Path} (hp : p.Plain) {names : List String} (h : ∀ n ∈ names, ProperName n)

include hp h

theorem plain_below : (p.below names).Plain where
  root := hp.root
  names := by
    intro n hn
    rcases List.mem_append.mp hn with hn | hn
    · exact hp.names n hn
    · exact (h n hn).toPlainName

theorem toString_below_nul (hnul : p.toString.toList.contains '\x00' = false) :
    (p.below names).toString.toList.contains '\x00' = false := by
  rw [List.contains_eq_mem, decide_eq_false_iff_not] at hnul ⊢
  rw [mem_toString hp (by decide) (by decide)] at hnul
  rw [mem_toString (plain_below hp h) (by decide) (by decide)]
  rintro ⟨n, hn, hmem⟩
  rcases List.mem_append.mp hn with hn | hn
  · exact hnul ⟨n, hn, hmem⟩
  · exact (h n hn).noNul hmem

end

theorem relativeTo?_below (p : Path) (names : List String) : (p.below names).relativeTo? p = some ⟨"", names⟩ := by
  have hroot : ((p.below names).root == p.root) = true := beq_self_eq_true p.root
  have hstart : p.names.isPrefixOf (p.below names).names = true := by
    rw [List.isPrefixOf_iff_prefix]
    exact List.prefix_append p.names names
  rw [relativeTo?, hroot, hstart]
  simp [below]

theorem name_below (p : Path) {names : List String} (h : names ≠ []) : (p.below names).name = names.getLast h := by
  rw [Path.name, below, List.getLast?_append_of_ne_nil _ h, List.getLast?_eq_getLast_of_ne_nil h, Option.getD_some]

end Path

namespace Disk

theorem follow_below {d : Disk} (shown : String) : ∀ {names here : List String} {e : Entry},
    d.root.get? here.reverse = some e → (∀ n ∈ names, Path.ProperName n) →
    (d.follow shown here names = .ok (names.reverse ++ here) ∧ (e.get? names).isSome) ∨
      ((∃ s, d.follow shown here names = .error (.missing s) ∨ d.follow shown here names = .error (.notDirectory s)) ∧
        e.get? names = none)
  | [], here, e, _, _ => .inl ⟨rfl, rfl⟩
  | n :: ns, here, e, hat, hnames => by
    rw [List.forall_mem_cons] at hnames
    obtain ⟨hn, hns⟩ := hnames
    rw [follow, hat, Entry.get?]
    cases e with
    | file content => exact .inr ⟨⟨shown, .inr rfl⟩, rfl⟩
    | dir es =>
      have hup : (n == "..") = false := beq_eq_false_iff_ne.mpr hn.notUp
      have hshort : ¬maxName < (Utf8.encode n).length := by
        have := hn.short
        omega
      dsimp only
      rw [hup, if_neg Bool.false_ne_true, if_neg hshort, Entry.any_eq_isSome]
      cases hchild : (Entry.dir es).child? n with
      | none => exact .inr ⟨⟨shown, .inl rfl⟩, rfl⟩
      | some f =>
        have hthere : d.root.get? (n :: here).reverse = some f := by
          rw [List.reverse_cons, Entry.get?_snoc hat, hchild]
        have ih := follow_below shown hthere hns
        rw [Option.isSome_some, if_pos rfl, Option.bind_some, List.reverse_cons, List.append_assoc]
        exact ih

section

variable {d : Disk} {p : Path} {ns : List String} (hp : p.Plain) (hlocate : d.locate p = .ok ns)
  {names : List String} (hnames : ∀ n ∈ names, Path.ProperName n)

include hp hlocate hnames

theorem locate_below : d.locate (p.below names) =
      match d.follow (p.below names).toString ns.reverse names with
      | .ok here => .ok here.reverse
      | .error e => .error e := by
  obtain ⟨hnul, hfollow⟩ := locate_eq_ok.mp hlocate
  have hstart : d.startOf (p.below names) = d.startOf p := rfl
  have hall : (p.below names).names = p.names ++ names := rfl
  have hhere := follow_mono p.toString (p.below names).toString (fun _ es h => ⟨es, h⟩) (fun _ h => h) hfollow
  have hthen : d.follow (p.below names).toString (d.startOf p) (p.names ++ names) =
      d.follow (p.below names).toString ns.reverse names := by
    rw [follow_append, hhere]
  rw [locate_eq, Path.toString_below_nul hp hnames hnul, if_neg Bool.false_ne_true, hstart, hall]
  cases hend : d.follow (p.below names).toString ns.reverse names with
  | ok here => simp only [hthen, hend]
  | error fault => simp only [hthen, hend]

theorem find?_below {e : Entry} (he : d.root.get? ns = some e) : d.find? (p.below names) = .ok (e.get? names) := by
  have hat : d.root.get? ns.reverse.reverse = some e := by rw [List.reverse_reverse, he]
  rw [find?, find, locate_below hp hlocate hnames]
  rcases follow_below (p.below names).toString hat hnames with ⟨hok, hsome⟩ | ⟨⟨s, hmissing | hfile⟩, hnone⟩
  · obtain ⟨f, hf⟩ := Option.isSome_iff_exists.mp hsome
    have hthere : d.root.get? (names.reverse ++ ns.reverse).reverse = some f := by
      rw [List.reverse_append, List.reverse_reverse, List.reverse_reverse, Entry.get?_append, he, Option.bind_some, hf]
    rw [hok]
    dsimp only
    rw [hthere, hf]
  · rw [hmissing, hnone]
  · rw [hfile, hnone]

theorem exists_find?_below : ∃ o, d.find? (p.below names) = .ok o := by
  cases he : d.root.get? ns with
  | some e => exact ⟨_, find?_below hp hlocate hnames he⟩
  | none =>
    have hat : d.root.get? ns.reverse.reverse = none := by rw [List.reverse_reverse, he]
    refine ⟨none, ?_⟩
    rw [find?, find, locate_below hp hlocate hnames]
    cases names with
    | nil =>
      rw [follow]
      dsimp only
      rw [hat]
    | cons n names =>
      rw [follow, hat]

omit hnames in
theorem exists_locate_of_prefix {q : Path} (hroot : q.root = p.root) (hstart : q.names <+: p.names) :
    q.Plain ∧ ∃ ms, d.locate q = .ok ms := by
  obtain ⟨rest, hrest⟩ := hstart
  have hq : q.Plain := ⟨hroot ▸ hp.root, fun n hn => hp.names n (by rw [← hrest]; exact List.mem_append_left _ hn)⟩
  refine ⟨hq, ?_⟩
  obtain ⟨hnul, hfollow⟩ := locate_eq_ok.mp hlocate
  have hstart : d.startOf p = d.startOf q := by
    rw [startOf, startOf, Path.isAbsolute, Path.isAbsolute, hroot]
  rw [← hrest, hstart, follow_append] at hfollow
  cases hfirst : d.follow p.toString (d.startOf q) q.names with
  | error fault => simp [hfirst] at hfollow
  | ok here =>
    have hhere := follow_mono p.toString q.toString (fun _ es h => ⟨es, h⟩) (fun _ h => h) hfirst
    refine ⟨here.reverse, locate_eq_ok.mpr ⟨?_, by rw [List.reverse_reverse]; exact hhere⟩⟩
    rw [List.contains_eq_mem, decide_eq_false_iff_not] at hnul ⊢
    rw [Path.mem_toString hp (by decide) (by decide)] at hnul
    rw [Path.mem_toString hq (by decide) (by decide)]
    rintro ⟨n, hn, hmem⟩
    exact hnul ⟨n, by rw [← hrest]; exact List.mem_append_left _ hn, hmem⟩

end

end Disk

/-! ### Proper trees -/

namespace Entry

/-- A tree as a file system has it: all names are such that a file can have them, and each entry is
found by its names. -/
structure Proper (e : Entry) : Prop where
  names : ∀ x ∈ e.contents [], ∀ n ∈ x.1, Path.ProperName n
  found : ∀ x ∈ e.contents [], e.get? x.1 = some x.2

mutual

theorem length_lt_of_mem_contents {names : List String} : ∀ {e : Entry} {x : List String × Entry},
    x ∈ e.contents names → names.length < x.1.length
  | .file _, x, h => absurd h (by simp [contents])
  | .dir es, x, h => length_lt_of_mem_contentsOfAll (by rwa [contents] at h)

theorem length_lt_of_mem_contentsOfAll {names : List String} : ∀ {es : List (String × Entry)} {x : List String × Entry},
    x ∈ contentsOfAll names es → names.length < x.1.length
  | [], x, h => absurd h (by simp [contentsOfAll])
  | (n, e) :: rest, x, h => by
    rw [contentsOfAll] at h
    rcases List.mem_cons.mp h with rfl | h
    · simp
    · rcases List.mem_append.mp h with h | h
      · have hlength := length_lt_of_mem_contents h
        rw [List.length_append, List.length_singleton] at hlength
        omega
      · exact length_lt_of_mem_contentsOfAll h

end

theorem ne_nil_of_mem_contents {e : Entry} {x : List String × Entry} (h : x ∈ e.contents []) : x.1 ≠ [] :=
  List.ne_nil_of_length_pos (length_lt_of_mem_contents h)

end Entry

def sourceText (bs : List UInt8) : String :=
  Text.joinNewlines ((decodeFirst? sourceEncodings bs).getD "")

theorem isSome_decodeFirst?_source (bs : List UInt8) : (decodeFirst? sourceEncodings bs).isSome = true := by
  have hlast : Encoding.latin1 ∈ sourceEncodings := by decide
  have htakes : (Encoding.latin1.decode? bs).isSome = true := rfl
  exact List.findSome?_isSome_iff.mpr ⟨.latin1, hlast, htakes⟩

theorem Disk.readText_source {d : Disk} {p : Path} {bs : List UInt8} (h : d.find p = .ok (.file bs)) :
    d.readText sourceEncodings p = .ok (sourceText bs) := by
  have hbytes : d.bytes p = .ok bs := by
    unfold Disk.bytes
    rw [h]
  have hsome := isSome_decodeFirst?_source bs
  unfold Disk.readText sourceText
  rw [hbytes]
  dsimp only
  generalize decodeFirst? sourceEncodings bs = o at hsome ⊢
  obtain ⟨s, rfl⟩ := Option.isSome_iff_exists.mp hsome
  rfl

namespace Disk

/-- A tree lies at a path. -/
structure Lies (d : Disk) (p : Path) (tree : Entry) : Prop where
  plain : p.Plain
  found : d.find p = .ok tree
  proper : tree.Proper

namespace Lies

variable {d : Disk} {p : Path} {tree : Entry} (h : d.Lies p tree) {names : List String}
  (hnames : ∀ n ∈ names, Path.ProperName n) {bs : List UInt8} (hfile : tree.get? names = some (.file bs))

include h

theorem exists_located : ∃ ns, d.locate p = .ok ns ∧ d.root.get? ns = some tree := by
  have hfound := h.found
  unfold Disk.find at hfound
  split at hfound
  · cases hfound
  · rename_i ns hns
    split at hfound
    · rename_i e he
      rw [Except.ok.inj hfound] at he
      exact ⟨ns, hns, he⟩
    · cases hfound

theorem walk : d.walk p = .ok ((tree.contents []).map fun x => (p.below x.1, x.2)) := by
  rw [Disk.walk, Disk.find?, h.found]
  rfl

include hnames

theorem find? : d.find? (p.below names) = .ok (tree.get? names) := by
  obtain ⟨ns, hns, he⟩ := h.exists_located
  exact find?_below h.plain hns hnames he

include hfile

theorem find_file : d.find (p.below names) = .ok (.file bs) := by
  have hall := h.find? hnames
  rw [hfile, Disk.find?] at hall
  split at hall
  · rename_i e he
    rw [he, Option.some.inj (Except.ok.inj hall)]
  · cases hall
  · cases hall

theorem readSource : d.readSource (p.below names).toString = .ok (sourceText bs) := by
  have htext := readText_source (h.find_file hnames hfile)
  unfold Disk.readSource
  rw [Path.ofString_toString (Path.plain_below h.plain hnames)]
  dsimp only
  rw [htext]

end Lies

end Disk

end SourceAudit
