/-
# The files of a scanned tree

Which files of a project a scan takes is decided by the tree that lies there and by one
more fact: whether the path of the project itself is one that a scan leaves out
(`isIgnored_below`). If it is, no file is taken; if it is not, the same files are taken
wherever the tree lies (`filesOf_eq`).
-/
import Mathlib.Data.List.Infix
import SourceAudit.Proofs.Files.Subtree
import SourceAudit.Scan.Project

namespace SourceAudit.Scan

variable {names : List String}

/-! ### Computations that cannot fail -/

section

variable {α ε : Type} {g : α → Bool} {f : α → Except ε Bool}

theorem anyM_eq_ok : ∀ {xs : List α}, (∀ x ∈ xs, f x = .ok (g x)) → xs.anyM f = .ok (xs.any g)
  | [], _ => rfl
  | x :: xs, h => by
    rw [List.forall_mem_cons] at h
    rw [List.anyM, h.1, List.any_cons]
    cases hx : g x with
    | true => rfl
    | false => exact anyM_eq_ok h.2

theorem anyM_map_ok : ∀ bs : List Bool, (bs.map fun b => (.ok b : Except ε Bool)).anyM id = .ok (bs.any id)
  | [] => rfl
  | true :: _ => rfl
  | false :: bs => anyM_map_ok bs

theorem filterAuxM_map_eq_ok {β : Type} {k : α → β} {f : β → Except ε Bool} : ∀ {xs : List α} (done : List β),
    (∀ x ∈ xs, f (k x) = .ok (g x)) → (xs.map k).filterAuxM f done = .ok (((xs.filter g).map k).reverse ++ done)
  | [], done, _ => rfl
  | x :: xs, done, h => by
    rw [List.forall_mem_cons] at h
    have ih := filterAuxM_map_eq_ok (cond (g x) (k x :: done) done) h.2
    rw [List.map_cons, List.filterAuxM, h.1]
    refine ih.trans ?_
    cases hx : g x with
    | true => rw [List.filter_cons_of_pos hx, List.map_cons, List.reverse_cons, List.append_assoc]; rfl
    | false => rw [List.filter_cons_of_neg (by rw [hx]; exact Bool.false_ne_true)]; rfl

theorem filterM_map_eq_ok {β : Type} {k : α → β} {f : β → Except ε Bool} {xs : List α}
    (h : ∀ x ∈ xs, f (k x) = .ok (g x)) : (xs.map k).filterM f = .ok ((xs.filter g).map k) := by
  rw [List.filterM, filterAuxM_map_eq_ok [] h, List.append_nil]
  exact congrArg Except.ok (List.reverse_reverse _)

end

/-! ### Directories with packages -/

/-- A directory of this name has packages, by what lies inside and beside it. -/
def packagesBy (name : String) (inside beside : List String → Option Entry) : Bool :=
  match name with
  | "vendor" =>
    [(inside ["autoload.php"]).isSome, (inside ["composer"]).any Entry.isDir,
      (beside ["composer.json"]).any Entry.isFile].any id
  | "node_modules" => (beside ["package.json"]).any Entry.isFile
  | "bower_components" => (beside ["bower.json"]).any Entry.isFile
  | "thinkphp" => [(inside ["base.php"]).any Entry.isFile, (inside ["library", "think"]).any Entry.isDir].any id
  | _ => false

section

variable {d : Disk} {p : Path} {inside beside : List String → Option Entry}

theorem packagesBy_of_ne {name : String} (hvendor : name ≠ "vendor") (hnode : name ≠ "node_modules")
    (hbower : name ≠ "bower_components") (hthink : name ≠ "thinkphp") : packagesBy name inside beside = false := by
  unfold packagesBy
  split
  · exact absurd rfl hvendor
  · exact absurd rfl hnode
  · exact absurd rfl hbower
  · exact absurd rfl hthink
  · rfl

theorem holdsPackages_eq
    (hinside : ∀ names, (∀ n ∈ names, Path.ProperName n) → d.find? (p.below names) = .ok (inside names))
    (hbeside : ∀ names, (∀ n ∈ names, Path.ProperName n) → d.find? (p.parent.below names) = .ok (beside names)) :
    holdsPackages d p = .ok (packagesBy p.name inside beside) := by
  have hchild : ∀ name, Path.ProperName name → p.child name = p.below [name] :=
    fun name h => Path.child_of_proper h p
  have hnext : ∀ name, Path.ProperName name → p.parent.child name = p.parent.below [name] :=
    fun name h => Path.child_of_proper h p.parent
  have hgrand : (p.child "library").child "think" = p.below ["library", "think"] := by
    rw [hchild _ (by decide), Path.child_of_proper (by decide), Path.below_below, List.singleton_append]
  unfold holdsPackages
  generalize p.name = name
  split
  · rw [hchild _ (by decide), hchild _ (by decide), hnext _ (by decide), Disk.holds, Disk.isDir, Disk.isFile,
      hinside _ (by decide), hinside _ (by decide), hbeside _ (by decide)]
    exact anyM_map_ok [_, _, _]
  · rw [hnext _ (by decide), Disk.isFile, hbeside _ (by decide)]
    rfl
  · rw [hnext _ (by decide), Disk.isFile, hbeside _ (by decide)]
    rfl
  · rw [hgrand, hchild _ (by decide), Disk.isDir, Disk.isFile, hinside _ (by decide), hinside _ (by decide)]
    exact anyM_map_ok [_, _]
  · rename_i hvendor hnode hbower hthink
    rw [packagesBy_of_ne hvendor hnode hbower hthink]

end

/-! ### Paths left out -/

def packagesIn (tree : Entry) (names : List String) : Bool :=
  packagesBy (names.getLast?.getD "") (fun more => tree.get? (names ++ more))
    fun more => tree.get? (names.dropLast ++ more)

/-- A scan of a tree leaves out what the names lead to. -/
def ignoredIn (tree : Entry) (includeDependencies : Bool) (names : List String) : Bool :=
  names.any toolDirs.contains || (!includeDependencies && names.inits.any (packagesIn tree))

theorem mem_cons_parents {p q : Path} : q ∈ p :: p.parents ↔ q.root = p.root ∧ q.names <+: p.names := by
  rw [List.mem_cons, Path.parents, List.mem_map]
  constructor
  · rintro (rfl | ⟨k, -, rfl⟩)
    · exact ⟨rfl, List.prefix_rfl⟩
    · exact ⟨rfl, List.take_prefix _ _⟩
  · obtain ⟨root, names⟩ := q
    rintro ⟨rfl : root = p.root, hstart : names <+: p.names⟩
    have hle := hstart.length_le
    have htake : p.names.take names.length = names := (List.prefix_iff_eq_take.mp hstart).symm
    by_cases hall : names.length = p.names.length
    · left
      rw [hstart.eq_of_length hall]
    · right
      refine ⟨p.names.length - 1 - names.length, List.mem_range.mpr (by omega), ?_⟩
      have hk : p.names.length - 1 - (p.names.length - 1 - names.length) = names.length := by omega
      rw [hk, htake]

theorem prefix_append_iff {α : Type} {xs ys zs : List α} :
    xs <+: ys ++ zs ↔ xs <+: ys ∨ ∃ rest, rest <+: zs ∧ xs = ys ++ rest := by
  constructor
  · intro h
    rcases List.prefix_or_prefix_of_prefix h (List.prefix_append ys zs) with h' | ⟨rest, rfl⟩
    · exact .inl h'
    · exact .inr ⟨rest, (List.prefix_append_right_inj ys).mp h, rfl⟩
  · rintro (h | ⟨rest, h, rfl⟩)
    · exact h.trans (List.prefix_append ys zs)
    · exact (List.prefix_append_right_inj ys).mpr h

section

variable {d : Disk} {root : Path} {tree : Entry} (h : d.Lies root tree)
include h

theorem exists_holdsPackages {q : Path} (hroot : q.root = root.root) (hstart : q.names <+: root.names) :
    ∃ b, holdsPackages d q = .ok b := by
  obtain ⟨ns, hns, -⟩ := h.exists_located
  obtain ⟨hq, ms, hms⟩ := Disk.exists_locate_of_prefix h.plain hns hroot hstart
  have hup : q.parent.names <+: root.names := (List.dropLast_prefix q.names).trans hstart
  obtain ⟨hparent, ks, hks⟩ := Disk.exists_locate_of_prefix h.plain hns (q := q.parent) hroot hup
  have hinside : ∀ names, (∀ n ∈ names, Path.ProperName n) →
      d.find? (q.below names) = .ok ((orNothing (d.find? (q.below names))).getD none) := by
    intro names hnames
    obtain ⟨o, ho⟩ := Disk.exists_find?_below hq hms hnames
    rw [ho]
    rfl
  have hbeside : ∀ names, (∀ n ∈ names, Path.ProperName n) →
      d.find? (q.parent.below names) = .ok ((orNothing (d.find? (q.parent.below names))).getD none) := by
    intro names hnames
    obtain ⟨o, ho⟩ := Disk.exists_find?_below hparent hks hnames
    rw [ho]
    rfl
  exact ⟨_, holdsPackages_eq hinside hbeside⟩

theorem holdsPackages_below (hempty : names ≠ []) (hnames : ∀ n ∈ names, Path.ProperName n) :
    holdsPackages d (root.below names) = .ok (packagesIn tree names) := by
  have hname : (root.below names).name = names.getLast?.getD "" := by
    rw [Path.name_below root hempty, List.getLast?_eq_getLast_of_ne_nil hempty, Option.getD_some]
  have hparent : (root.below names).parent = root.below names.dropLast := by
    rw [Path.parent, Path.below, Path.below, List.dropLast_append_of_ne_nil hempty]
  have hup : ∀ n ∈ names.dropLast, Path.ProperName n := fun n hn => hnames n ((List.dropLast_prefix names).subset hn)
  rw [packagesIn, ← hname]
  refine holdsPackages_eq (fun more hmore => ?_) (fun more hmore => ?_)
  · rw [Path.below_below]
    exact h.find? (List.forall_mem_append.mpr ⟨hnames, hmore⟩)
  · rw [hparent, Path.below_below]
    exact h.find? (List.forall_mem_append.mpr ⟨hup, hmore⟩)

/-- The parts of a path below the tree at which packages are looked for: those that lead to the tree,
and those inside it. -/
theorem any_holdsPackages_below (hnames : ∀ n ∈ names, Path.ProperName n) :
    ∃ b, (root :: root.parents).anyM (holdsPackages d) = .ok b ∧
      (root.below names :: (root.below names).parents).anyM (holdsPackages d) =
        .ok (b || names.inits.any (packagesIn tree)) := by
  -- all tests on the way to the tree and inside it have an answer
  have hroot : ∀ q ∈ root :: root.parents, holdsPackages d q = .ok ((orNothing (holdsPackages d q)).getD false) := by
    intro q hq
    obtain ⟨hr, hstart⟩ := mem_cons_parents.mp hq
    obtain ⟨b, hb⟩ := exists_holdsPackages h hr hstart
    rw [hb]
    rfl
  have hinside : ∀ more, more <+: names → more ≠ [] →
      holdsPackages d (root.below more) = .ok (packagesIn tree more) := fun more hmore hempty =>
    holdsPackages_below h hempty fun n hn => hnames n (hmore.subset hn)
  have hbelow : ∀ q ∈ root.below names :: (root.below names).parents,
      holdsPackages d q = .ok ((orNothing (holdsPackages d q)).getD false) := by
    intro q hq
    obtain ⟨hr, hstart⟩ := mem_cons_parents.mp hq
    rcases prefix_append_iff.mp hstart with hp | ⟨more, hmore, hq'⟩
    · exact hroot q (mem_cons_parents.mpr ⟨hr, hp⟩)
    · have hqm : q = root.below more := congrArg₂ Path.mk hr hq'
      by_cases hempty : more = []
      · rw [hqm, hempty, Path.below_nil]
        exact hroot root List.mem_cons_self
      · rw [hqm, hinside more hmore hempty]
        rfl
  refine ⟨_, anyM_eq_ok hroot, ?_⟩
  rw [anyM_eq_ok hbelow]
  congr 1
  rw [Bool.eq_iff_iff, Bool.or_eq_true, List.any_eq_true, List.any_eq_true, List.any_eq_true]
  constructor
  · rintro ⟨q, hq, hb⟩
    obtain ⟨hr, hstart⟩ := mem_cons_parents.mp hq
    rcases prefix_append_iff.mp hstart with hp | ⟨more, hmore, hq'⟩
    · exact .inl ⟨q, mem_cons_parents.mpr ⟨hr, hp⟩, hb⟩
    · have hqm : q = root.below more := congrArg₂ Path.mk hr hq'
      by_cases hempty : more = []
      · rw [hqm, hempty, Path.below_nil] at hb
        exact .inl ⟨root, List.mem_cons_self, hb⟩
      · rw [hqm, hinside more hmore hempty] at hb
        exact .inr ⟨more, (List.mem_inits _ _).mpr hmore, hb⟩
  · rintro (⟨q, hq, hb⟩ | ⟨more, hmore, hb⟩)
    · obtain ⟨hr, hstart⟩ := mem_cons_parents.mp hq
      exact ⟨q, mem_cons_parents.mpr ⟨hr, prefix_append_iff.mpr (.inl hstart)⟩, hb⟩
    · rw [List.mem_inits] at hmore
      have hempty : more ≠ [] := by
        rintro rfl
        exact Bool.false_ne_true hb
      refine ⟨root.below more, mem_cons_parents.mpr ⟨rfl, prefix_append_iff.mpr (.inr ⟨more, hmore, rfl⟩)⟩, ?_⟩
      rw [hinside more hmore hempty]
      exact hb

/-- **What a scan leaves out of a tree** is decided by the tree, unless the whole tree is left out. -/
theorem isIgnored_below (includeDependencies : Bool) (hnames : ∀ n ∈ names, Path.ProperName n) :
    ∃ b, isIgnored d includeDependencies root = .ok b ∧
      isIgnored d includeDependencies (root.below names) = .ok (b || ignoredIn tree includeDependencies names) := by
  have htools : (namesOf (root.below names)).any toolDirs.contains =
      ((namesOf root).any toolDirs.contains || names.any toolDirs.contains) := by
    rw [← List.any_append]
    congr 1
    unfold namesOf
    split_ifs <;> simp_all [Path.below, Path.isAbsolute]
  obtain ⟨b, hb, hbelow⟩ := any_holdsPackages_below h hnames
  unfold isIgnored ignoredIn
  rw [htools, hb, hbelow]
  cases (namesOf root).any toolDirs.contains <;> cases names.any toolDirs.contains <;> cases includeDependencies <;> simp

end

/-! ### Files taken -/

/-- The files of a tree that a scan takes, if it does not leave out the whole tree. -/
def filesIn (tree : Entry) (includeDependencies : Bool) (suffixes : List String) : List (List String) :=
  ((tree.contents []).filter fun x => !ignoredIn tree includeDependencies x.1 &&
    (x.2.isFile && suffixes.contains (Text.lower (Path.suffix ⟨"", x.1⟩)))).map (·.1)

theorem suffix_below (p q : Path) (hempty : names ≠ []) : (p.below names).suffix = (q.below names).suffix := by
  rw [Path.suffix, Path.suffix, Path.name_below p hempty, Path.name_below q hempty]

section

variable {d : Disk} {root : Path} {tree : Entry} {includeDependencies : Bool} {suffixes : List String}

theorem filesOf_eq (h : d.Lies root tree) {b : Bool} (hb : isIgnored d includeDependencies root = .ok b) :
    filesOf d includeDependencies suffixes root =
      .ok ((if b then [] else filesIn tree includeDependencies suffixes).map root.below) := by
  have hkept : ∀ x ∈ tree.contents [],
      (do return !(← isIgnored d includeDependencies (root.below x.1)) : Except Fault Bool) =
        .ok (!b && !ignoredIn tree includeDependencies x.1) := by
    intro x hx
    obtain ⟨b', hb', hbelow⟩ := isIgnored_below h includeDependencies (h.proper.names x hx)
    rw [hbelow, Except.ok.inj (hb.symm.trans hb'), ← Bool.not_or]
    rfl
  have hsuffix : ∀ x ∈ tree.contents [], (root.below x.1).suffix = Path.suffix ⟨"", x.1⟩ := fun x hx =>
    suffix_below root ⟨"", []⟩ (Entry.ne_nil_of_mem_contents hx)
  have hfiltered : ((tree.contents []).map fun x => (root.below x.1, x.2)).filterM
      (fun x => (do return !(← isIgnored d includeDependencies x.1) : Except Fault Bool)) =
        .ok (((tree.contents []).filter fun x => !b && !ignoredIn tree includeDependencies x.1).map
          fun x => (root.below x.1, x.2)) := filterM_map_eq_ok hkept
  unfold filesOf
  rw [h.walk]
  -- the walk and the choice of what is kept give results, which are then sorted by their suffixes
  simp only [bind, Except.bind, pure, Except.pure] at hfiltered ⊢
  rw [hfiltered]
  refine congrArg Except.ok ?_
  rw [List.filter_map, List.map_map, List.filter_filter]
  cases b with
  | true => simp
  | false =>
    rw [if_neg Bool.false_ne_true, filesIn, List.map_map]
    congr 1
    apply List.filter_congr
    intro x hx
    simp [hsuffix x hx, Bool.and_comm]

theorem mem_filesIn (htree : tree.Proper) (hnames : names ∈ filesIn tree includeDependencies suffixes) :
    names ≠ [] ∧ (∀ n ∈ names, Path.ProperName n) ∧ ∃ bs, tree.get? names = some (.file bs) := by
  obtain ⟨x, hx, rfl⟩ := List.mem_map.mp hnames
  obtain ⟨hmem, htest⟩ := List.mem_filter.mp hx
  refine ⟨Entry.ne_nil_of_mem_contents hmem, htree.names x hmem, ?_⟩
  rw [htree.found x hmem]
  rcases x with ⟨names, bs | es⟩
  · exact ⟨bs, rfl⟩
  · simp [Entry.isFile] at htest

end

end SourceAudit.Scan
