/-
# Scans of a moved project

What a scan finds in a project is decided by the tree that lies there and by two facts
about the path of the project: whether a scan leaves it out, and whether one of its
names says that controllers lie below (`exists_scanProject`). Files at different places
of a tree have different paths, so the choice of rows does not depend on the place
either (`forall₂_dedupe`). Two copies of a project whose paths agree in the two facts
have the same rows, but for the paths in them.
-/
import SourceAudit.Proofs.Outcome
import SourceAudit.Proofs.Scan.Tree

namespace SourceAudit

/-! ### The path in a finding -/

theorem Rule.hitsOrNone_eq (r : Rule) (file file' content : String) (spans : List Php.Span) :
    r.hitsOrNone file content spans = (r.hitsOrNone file' content spans).map fun h => { h with file := file } := by
  have hpattern : ∀ p, r.patternHits p file content spans =
      (r.patternHits p file' content spans).map (List.map fun h => { h with file := file }) := by
    intro p
    unfold patternHits
    simp only [bind, Except.bind, pure, Except.pure]
    split
    · rfl
    · simp [Except.map]
  unfold hitsOrNone hits
  split_ifs
  · rfl
  · cases r.compiled with
    | error e => rfl
    | ok o =>
      cases o with
      | none => rfl
      | some p =>
        dsimp only
        rw [hpattern p]
        cases r.patternHits p file' content spans <;> rfl

theorem RuleSet.hitsIn_eq (rules : List Rule) (language path path' content : String) :
    hitsIn rules language path content = (hitsIn rules language path' content).map fun h => { h with file := path } := by
  unfold hitsIn
  dsimp only
  rw [List.map_flatMap]
  congr 1
  funext r
  exact r.hitsOrNone_eq path path' content (spansOf language content)

namespace Scan

/-! ### Rows of a file in a tree -/

def placeName : String := "absolutePath"

def rowAt (root : Path) (x : List String × Fields) : Value :=
  .object (x.2 ++ [(placeName, .str (root.below x.1).toString)])

/-- Where the file of a row lies, and the fields of the row before the last: names that a file can
have, and no other path. -/
structure Sound (x : List String × Fields) : Prop where
  names : ∀ n ∈ x.1, Path.ProperName n
  front : placeName ∉ x.2.map (·.1)

/-- At all places of some kind the same rows are made, but for the paths in them. -/
def Placeless (P : Disk → Path → Prop) (make : Disk → Path → Except Fault (List Value)) : Prop :=
  ∃ found : List (List String × Fields), (∀ x ∈ found, Sound x) ∧
    ∀ d root, P d root → make d root = .ok (found.map (rowAt root))

/-- A finding from which a row can be made. -/
structure IsFinding (v : Value) : Prop where
  isObject : v.isObject = true
  line : ∃ n, v.field "line" = .int n

/-- The fields of a row before the last one. -/
def frontOf (finding : Value) (names : List String) (line : Int) : Fields :=
  let field (name : String) (other : Value) : Value := (finding.field? name).getD other
  [("type", field "type" (.str "")), ("ruleId", field "rule_id" (.str "未知")),
    ("ruleName", field "rule_name" (.str "未知规则")), ("severity", field "severity" (.str "未知")),
    ("file", .str (Path.toString ⟨"", names⟩)), ("line", .int line), ("description", field "description" (.str "")),
    ("match", field "match" (.str "")), ("details", field "details" (.object []))]

/-- **The row of a finding** is the same wherever the tree lies, but for its last field. -/
theorem exists_rowOf {finding : Value} (h : IsFinding finding) (names : List String) :
    ∃ front : Fields, placeName ∉ front.map (·.1) ∧
      ∀ root : Path, rowOf root (root.below names) finding = .ok (rowAt root (names, front)) := by
  obtain ⟨hobject, n, hn⟩ := h
  have hline : ((finding.field "line").orElse (.int 0)).toInt = .ok n := by
    rw [hn, Value.orElse]
    split_ifs with htruthy
    · rfl
    · have hzero : n = 0 := by simpa [Value.truthy] using htruthy
      rw [hzero]
      rfl
  refine ⟨frontOf finding names n, ?_, fun root => ?_⟩
  · simp [frontOf, placeName]
  · unfold rowOf
    rw [hobject, Path.relativeTo?_below, hline]
    rfl

theorem placeless_findings {names : List String} (hnames : ∀ n ∈ names, Path.ProperName n) :
    ∀ {findings : List Value}, (∀ f ∈ findings, IsFinding f) →
      Placeless (fun _ _ => True) fun _ root => findings.mapM (rowOf root (root.below names))
  | [], _ => ⟨[], by simp, fun _ _ _ => rfl⟩
  | f :: fs, h => by
    rw [List.forall_mem_cons] at h
    obtain ⟨front, hfront, hrow⟩ := exists_rowOf h.1 names
    obtain ⟨found, hfound, hrows⟩ := placeless_findings hnames h.2
    refine ⟨(names, front) :: found, List.forall_mem_cons.mpr ⟨⟨hnames, hfront⟩, hfound⟩, fun d root _ => ?_⟩
    have hrest : fs.mapM (rowOf root (root.below names)) = .ok (found.map (rowAt root)) := hrows d root trivial
    dsimp only
    rw [List.mapM_cons, hrow root, hrest]
    rfl

theorem mapM_eq_of_map_eq {α β γ ε : Type} {f : α → Except ε γ} {g : β → Except ε γ} : ∀ {xs : List α} {ys : List β},
    xs.map f = ys.map g → xs.mapM f = ys.mapM g
  | [], [], _ => rfl
  | [], _ :: _, h => absurd h (by simp)
  | _ :: _, [], h => absurd h (by simp)
  | x :: xs, y :: ys, h => by
    rw [List.map_cons, List.map_cons, List.cons.injEq] at h
    rw [List.mapM_cons, List.mapM_cons, h.1, mapM_eq_of_map_eq h.2]

/-! ### Rows of the rules -/

section

variable {tree : Entry} {names : List String} (hempty : names ≠ []) (hnames : ∀ n ∈ names, Path.ProperName n)
  {bs : List UInt8} (hfile : tree.get? names = some (.file bs))

include hempty hnames hfile

theorem exists_scanFile :
    ∃ hits : List Hit, ∀ (d : Disk) (root : Path), d.Lies root tree →
      RuleSet.builtIn.scanFile d (root.below names).toString =
        .ok (hits.map fun h => { h with file := (root.below names).toString }) := by
  have hlanguage : ∀ (d : Disk) (root : Path), d.Lies root tree →
      RuleSet.languageOfSource? (root.below names).toString =
        RuleSet.languageOfSource? (Path.below ⟨"", []⟩ names).toString := by
    intro d root h
    have hplain : (Path.below ⟨"", []⟩ names).Plain := Path.plain_below ⟨.inl rfl, by simp⟩ hnames
    unfold RuleSet.languageOfSource?
    rw [Path.ofString_toString (Path.plain_below h.plain hnames), Path.ofString_toString hplain,
      suffix_below root ⟨"", []⟩ hempty]
  cases hl : RuleSet.languageOfSource? (Path.below ⟨"", []⟩ names).toString with
  | none =>
    refine ⟨[], fun d root h => ?_⟩
    unfold RuleSet.scanFile
    rw [hlanguage d root h, hl]
    rfl
  | some language =>
    cases hrules : RuleSet.get? RuleSet.builtIn language with
    | none =>
      refine ⟨[], fun d root h => ?_⟩
      unfold RuleSet.scanFile
      rw [hlanguage d root h, hl]
      dsimp only
      rw [hrules]
      rfl
    | some rules =>
      refine ⟨RuleSet.hitsIn rules language "" (sourceText bs), fun d root h => ?_⟩
      unfold RuleSet.scanFile
      rw [hlanguage d root h, hl]
      dsimp only
      rw [hrules]
      dsimp only
      rw [h.readSource hnames hfile]
      exact congrArg Except.ok (RuleSet.hitsIn_eq rules language _ "" _)

theorem placeless_ruleRowsOf :
    Placeless (·.Lies · tree) (fun d root => do
      let hits ← RuleSet.builtIn.scanFile d (root.below names).toString
      hits.mapM fun h => rowOf root (root.below names) h.toValue) := by
  obtain ⟨hits, hhits⟩ := exists_scanFile hempty hnames hfile
  have hfindings : ∀ f ∈ hits.map Hit.toValue, IsFinding f := by
    intro f hf
    obtain ⟨h, -, rfl⟩ := List.mem_map.mp hf
    exact ⟨rfl, h.line, rfl⟩
  obtain ⟨found, hfound, hrows⟩ := placeless_findings hnames hfindings
  refine ⟨found, hfound, fun d root h => ?_⟩
  dsimp only
  rw [hhits d root h]
  refine Eq.trans (mapM_eq_of_map_eq ?_) (hrows d root trivial)
  rw [List.map_map, List.map_map]
  rfl

end

theorem placeless_files {P : Disk → Path → Prop} (make : Disk → Path → Path → Except Fault (List Value)) :
    ∀ {files : List (List String)}, (∀ names ∈ files, Placeless P fun d root => make d root (root.below names)) →
      Placeless P fun d root => return (← (files.map root.below).mapM (make d root)).flatten
  | [], _ => ⟨[], by simp, fun _ _ _ => rfl⟩
  | names :: files, h => by
    rw [List.forall_mem_cons] at h
    obtain ⟨first, hfirst, hone⟩ := h.1
    obtain ⟨found, hfound, hall⟩ := placeless_files make h.2
    refine ⟨first ++ found, List.forall_mem_append.mpr ⟨hfirst, hfound⟩, fun d root hd => ?_⟩
    have hthis : make d root (root.below names) = .ok (first.map (rowAt root)) := hone d root hd
    have hrest := hall d root hd
    dsimp only at hrest ⊢
    rw [List.map_cons, List.mapM_cons, hthis]
    obtain ⟨rows, hmapM, hrest⟩ := bind_eq_ok.mp hrest
    have hflatten : rows.flatten = found.map (rowAt root) := Except.ok.inj hrest
    rw [hmapM, List.map_append, ← hflatten]
    rfl

/-- A tree lies at the path, and a scan leaves it out or not, as said. -/
def ScannedAs (tree : Entry) (includeDependencies b : Bool) (d : Disk) (root : Path) : Prop :=
  d.Lies root tree ∧ isIgnored d includeDependencies root = .ok b

theorem placeless_filesOf {tree : Entry} (htree : tree.Proper) {includeDependencies b : Bool} {suffixes : List String}
    {P : Disk → Path → Prop} (hP : ∀ d root, P d root → ScannedAs tree includeDependencies b d root)
    (make : Disk → Path → Path → Except Fault (List Value))
    (hmake : ∀ names bs, names ≠ [] → (∀ n ∈ names, Path.ProperName n) → tree.get? names = some (.file bs) →
      Placeless P fun d root => make d root (root.below names)) :
    Placeless P (fun d root => do
      let files ← filesOf d includeDependencies suffixes root
      return (← files.mapM (make d root)).flatten) := by
  have hfiles : ∀ names ∈ if b then [] else filesIn tree includeDependencies suffixes,
      Placeless P fun d root => make d root (root.below names) := by
    intro names hmem
    cases b with
    | true => cases hmem
    | false =>
      obtain ⟨hempty, hnames, bs, hfile⟩ := mem_filesIn htree hmem
      exact hmake names bs hempty hnames hfile
  obtain ⟨found, hfound, hrows⟩ := placeless_files make hfiles
  refine ⟨found, hfound, fun d root hd => ?_⟩
  obtain ⟨hlies, hb⟩ := hP d root hd
  dsimp only
  rw [filesOf_eq hlies hb]
  exact hrows d root hd

/-- **The rows of the built-in rules** are the same wherever a project lies. -/
theorem placeless_ruleRows {tree : Entry} (htree : tree.Proper) (includeDependencies b : Bool) :
    Placeless (ScannedAs tree includeDependencies b) (ruleRows · includeDependencies ·) := by
  refine placeless_filesOf htree (fun _ _ h => h) _ ?_
  intro names bs hempty hnames hfile
  obtain ⟨found, hfound, hrows⟩ := placeless_ruleRowsOf hempty hnames hfile
  exact ⟨found, hfound, fun d root h => hrows d root h.1⟩

/-! ### Rows of the scanner -/

/-- A name of the path says that controllers lie below. -/
def underController (root : Path) : Bool :=
  root.names.any fun n => Text.lower n == "controller"

theorem rowOf_rowsOf (project file : Path) {c c' : Php.ProjectContext} (hmvc : c.isMvc = c'.isMvc) {path path' : String}
    (hpath : Php.isControllerPath path = Php.isControllerPath path') (grammar : Grammar) (content : String) :
    (Php.Scanner.rowsOf (some c) grammar path content).map (rowOf project file) =
      (Php.Scanner.rowsOf (some c') grammar path' content).map (rowOf project file) := by
  have hroutes : Php.routeFindings (some c) path content = Php.routeFindings (some c') path' content := by
    unfold Php.routeFindings
    dsimp only
    rw [hmvc, hpath]
  unfold Php.Scanner.rowsOf
  dsimp only
  rw [hroutes]
  split
  · rfl
  · rfl
  all_goals
    rw [List.map_append, List.map_append, List.map_map, List.map_map, List.map_map, List.map_map]
    rfl

theorem isFinding_rowsOf {context : Option Php.ProjectContext} {grammar : Grammar} {path content : String} {f : Value}
    (hf : f ∈ Php.Scanner.rowsOf context grammar path content) : IsFinding f := by
  unfold Php.Scanner.rowsOf at hf
  dsimp only at hf
  split at hf
  · cases hf
  · cases hf
  all_goals
    rcases List.mem_append.mp hf with hf | hf
    · obtain ⟨s, -, rfl⟩ := List.mem_map.mp hf
      exact ⟨rfl, s.line, rfl⟩
    · obtain ⟨r, -, rfl⟩ := List.mem_map.mp hf
      exact ⟨rfl, r.line, rfl⟩

theorem prepare_of_lies {d : Disk} {root : Path} {tree : Entry} (h : d.Lies root tree) :
    Php.Scanner.start.prepare d (.str root.toString) = ⟨true, some (Php.ProjectContext.ofEntry root tree)⟩ := by
  have hread := Path.ofString_toString h.plain
  have hempty : root.toString ≠ "" := by
    intro heq
    rw [heq] at hread
    rw [← hread] at heq
    exact absurd heq (by decide)
  have hbuild : Php.ProjectContext.build d root.toString = .ok (some (Php.ProjectContext.ofEntry root tree)) := by
    have hfind : d.find? (root.below []) = .ok (tree.get? []) := h.find? (by simp)
    rw [Path.below_nil] at hfind
    rw [Php.ProjectContext.build, if_neg (by simpa using hempty), hread, hfind]
    rfl
  have htruthy : (Value.str root.toString).truthy = true := by
    simpa [Value.truthy] using hempty
  unfold Php.Scanner.prepare
  rw [htruthy]
  simp only [Bool.not_true, Bool.false_eq_true, if_false, hbuild]

/-- A tree lies at the path, a scan leaves it out or not, and controllers are said to lie below or
not, as said. -/
def ScannedUnder (tree : Entry) (includeDependencies b c : Bool) (d : Disk) (root : Path) : Prop :=
  ScannedAs tree includeDependencies b d root ∧ underController root = c

/-- **The rows of the scanner** are the same wherever a project lies. -/
theorem placeless_scannerRows {tree : Entry} (htree : tree.Proper) (grammar : Grammar) (includeDependencies b c : Bool)
    (suffixes : List String) :
    Placeless (ScannedUnder tree includeDependencies b c) (scannerRows · grammar includeDependencies suffixes ·) := by
  have hmake : ∀ names bs, names ≠ [] → (∀ n ∈ names, Path.ProperName n) → tree.get? names = some (.file bs) →
      Placeless (ScannedUnder tree includeDependencies b c) fun d root =>
        ((Php.Scanner.start.prepare d (.str root.toString)).scan d grammar (root.below names).toString).mapM
          (rowOf root (root.below names)) := by
    intro names bs _ hnames hfile
    -- any path that is one of a controller in the same way stands for the path of the file
    let path := if c || names.any (fun n => Text.lower n == "controller") then "controller" else ""
    have hpath : Php.isControllerPath path = (c || names.any fun n => Text.lower n == "controller") := by
      dsimp only [path]
      split_ifs with hc
      · rw [hc]; decide
      · rw [eq_false_of_ne_true hc]; decide
    have hfindings : ∀ f ∈ Php.Scanner.rowsOf (some (.ofEntry default tree)) grammar path (sourceText bs), IsFinding f :=
      fun f => isFinding_rowsOf
    obtain ⟨found, hfound, hrows⟩ := placeless_findings hnames hfindings
    refine ⟨found, hfound, fun d root h => ?_⟩
    obtain ⟨⟨hlies, -⟩, hc⟩ := h
    have hcontroller : Php.isControllerPath (root.below names).toString = Php.isControllerPath path := by
      rw [hpath, Php.isControllerPath, Path.ofString_toString (Path.plain_below hlies.plain hnames), Path.below,
        List.any_append, ← hc, underController]
    dsimp only
    rw [prepare_of_lies hlies, Php.Scanner.scan]
    simp only [Bool.not_true, Bool.false_eq_true, if_false]
    rw [hlies.readSource hnames hfile]
    exact (mapM_eq_of_map_eq (rowOf_rowsOf _ _ rfl hcontroller _ _)).trans (hrows d root trivial)
  obtain ⟨found, hfound, hrows⟩ := placeless_filesOf htree (fun _ _ h => h.1)
    (fun d root f => ((Php.Scanner.start.prepare d (.str root.toString)).scan d grammar f.toString).mapM (rowOf root f))
    hmake
  refine ⟨found, hfound, fun d root h => ?_⟩
  have hready : (Php.Scanner.start.prepare d (.str root.toString)).ready = true := by
    rw [prepare_of_lies h.1.1]
  dsimp only
  rw [← hrows d root h, scannerRows]
  dsimp only
  rw [hready]
  rfl

/-- **All rows of a project**, before those of one problem are joined, are the same wherever it lies. -/
theorem exists_scanProject {tree : Entry} (htree : tree.Proper) (grammar : Grammar) (includeDependencies b c : Bool) :
    ∃ found : List (List String × Fields), (∀ x ∈ found, Sound x) ∧ ∀ (d : Disk) (path : String),
      ScannedUnder tree includeDependencies b c d (.ofString path) →
        scanProject d grammar includeDependencies path = .ok (dedupe (found.map (rowAt (.ofString path)))) := by
  obtain ⟨found, hfound, hrules⟩ := placeless_ruleRows htree includeDependencies b
  obtain ⟨more, hmore, hscanner⟩ := placeless_scannerRows htree grammar includeDependencies b c [".php"]
  refine ⟨found ++ more, List.forall_mem_append.mpr ⟨hfound, hmore⟩, fun d path h => ?_⟩
  have hnul : path.toList.contains '\x00' = false := by
    obtain ⟨ns, hns, -⟩ := h.1.1.exists_located
    have hshown := (Disk.locate_eq_ok.mp hns).1
    rw [List.contains_eq_mem, decide_eq_false_iff_not] at hshown ⊢
    exact fun hmem => hshown (Path.nul_mem_toString_ofString hmem)
  have hfirst : ruleRows d includeDependencies (.ofString path) = .ok (found.map (rowAt (.ofString path))) :=
    hrules d _ h.1
  have hthen : scannerRows d grammar includeDependencies [".php"] (.ofString path) =
      .ok (more.map (rowAt (.ofString path))) := hscanner d _ h
  unfold scanProject
  dsimp only
  rw [hnul, if_neg Bool.false_ne_true, hfirst, hthen, List.map_append]
  rfl

/-! ### Joining the rows of one problem -/

/-- Two kept rows with the fingerprints under which they are kept: both belong together. -/
def KeptAlike (S : Value → Value → Prop) (x y : List Value × Value) : Prop :=
  (∃ b b', S b b' ∧ x.1 = fingerprint b ∧ y.1 = fingerprint b') ∧ S x.2 y.2

section

variable {S : Value → Value → Prop}
  (hprint : ∀ a a' b b', S a a' → S b b' →
    sameFingerprint (fingerprint a) (fingerprint b) = sameFingerprint (fingerprint a') (fingerprint b'))
  (hway : ∀ a a' b b', S a a' → S b b' → givesWay a b = givesWay a' b')
include hprint hway

theorem forall₂_keep {a a' : Value} (h : S a a') {new new' : List Value} (hnew : new = fingerprint a)
    (hnew' : new' = fingerprint a') {kept kept' : List (List Value × Value)}
    (hkept : List.Forall₂ (KeptAlike S) kept kept') :
    List.Forall₂ (KeptAlike S) (keep new a kept) (keep new' a' kept') := by
  have hprints : ∃ b b', S b b' ∧ new = fingerprint b ∧ new' = fingerprint b' := ⟨a, a', h, hnew, hnew'⟩
  induction hkept with
  | nil => exact .cons ⟨hprints, h⟩ .nil
  | @cons x y _ _ hxy hrest ih =>
    obtain ⟨k, v⟩ := x
    obtain ⟨k', v'⟩ := y
    obtain ⟨⟨b, b', hb, hk, hk'⟩, hv⟩ := hxy
    have hsame : sameFingerprint k new = sameFingerprint k' new' := by
      rw [show k = fingerprint b from hk, show k' = fingerprint b' from hk', hnew, hnew']
      exact hprint b b' a a' hb h
    rw [keep, keep, hsame, hway v v' a a' hv h]
    split_ifs
    · exact .cons ⟨⟨b, b', hb, hk, hk'⟩, h⟩ hrest
    · exact .cons ⟨⟨b, b', hb, hk, hk'⟩, hv⟩ hrest
    · exact .cons ⟨⟨b, b', hb, hk, hk'⟩, hv⟩ ih

/-- **Joining rows does not look at more than it needs.** -/
theorem forall₂_dedupe {rows rows' : List Value} (h : List.Forall₂ S rows rows') :
    List.Forall₂ S (dedupe rows) (dedupe rows') := by
  have hfold : ∀ kept kept', List.Forall₂ (KeptAlike S) kept kept' → List.Forall₂ (KeptAlike S)
      (rows.foldl (fun kept row => keep (fingerprint row) row kept) kept)
      (rows'.foldl (fun kept row => keep (fingerprint row) row kept) kept') := by
    induction h with
    | nil => exact fun _ _ hkept => hkept
    | cons hrow _ ih => exact fun _ _ hkept => ih _ _ (forall₂_keep hprint hway hrow rfl rfl hkept)
  unfold dedupe
  rw [List.forall₂_map_left_iff, List.forall₂_map_right_iff]
  exact (hfold [] [] .nil).imp fun _ _ hxy => hxy.2

end

/-! ### The same tree at two places -/

theorem get?_append_place (front : Fields) (v : Value) {name : String} (h : name ≠ placeName) :
    Fields.get? (front ++ [(placeName, v)]) name = Fields.get? front name := by
  have hlast : (placeName == name) = false := beq_eq_false_iff_ne.mpr (Ne.symm h)
  rw [Fields.get?, Fields.get?, List.find?_append]
  cases front.find? (·.1 == name) with
  | none => simp [hlast]
  | some x => rfl

theorem get?_place {front : Fields} (h : placeName ∉ front.map (·.1)) (v : Value) :
    Fields.get? (front ++ [(placeName, v)]) placeName = some v := by
  have hfront : front.find? (·.1 == placeName) = none := by
    rw [List.find?_eq_none]
    intro x hx heq
    exact h (List.mem_map.mpr ⟨x, hx, eq_of_beq heq⟩)
  rw [Fields.get?, List.find?_append, hfront]
  simp

section

variable {x : List String × Fields}

theorem field_rowAt (root : Path) {name : String} (h : name ≠ placeName) :
    (rowAt root x).field name = (Value.object x.2).field name := by
  rw [rowAt, Value.field, Value.field, Value.field?, Value.field?, get?_append_place _ _ h]

theorem field_place (root : Path) (h : Sound x) : (rowAt root x).field placeName = .str (root.below x.1).toString := by
  rw [rowAt, Value.field, Value.field?, get?_place h.front, Option.getD_some]

theorem textOf_rowAt (root : Path) {name : String} (h : name ≠ placeName) :
    textOf (rowAt root x) name = textOf (.object x.2) name := by
  rw [textOf, textOf, field_rowAt root h]

theorem rank_rowAt (root : Path) : rank (rowAt root x) = rank (.object x.2) := by
  rw [rank, rank, textOf_rowAt root (by decide), textOf_rowAt root (by decide), textOf_rowAt root (by decide)]

/-- A fingerprint starts with the path of the file, and the rest of it does not depend on the path. -/
theorem fingerprint_rowAt (root : Path) (h : Sound x) :
    fingerprint (rowAt root x) = .str (root.below x.1).toString :: (fingerprint (.object x.2)).tail := by
  have hfamily : family (rowAt root x) = family (.object x.2) := by
    rw [family, family, textOf_rowAt root (by decide), textOf_rowAt root (by decide)]
  have hexcerpt : excerpt (rowAt root x) = excerpt (.object x.2) := by
    rw [excerpt, excerpt, textOf_rowAt root (by decide), textOf_rowAt root (by decide)]
  have hplace : (rowAt root x).field "absolutePath" = .str (root.below x.1).toString := field_place root h
  rw [fingerprint, fingerprint, hfamily, hexcerpt, hplace, field_rowAt root (by decide)]
  split_ifs <;> rfl

end

/-- Two rows are the same but for the directory in the path of their file. -/
def Moved (root root' : Path) (a b : Value) : Prop :=
  ∃ x, Sound x ∧ a = rowAt root x ∧ b = rowAt root' x

section

variable {root root' : Path} {a a' b b' : Value}

/-- Files at two places of a tree have different paths wherever the tree lies, so rows are of one
problem at both places or at none. -/
theorem sameFingerprint_of_moved (hroot : root.Plain) (hroot' : root'.Plain) (ha : Moved root root' a a')
    (hb : Moved root root' b b') :
    sameFingerprint (fingerprint a) (fingerprint b) = sameFingerprint (fingerprint a') (fingerprint b') := by
  obtain ⟨x, hx, rfl, rfl⟩ := ha
  obtain ⟨y, hy, rfl, rfl⟩ := hb
  have hplace : ∀ {p : Path}, p.Plain → ((p.below x.1).toString == (p.below y.1).toString) = (x.1 == y.1) := by
    intro p hp
    rw [Bool.eq_iff_iff, beq_iff_eq, beq_iff_eq,
      Path.toString_inj (Path.plain_below hp hx.names) (Path.plain_below hp hy.names)]
    simp [Path.below]
  rw [fingerprint_rowAt root hx, fingerprint_rowAt root hy, fingerprint_rowAt root' hx, fingerprint_rowAt root' hy,
    sameFingerprint, sameFingerprint, Value.sameLists, Value.sameLists, Value.same, Value.same, hplace hroot,
    hplace hroot']

theorem givesWay_of_moved (ha : Moved root root' a a') (hb : Moved root root' b b') : givesWay a b = givesWay a' b' := by
  obtain ⟨x, -, rfl, rfl⟩ := ha
  obtain ⟨y, -, rfl, rfl⟩ := hb
  have htruthy : ∀ p : Path, (rowAt p x).truthy = true := fun p => by simp [rowAt, Value.truthy]
  rw [givesWay, givesWay, htruthy root, htruthy root', rank_rowAt, rank_rowAt, rank_rowAt, rank_rowAt]

end

/-- A row with the directory in the path of its file replaced by another. -/
def replaceRoot (old new : Path) (row : Value) : Value :=
  match row.field placeName with
  | .str s =>
    match (Path.ofString s).relativeTo? old with
    | some inside => .object (Fields.set placeName (.str (new.join inside).toString) row.fields)
    | none => row
  | _ => row

theorem set_place {v w : Value} : ∀ {front : Fields}, placeName ∉ front.map (·.1) →
    Fields.set placeName w (front ++ [(placeName, v)]) = front ++ [(placeName, w)]
  | [], _ => by simp [Fields.set]
  | (n, u) :: front, h => by
    rw [List.map_cons, List.mem_cons, not_or] at h
    have hn : (n == placeName) = false := beq_eq_false_iff_ne.mpr (Ne.symm h.1)
    rw [List.cons_append, Fields.set, hn, if_neg Bool.false_ne_true, set_place h.2, List.cons_append]

theorem replaceRoot_rowAt {old : Path} (hold : old.Plain) (new : Path) {x : List String × Fields} (hx : Sound x) :
    replaceRoot old new (rowAt old x) = rowAt new x := by
  rw [replaceRoot, field_place old hx]
  dsimp only
  rw [Path.ofString_toString (Path.plain_below hold hx.names), Path.relativeTo?_below]
  dsimp only
  rw [Path.join_relative, rowAt, Value.fields, set_place hx.front, rowAt]

/-- **A scan does not depend on where a project lies** beyond two facts about its path: whether a scan
leaves it out, and whether one of its names says that controllers lie below. -/
theorem scanProject_moved {tree : Entry} (htree : tree.Proper) {d₁ d₂ : Disk} {path₁ path₂ : String}
    (h₁ : d₁.find (.ofString path₁) = .ok tree) (h₂ : d₂.find (.ofString path₂) = .ok tree) (grammar : Grammar)
    (includeDependencies : Bool)
    (hignored : isIgnored d₁ includeDependencies (.ofString path₁) = isIgnored d₂ includeDependencies (.ofString path₂))
    (hcontroller : underController (.ofString path₁) = underController (.ofString path₂)) :
    ∃ rows, scanProject d₁ grammar includeDependencies path₁ = .ok rows ∧
      scanProject d₂ grammar includeDependencies path₂ =
        .ok (rows.map (replaceRoot (.ofString path₁) (.ofString path₂))) := by
  have hplain₁ := Path.plain_ofString path₁
  have hplain₂ := Path.plain_ofString path₂
  have hlies₁ : d₁.Lies (.ofString path₁) tree := ⟨hplain₁, h₁, htree⟩
  have hlies₂ : d₂.Lies (.ofString path₂) tree := ⟨hplain₂, h₂, htree⟩
  obtain ⟨b, hb, -⟩ := isIgnored_below hlies₁ includeDependencies (List.forall_mem_nil _)
  obtain ⟨found, hfound, hscan⟩ :=
    exists_scanProject htree grammar includeDependencies b (underController (.ofString path₁))
  have hmoved : List.Forall₂ (Moved (.ofString path₁) (.ofString path₂)) (found.map (rowAt (.ofString path₁)))
      (found.map (rowAt (.ofString path₂))) := by
    rw [List.forall₂_map_left_iff, List.forall₂_map_right_iff, List.forall₂_same]
    exact fun x hx => ⟨x, hfound x hx, rfl, rfl⟩
  have hjoined := forall₂_dedupe (fun _ _ _ _ => sameFingerprint_of_moved hplain₁ hplain₂)
    (fun _ _ _ _ => givesWay_of_moved) hmoved
  refine ⟨_, hscan d₁ path₁ ⟨⟨hlies₁, hb⟩, rfl⟩, ?_⟩
  rw [hscan d₂ path₂ ⟨⟨hlies₂, hignored ▸ hb⟩, hcontroller.symm⟩]
  refine congrArg Except.ok ?_
  rw [← List.forall₂_eq_eq_eq, List.forall₂_map_right_iff]
  refine hjoined.flip.imp ?_
  rintro _ _ ⟨x, hx, rfl, rfl⟩
  exact (replaceRoot_rowAt hplain₁ _ hx).symm

def onePage : Entry := .dir [("a.py", .file (Utf8.encode "eval(1)"))]

theorem contents_onePage : onePage.contents [] = [(["a.py"], .file (Utf8.encode "eval(1)"))] := rfl

theorem proper_onePage : onePage.Proper where
  names := by
    rw [contents_onePage]
    intro x hx n hn
    rw [List.mem_singleton.mp hx, List.mem_singleton] at hn
    rw [hn]
    decide
  found := by
    rw [contents_onePage]
    intro x hx
    rw [List.mem_singleton.mp hx]
    rfl

/-- A parser for languages of which no text is looked at. -/
def noGrammar : Grammar := fun _ _ => default

theorem ofString_p : Path.ofString "p" = ⟨"", ["p"]⟩ := by decide +kernel

theorem ofString_r : Path.ofString "./r" = ⟨"", ["r"]⟩ := by decide +kernel

theorem ofString_git_p : Path.ofString ".git/p" = ⟨"", [".git", "p"]⟩ := by decide +kernel

theorem scanProject_moved_onePage :
    (orNothing (scanProject ⟨.dir [("p", onePage)], []⟩ noGrammar false "p")).map List.length = some 1 ∧
      ∃ rows, scanProject ⟨.dir [("p", onePage)], []⟩ noGrammar false "p" = .ok rows ∧
        scanProject ⟨.dir [("q", .dir [("composer.json", .file []), ("r", onePage)])], ["q"]⟩ noGrammar false "./r" =
          .ok (rows.map (replaceRoot (.ofString "p") (.ofString "./r"))) :=
  ⟨by decide +kernel, scanProject_moved proper_onePage (by rw [ofString_p]; rfl) (by rw [ofString_r]; rfl) noGrammar false
    (by rw [ofString_p, ofString_r]; rfl) (by decide +kernel)⟩

/-- One project at two places: where it lies below a directory of a tool, nothing is found in it. -/
theorem nothing_found_below_tool_dir :
    let d : Disk := ⟨.dir [(".git", .dir [("p", onePage)]), ("p", onePage)], []⟩
    d.find (.ofString "p") = .ok onePage ∧ d.find (.ofString ".git/p") = .ok onePage ∧
      (orNothing (scanProject d noGrammar false "p")).map List.length = some 1 ∧
      (orNothing (scanProject d noGrammar false ".git/p")).map List.length = some 0 :=
  ⟨by rw [ofString_p]; rfl, by rw [ofString_git_p]; rfl, by decide +kernel, by decide +kernel⟩

end Scan

end SourceAudit
