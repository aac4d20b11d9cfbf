/-
# Values in their places

Values are put into a template one after the other (`substitute`), so that a value can
be changed by those that come later. Put in at once, no value is looked at again
(`fillAtOnce`).

The two agree if nothing looks like a symbol whose turn comes later: no value has such a
symbol in it or ends in the beginning of one (`Quiet`), and no text of the template ends
in the beginning of a symbol (`Tidy`). A text becomes another by some values (`Becomes`)
if it is put together from symbols and from pieces in which none begins; each value that
has its turn keeps this.

The values of a report and of its findings stand under fixed symbols, and a block is
written once for each finding (`writeBlock_eq`).
-/
import SourceAudit.Proofs.Outcome
import SourceAudit.Proofs.Text.Pieces
import SourceAudit.Report.Document

namespace SourceAudit.Report

open Text (Clear)

variable {values : List (String × String)} {s n : String}

/-! ### Filling a template at once -/

/-- A piece of a template: text, or the symbol of a value. -/
inductive Piece where
  | text (chars : List Char)
  | hole (symbol : String)
deriving DecidableEq, Repr

namespace Piece

def chars : Piece → List Char
  | .text cs => cs
  | .hole s => s.toList

/-- A piece with the value of its symbol in its place. -/
def fill (values : List (String × String)) : Piece → List Char
  | .text cs => cs
  | .hole s => ((values.lookup s).getD s).toList

/-- The pieces of a template. `skip` characters of a symbol are still to be passed over, and `read`
is the text since the last symbol, backwards. -/
def cutFrom (symbols : List String) (read : List Char) : (skip : Nat) → List Char → List Piece
  | _, [] => [.text read.reverse]
  | skip + 1, _ :: cs => cutFrom symbols read skip cs
  | 0, c :: cs =>
    match symbols.find? fun s => s.toList.isPrefixOf (c :: cs) with
    | some s => .text read.reverse :: .hole s :: cutFrom symbols [] (s.toList.length - 1) cs
    | none => cutFrom symbols (c :: read) 0 cs

def cut (symbols : List String) (cs : List Char) : List Piece :=
  cutFrom symbols [] 0 cs

variable {symbols : List String}

theorem flatMap_chars_cutFrom (hsymbols : ∀ s ∈ symbols, s ≠ "") : ∀ (cs read : List Char) (skip : Nat),
    (cutFrom symbols read skip cs).flatMap chars = read.reverse ++ cs.drop skip
  | [], read, skip => by simp [cutFrom, chars]
  | c :: cs, read, skip + 1 => by
    rw [cutFrom, List.drop_succ_cons]
    exact flatMap_chars_cutFrom hsymbols cs read skip
  | c :: cs, read, 0 => by
    rw [cutFrom, List.drop_zero]
    cases hfind : symbols.find? fun s => s.toList.isPrefixOf (c :: cs) with
    | none =>
      dsimp only
      rw [flatMap_chars_cutFrom hsymbols cs (c :: read) 0]
      simp
    | some s =>
      have hs : s.toList ≠ [] := by simpa using hsymbols s (List.mem_of_find?_eq_some hfind)
      have hfront := List.find?_some (p := fun s : String => s.toList.isPrefixOf (c :: cs)) hfind
      obtain ⟨rest, hrest⟩ := List.isPrefixOf_iff_prefix.mp hfront
      obtain ⟨d, ds, hds⟩ := List.exists_cons_of_ne_nil hs
      rw [hds, List.cons_append, List.cons.injEq] at hrest
      obtain ⟨rfl, rfl⟩ := hrest
      dsimp only
      rw [List.flatMap_cons, List.flatMap_cons, flatMap_chars_cutFrom hsymbols (ds ++ rest) [], chars, chars, hds,
        List.length_cons, Nat.add_sub_cancel, List.drop_left]
      simp

theorem flatMap_chars_cut (hsymbols : ∀ s ∈ symbols, s ≠ "") (cs : List Char) : (cut symbols cs).flatMap chars = cs :=
  flatMap_chars_cutFrom hsymbols cs [] 0

theorem mem_of_hole_mem_cutFrom : ∀ {cs read : List Char} {skip : Nat},
    .hole s ∈ cutFrom symbols read skip cs → s ∈ symbols
  | [], read, skip, h => by simp [cutFrom] at h
  | c :: cs, read, skip + 1, h => by
    rw [cutFrom] at h
    exact mem_of_hole_mem_cutFrom h
  | c :: cs, read, 0, h => by
    rw [cutFrom] at h
    split at h
    · rename_i t hfind
      rcases List.mem_cons.mp h with htext | h
      · cases htext
      rcases List.mem_cons.mp h with hhole | h
      · obtain rfl : s = t := by simpa using hhole
        exact List.mem_of_find?_eq_some hfind
      · exact mem_of_hole_mem_cutFrom h
    · exact mem_of_hole_mem_cutFrom h

end Piece

/-- A template with values in the places of their symbols. No value is looked at. -/
def fillAtOnce (values : List (String × String)) (template : String) : String :=
  String.ofList ((Piece.cut (values.map (·.1)) template.toList).flatMap (Piece.fill values))

/-! ### Values that stay as they are -/

/-- No value has a symbol in it whose turn comes later, or ends in the beginning of one. -/
def Quiet (values : List (String × String)) : Prop :=
  values.Pairwise fun a b => Clear b.1.toList a.2.toList

instance (values : List (String × String)) : Decidable (Quiet values) :=
  inferInstanceAs (Decidable (values.Pairwise _))

/-- A piece with a value in its place, if it is the symbol of the value. -/
def putOne (piece : List Char) (v : String × String) : List Char :=
  if piece = v.1.toList then v.2.toList else piece

def put (values : List (String × String)) (piece : List Char) : List Char :=
  values.foldl putOne piece

/-- The piece is one of the symbols, or none of them begins in it. -/
def Ready (values : List (String × String)) (piece : List Char) : Prop :=
  ∀ v ∈ values, piece = v.1.toList ∨ Clear v.1.toList piece

section

variable {v : String × String} {vs : List (String × String)} {piece : List Char}

theorem Ready.putOne (hquiet : Quiet (v :: vs)) (h : Ready (v :: vs) piece) : Ready vs (putOne piece v) := by
  intro w hw
  rw [Report.putOne]
  split_ifs
  · exact .inr (List.rel_of_pairwise_cons hquiet hw)
  · exact h w (List.mem_cons_of_mem v hw)

theorem put_of_clear : ∀ {vs : List (String × String)}, (∀ v ∈ vs, v.1 ≠ "") →
    (∀ v ∈ vs, Clear v.1.toList piece) → put vs piece = piece
  | [], _, _ => rfl
  | v :: vs, hnamed, h => by
    rw [List.forall_mem_cons] at h hnamed
    have hne : piece ≠ v.1.toList := fun heq => Text.not_clear_self (by simpa using hnamed.1) (heq ▸ h.1)
    rw [put, List.foldl_cons, putOne, if_neg hne]
    exact put_of_clear hnamed.2 h.2

theorem put_symbol : ∀ {vs : List (String × String)}, (∀ v ∈ vs, v.1 ≠ "") → Quiet vs →
    put vs s.toList = ((vs.lookup s).getD s).toList
  | [], _, _ => rfl
  | v :: vs, hnamed, hquiet => by
    rw [List.forall_mem_cons] at hnamed
    rw [put, List.foldl_cons, putOne, List.lookup_cons]
    by_cases heq : s = v.1
    · have hstays : put vs v.2.toList = v.2.toList := put_of_clear hnamed.2 fun w => List.rel_of_pairwise_cons hquiet
      rw [if_pos (by rw [heq]), ← put, hstays, heq, beq_self_eq_true]
      rfl
    · have hne : s.toList ≠ v.1.toList := fun h => heq (String.toList_inj.mp h)
      rw [if_neg hne, ← put, put_symbol hnamed.2 (List.Pairwise.of_cons hquiet), beq_eq_false_iff_ne.mpr heq]

end

/-- A text becomes another when the values are put in: it is put together from their symbols and
from pieces in which none of them begins. -/
structure Becomes (values : List (String × String)) (t u : String) : Prop where
  named : ∀ v ∈ values, v.1 ≠ ""
  pieces : ∃ pieces : List (List Char), (∀ p ∈ pieces, Ready values p) ∧ t.toList = pieces.flatten ∧
    u.toList = (pieces.map (put values)).flatten

namespace Becomes

variable {v : String × String} {vs : List (String × String)} {t u t' u' : String}

theorem append (h : Becomes vs t u) (h' : Becomes vs t' u') : Becomes vs (t ++ t') (u ++ u') := by
  obtain ⟨pieces, hready, ht, hu⟩ := h.pieces
  obtain ⟨pieces', hready', ht', hu'⟩ := h'.pieces
  refine ⟨h.named, pieces ++ pieces', ?_, ?_, ?_⟩
  · exact fun p hp => (List.mem_append.mp hp).elim (hready p) (hready' p)
  · rw [String.toList_append, ht, ht', List.flatten_append]
  · rw [String.toList_append, hu, hu', List.map_append, List.flatten_append]

theorem of_clear (hnamed : ∀ v ∈ vs, v.1 ≠ "") (h : ∀ v ∈ vs, Clear v.1.toList t.toList) : Becomes vs t t := by
  refine ⟨hnamed, [t.toList], ?_, ?_, ?_⟩
  · intro p hp
    rw [List.mem_singleton.mp hp]
    exact fun v hv => .inr (h v hv)
  · simp
  · simp [put_of_clear hnamed h]

/-- **One value.** -/
theorem replaceAll (hquiet : Quiet (v :: vs)) (h : Becomes (v :: vs) t u) :
    Becomes vs (Text.replaceAll t v.1 v.2) u := by
  obtain ⟨pieces, hready, ht, hu⟩ := h.pieces
  have hold : v.1.toList ≠ [] := by simpa using h.named v List.mem_cons_self
  refine ⟨fun w hw => h.named w (List.mem_cons_of_mem v hw), pieces.map (putOne · v), ?_, ?_, ?_⟩
  · intro p hp
    obtain ⟨q, hq, rfl⟩ := List.mem_map.mp hp
    exact (hready q hq).putOne hquiet
  · rw [Text.toList_replaceAll, ht, Text.replaced_flatten hold fun p hp => hready p hp v List.mem_cons_self]
    rfl
  · rw [hu, List.map_map]
    rfl

/-- **Values one after the other**, with more to come. -/
theorem substitute : ∀ {us : List (String × String)} {t : String}, Quiet (us ++ vs) → Becomes (us ++ vs) t u →
    Becomes vs (Report.substitute us t) u
  | [], _, _, h => h
  | _ :: us, _, hquiet, h => by
    rw [Report.substitute, List.foldl_cons]
    exact substitute (List.Pairwise.of_cons hquiet) (h.replaceAll hquiet)

theorem eq_of_nil (h : Becomes [] t u) : t = u := by
  obtain ⟨pieces, -, ht, hu⟩ := h.pieces
  have hput : pieces.map (put []) = pieces := List.map_id pieces
  rw [← String.toList_inj, ht, hu, hput]

theorem substitute_eq (hquiet : Quiet vs) (h : Becomes vs t u) : Report.substitute vs t = u := by
  rw [← List.append_nil vs] at hquiet h
  exact eq_of_nil (substitute hquiet h)

end Becomes

/-! ### Templates -/

/-- If the piece is text, no symbol begins in it. -/
def Piece.Tidy (symbols : List String) : Piece → Prop
  | .text cs => ∀ s ∈ symbols, Clear s.toList cs
  | .hole _ => True

instance (symbols : List String) : DecidablePred (Piece.Tidy symbols)
  | .text cs => inferInstanceAs (Decidable (∀ s ∈ symbols, Clear s.toList cs))
  | .hole _ => inferInstanceAs (Decidable True)

/-- The texts between the symbols do not end in the beginning of a symbol. -/
def Tidy (symbols : List String) (cs : List Char) : Prop :=
  ∀ p ∈ Piece.cut symbols cs, p.Tidy symbols

instance (symbols : List String) (cs : List Char) : Decidable (Tidy symbols cs) :=
  inferInstanceAs (Decidable (∀ p ∈ Piece.cut symbols cs, p.Tidy symbols))

def Apart (symbols : List String) : Prop :=
  ∀ s ∈ symbols, s ≠ "" ∧ ∀ t ∈ symbols, s = t ∨ Clear t.toList s.toList

/-- **A template becomes what it is with all values at once.** -/
theorem becomes_fillAtOnce (hapart : Apart (values.map (·.1))) (hquiet : Quiet values)
    {template : String} (htidy : Tidy (values.map (·.1)) template.toList) :
    Becomes values template (fillAtOnce values template) := by
  have hnamed : ∀ v ∈ values, v.1 ≠ "" := fun v hv => (hapart v.1 (List.mem_map_of_mem hv)).1
  refine ⟨hnamed, (Piece.cut (values.map (·.1)) template.toList).map Piece.chars, ?_, ?_, ?_⟩
  · intro p hp v hv
    obtain ⟨piece, hpiece, rfl⟩ := List.mem_map.mp hp
    cases piece with
    | text cs => exact .inr (htidy _ hpiece v.1 (List.mem_map_of_mem hv))
    | hole s =>
      have hs : s ∈ values.map (·.1) := Piece.mem_of_hole_mem_cutFrom hpiece
      exact ((hapart s hs).2 v.1 (List.mem_map_of_mem hv)).imp_left (congrArg String.toList)
  · rw [← List.flatMap_def, Piece.flatMap_chars_cut fun s hs => (hapart s hs).1]
  · rw [fillAtOnce, String.toList_ofList, List.map_map, List.flatMap_def]
    congr 1
    refine List.map_congr_left fun piece hpiece => ?_
    cases piece with
    | text cs => exact (put_of_clear hnamed fun v hv => htidy _ hpiece v.1 (List.mem_map_of_mem hv)).symm
    | hole s => exact (put_symbol hnamed hquiet).symm

/-! ### The symbols of reports -/

/-- A name that can be told from what stands around it in a symbol. -/
def IsName (name : String) : Prop :=
  ' ' ∉ name.toList ∧ '\x7b' ∉ name.toList

instance (name : String) : Decidable (IsName name) :=
  inferInstanceAs (Decidable (_ ∧ _))

theorem toList_symbol (name : String) :
    (symbol name).toList = '\x7b' :: '\x7b' :: ' ' :: (name.toList ++ [' ', '\x7d', '\x7d']) := by
  have hopen : "\x7b\x7b ".toList = ['\x7b', '\x7b', ' '] := String.toList_ofList
  have hclose : " \x7d\x7d".toList = [' ', '\x7d', '\x7d'] := String.toList_ofList
  rw [symbol, String.toList_append, String.toList_append, hopen, hclose]
  rfl

theorem eq_of_blank_behind {a b : List Char} : ∀ {m n : List Char}, ' ' ∉ m → ' ' ∉ n →
    m ++ ' ' :: a <+: n ++ ' ' :: b → m = n
  | [], [], _, _, _ => rfl
  | [], d :: n, _, hn, h => absurd (List.cons_prefix_cons.mp h).1 fun heq => hn (heq ▸ List.mem_cons_self)
  | c :: m, [], hm, _, h => absurd (List.cons_prefix_cons.mp h).1 fun heq => hm (heq ▸ List.mem_cons_self)
  | c :: m, d :: n, hm, hn, h => by
    rw [List.mem_cons, not_or] at hm hn
    obtain ⟨rfl, hrest⟩ := List.cons_prefix_cons.mp h
    rw [eq_of_blank_behind hm.2 hn.2 hrest]

/-- **Symbols of different names** do not begin in each other. -/
theorem clear_symbol {m : String} (hm : IsName m) (hn : IsName n) (hne : m ≠ n) :
    Clear (symbol m).toList (symbol n).toList := by
  have hdiffer : m.toList ≠ n.toList := fun h => hne (String.toList_inj.mp h)
  have htail : '\x7b' ∉ ' ' :: (n.toList ++ [' ', '\x7d', '\x7d']) := by simp [hn.2]
  rw [toList_symbol, toList_symbol]
  refine ⟨⟨fun h => ?_, fun h => ?_⟩, ⟨fun h => ?_, fun h => ?_⟩, Text.clear_of_notMem htail⟩
  · simp only [List.cons_prefix_cons, true_and] at h
    exact hdiffer (eq_of_blank_behind hm.1 hn.1 h)
  · simp only [List.cons_prefix_cons, true_and] at h
    exact hdiffer (eq_of_blank_behind hn.1 hm.1 h).symm
  · simp [List.cons_prefix_cons] at h
  · simp [List.cons_prefix_cons] at h

theorem apart_symbol {names : List String} (h : ∀ n ∈ names, IsName n) : Apart (names.map symbol) := by
  intro s hs
  obtain ⟨n, hn, rfl⟩ := List.mem_map.mp hs
  refine ⟨fun hempty => ?_, fun t ht => ?_⟩
  · exact absurd (toList_symbol n) (by rw [hempty]; simp)
  · obtain ⟨m, hm, rfl⟩ := List.mem_map.mp ht
    by_cases heq : n = m
    · exact .inl (congrArg symbol heq)
    · exact .inr (clear_symbol (h m hm) (h n hn) (Ne.symm heq))

/-! ### Tidy templates -/

section

variable {names : List String} {cs : List Char}

namespace Piece

theorem exists_cutFrom (symbols : List String) : ∀ (cs : List Char) (skip : Nat), ∃ first rest, ∀ read,
    cutFrom symbols read skip cs = .text (read.reverse ++ first) :: rest
  | [], _ => ⟨[], [], fun read => by rw [cutFrom, List.append_nil]⟩
  | _ :: cs, skip + 1 => by
    obtain ⟨first, rest, h⟩ := exists_cutFrom symbols cs skip
    exact ⟨first, rest, fun read => by rw [cutFrom, h]⟩
  | c :: cs, 0 => by
    cases hfind : symbols.find? fun s => s.toList.isPrefixOf (c :: cs) with
    | some s =>
      refine ⟨[], .hole s :: cutFrom symbols [] (s.toList.length - 1) cs, fun read => ?_⟩
      rw [cutFrom, hfind, List.append_nil]
    | none =>
      obtain ⟨first, rest, h⟩ := exists_cutFrom symbols cs 0
      refine ⟨c :: first, rest, fun read => ?_⟩
      rw [cutFrom, hfind]
      dsimp only
      rw [h, List.reverse_cons, List.append_assoc]
      rfl

theorem cutFrom_append_length (symbols : List String) (read cs : List Char) : ∀ passed : List Char,
    cutFrom symbols read passed.length (passed ++ cs) = cutFrom symbols read 0 cs
  | [] => rfl
  | _ :: passed => cutFrom_append_length symbols read cs passed

theorem cutFrom_append_of_notMem : ∀ {t : List Char}, '\x7b' ∉ t → ∀ read,
    cutFrom (names.map symbol) read 0 (t ++ cs) = cutFrom (names.map symbol) (t.reverse ++ read) 0 cs
  | [], _, _ => rfl
  | c :: t, h, read => by
    rw [List.mem_cons, not_or] at h
    have hnone : ((names.map symbol).find? fun s => s.toList.isPrefixOf (c :: (t ++ cs))) = none := by
      rw [List.find?_eq_none]
      intro s hs
      obtain ⟨n, -, rfl⟩ := List.mem_map.mp hs
      rw [toList_symbol]
      simpa using fun heq => absurd heq h.1
    rw [List.cons_append, cutFrom, hnone]
    dsimp only
    rw [cutFrom_append_of_notMem h.2, List.reverse_cons, List.append_assoc]
    rfl

theorem cut_symbol_append (hnames : ∀ n ∈ names, IsName n) (hn : n ∈ names) :
    cut (names.map symbol) ((symbol n).toList ++ cs) = .text [] :: .hole (symbol n) :: cut (names.map symbol) cs := by
  have hapart := apart_symbol hnames (symbol n) (List.mem_map_of_mem hn)
  have hfind : ((names.map symbol).find? fun s => s.toList.isPrefixOf ((symbol n).toList ++ cs)) = some (symbol n) := by
    have hsome : ((names.map symbol).find? fun s => s.toList.isPrefixOf ((symbol n).toList ++ cs)).isSome = true := by
      rw [List.find?_isSome]
      exact ⟨symbol n, List.mem_map_of_mem hn, List.isPrefixOf_iff_prefix.mpr (List.prefix_append _ _)⟩
    obtain ⟨s, hs⟩ := Option.isSome_iff_exists.mp hsome
    have hfront := List.find?_some (p := fun s : String => s.toList.isPrefixOf ((symbol n).toList ++ cs)) hs
    rcases hapart.2 s (List.mem_of_find?_eq_some hs) with heq | hclear
    · rw [hs, heq]
    · have hnot := Text.not_prefix_of_clear (by simpa using hapart.1) hclear (List.prefix_append (symbol n).toList cs)
      exact absurd (List.isPrefixOf_iff_prefix.mp hfront) hnot
  obtain ⟨c, rest, hsymbol⟩ := List.exists_cons_of_ne_nil (by simpa using hapart.1 : (symbol n).toList ≠ [])
  rw [cut, cut]
  rw [hsymbol, List.cons_append] at hfind ⊢
  rw [cutFrom, hfind]
  dsimp only
  rw [hsymbol, List.length_cons, Nat.add_sub_cancel, cutFrom_append_length]
  rfl

end Piece

/-- No text of the template has an opening brace in it. -/
def Bare (symbols : List String) (cs : List Char) : Prop :=
  ∀ t, .text t ∈ Piece.cut symbols cs → '\x7b' ∉ t

theorem bare_nil (symbols : List String) : Bare symbols [] := by
  intro t ht
  obtain rfl : t = [] := by simpa [Piece.cut, Piece.cutFrom] using ht
  exact List.not_mem_nil

theorem Bare.text_append {t : List Char} (ht : '\x7b' ∉ t) (h : Bare (names.map symbol) cs) :
    Bare (names.map symbol) (t ++ cs) := by
  obtain ⟨first, rest, hcut⟩ := Piece.exists_cutFrom (names.map symbol) cs 0
  have hcs : Piece.cut (names.map symbol) cs = .text first :: rest := hcut []
  have htcs : Piece.cut (names.map symbol) (t ++ cs) = .text (t ++ first) :: rest := by
    rw [Piece.cut, Piece.cutFrom_append_of_notMem ht, hcut, List.append_nil, List.reverse_reverse]
  intro u hu
  rw [htcs] at hu
  rcases List.mem_cons.mp hu with heq | hu
  · obtain rfl : u = t ++ first := by simpa using heq
    have hfirst : '\x7b' ∉ first := h first (by rw [hcs]; exact List.mem_cons_self)
    simp [ht, hfirst]
  · exact h u (by rw [hcs]; exact List.mem_cons_of_mem _ hu)

theorem Bare.symbol_append (hnames : ∀ n ∈ names, IsName n) (hn : n ∈ names)
    (h : Bare (names.map symbol) cs) : Bare (names.map symbol) ((symbol n).toList ++ cs) := by
  intro u hu
  rw [Piece.cut_symbol_append hnames hn] at hu
  rcases List.mem_cons.mp hu with heq | hu
  · obtain rfl : u = [] := by simpa using heq
    exact List.not_mem_nil
  · exact h u ((List.mem_cons.mp hu).resolve_left (by simp))

theorem Bare.tidy (h : Bare (names.map symbol) cs) : Tidy (names.map symbol) cs := by
  intro p hp
  cases p with
  | text t =>
    intro s hs
    obtain ⟨n, -, rfl⟩ := List.mem_map.mp hs
    rw [toList_symbol]
    exact Text.clear_of_notMem (h t hp)
  | hole s => trivial

end

theorem quiet_of_notMem {names : List String}
    (hsymbols : ∀ v ∈ values, v.1 ∈ names.map symbol) (h : ∀ v ∈ values, '\x7b' ∉ v.2.toList) : Quiet values := by
  refine List.Pairwise.imp_of_mem ?_ (List.pairwise_of_forall fun _ _ => trivial : values.Pairwise fun _ _ => True)
  intro v w hv hw _
  obtain ⟨n, -, hn⟩ := List.mem_map.mp (hsymbols w hw)
  rw [← hn, toList_symbol]
  exact Text.clear_of_notMem (h v hv)

theorem exists_lookup : ∀ {values : List (String × String)}, s ∈ values.map (·.1) →
    ∃ v ∈ values, values.lookup s = some v.2
  | [], h => absurd h List.not_mem_nil
  | v :: values, h => by
    rw [List.lookup_cons]
    by_cases heq : s = v.1
    · exact ⟨v, List.mem_cons_self, by rw [heq, beq_self_eq_true]⟩
    · obtain ⟨w, hw, hlookup⟩ := exists_lookup ((List.mem_cons.mp h).resolve_left heq)
      exact ⟨w, List.mem_cons_of_mem v hw, by rw [beq_eq_false_iff_ne.mpr heq]; exact hlookup⟩

theorem notMem_fillAtOnce {template : String}
    (hbare : Bare (values.map (·.1)) template.toList) (h : ∀ v ∈ values, '\x7b' ∉ v.2.toList) :
    '\x7b' ∉ (fillAtOnce values template).toList := by
  rw [fillAtOnce, String.toList_ofList]
  intro hmem
  obtain ⟨p, hp, hc⟩ := List.mem_flatMap.mp hmem
  cases p with
  | text t => exact hbare t hp hc
  | hole s =>
    obtain ⟨v, hv, hlookup⟩ := exists_lookup (Piece.mem_of_hole_mem_cutFrom hp)
    rw [Piece.fill, hlookup, Option.getD_some] at hc
    exact h v hv hc

/-! ### The symbols of reports -/

theorem symbol_inj {a b : String} : symbol a = symbol b ↔ a = b := by
  constructor
  · intro h
    have hlists := congrArg String.toList h
    rw [toList_symbol, toList_symbol] at hlists
    exact String.toList_inj.mp (by simpa using hlists)
  · exact congrArg symbol

def findingNames : List String :=
  ["finding_id", "rule_id", "risk_level", "risk_class", "issue_summary", "vulnerability_location", "data_flow",
    "evidence_code", "highlighted_code", "ai_analysis"]

def reportNames : List String :=
  ["title", "logo", "color_logo", "mono_logo", "author", "author_value", "unit", "unit_value", "project_path",
    "generated_at", "generated_at_value", "date", "overview", "findings", "affected_locations",
    "evidence_code_snippets", "highlighted_code_snippets"]

theorem isName_of_mem : ∀ n ∈ findingNames ++ reportNames, IsName n := by decide +kernel

theorem isName_of_mem_findingNames : ∀ n ∈ findingNames, IsName n :=
  fun n hn => isName_of_mem n (List.mem_append_left _ hn)

def findingSymbols : List String := findingNames.map symbol

def reportSymbols : List String := reportNames.map symbol

theorem mem_of_symbols {symbols : List String} (h : values.map (·.1) = symbols)
    {v : String × String} (hv : v ∈ values) : v.1 ∈ symbols :=
  h ▸ List.mem_map_of_mem hv

section

variable (r : Report) (m : Medium)

theorem symbols_findingValues (index : Int) (v : Value) :
    Yields (fun values => values.map (·.1) = findingSymbols) (r.findingValues index v m) :=
  .bind (.any _) fun _ _ => .bind (.any _) fun _ _ => .bind (.any _) fun _ _ => .pure rfl

theorem symbols_values (printed : Bool) :
    Yields (fun values => values.map (·.1) = reportSymbols) (r.values m printed) := by
  refine .bind (.any _) fun _ _ => .bind (.any _) fun _ _ => .bind (.any _) fun _ _ => ?_
  exact .bind (.any _) fun _ _ => .bind (.any _) fun _ _ => .bind (.any _) fun _ _ => .pure rfl

end

/-! ### Blocks -/

def own (r : Report) (m : Medium) : Except Fault (List (List (String × String))) :=
  r.numbered.mapM fun x => r.findingValues x.1 x.2 m

/-- The texts of all findings, with something in their place if there are none. -/
def listed (m : Medium) (texts : List String) : String :=
  if texts.isEmpty then noFindings m else Text.join "\n" texts

theorem mapM_map {α β γ : Type} (f : α → Except Fault β) (g : β → γ) : ∀ xs : List α,
    xs.mapM (fun x => (f x).map g) = (xs.mapM f).map (List.map g)
  | [] => rfl
  | x :: xs => by
    rw [List.mapM_cons, List.mapM_cons, mapM_map f g xs]
    cases f x with
    | error e => rfl
    | ok y =>
      cases xs.mapM f with
      | error e => rfl
      | ok ys => rfl

theorem isEmpty_mapM {α β : Type} (f : α → Except Fault β) (xs : List α) :
    Yields (fun ys => ys.isEmpty = xs.isEmpty) (xs.mapM f) := by
  cases xs with
  | nil => exact .pure rfl
  | cons x xs =>
    rw [List.mapM_cons]
    exact .bind (.any _) fun _ _ => .bind (.any _) fun _ _ => .pure rfl

/-- **A block is written** with the values of each finding. -/
theorem writeBlock_eq (r : Report) (m : Medium) (block : String) :
    r.writeBlock m block = (r.own m).map fun own => listed m (own.map fun values => substitute values block) := by
  have hmapM : (r.numbered.mapM fun x => r.writeFinding block x.1 x.2 m) =
      (r.own m).map (List.map fun values => substitute values block) :=
    mapM_map (fun x : Int × Value => r.findingValues x.1 x.2 m) _ r.numbered
  unfold writeBlock
  rw [hmapM]
  split_ifs with hempty
  · have hown : r.own m = .ok [] := by
      rw [own, numbered, List.isEmpty_iff.mp hempty]
      rfl
    rw [hown]
    rfl
  · cases hown : r.own m with
    | error e => rfl
    | ok own =>
      have hfindings : r.findings ≠ [] := by simpa using hempty
      have hsome : own.isEmpty = false := by
        rw [isEmpty_mapM _ _ own hown, List.isEmpty_eq_false_iff]
        simpa [numbered] using hfindings
      have hlisted : listed m (own.map fun values => substitute values block) =
          Text.join "\n" (own.map fun values => substitute values block) := by
        rw [listed, List.isEmpty_map, hsome, if_neg Bool.false_ne_true]
      exact congrArg Except.ok hlisted.symm

end SourceAudit.Report
