/-
# Pieces put together

Put together, the pieces of a document are the document (`written_pieces`). Each way of
cutting a text gives stretches that lie one after the other: the matches of tokens and
of blocks, the tags of a PHP file, and the spans of a syntax tree, of which those that
start too early are left out. A tree gives bytes, not characters; its pieces are whole
if its nodes start and stop between characters (`Aligned`). Nothing else is asked of a
tree: its nodes may overlap, run backwards, or come in any order.

A script or style block is cut at its first `>` and at the last `</` of its lower case
form. That form may be longer than the block, so its last `</` may lie behind the one in
the block, but never before it (`le_lastClosing`).
-/
import SourceAudit.Highlight.Document
import SourceAudit.Proofs.Pattern.Spans
import SourceAudit.Proofs.Syntax.Bare
import SourceAudit.Proofs.Text.Case
import SourceAudit.Proofs.Text.Utf8

namespace SourceAudit.Highlight

open Pattern (cut cut_self cut_one cut_append cut_all InOrder SpansAll afterChar?)

variable {cs content : List Char} {text : Array Char} {k l : Nat} {language : String} {grammar : Grammar}
  {s : Span} {t : Tree Range}

/-- What pieces are pieces of: their texts put together. -/
def written (ps : List Piece) : List Char :=
  ps.flatMap (·.text.toList)

@[simp] theorem written_nil : written [] = [] := rfl

@[simp] theorem written_cons (p : Piece) (ps : List Piece) : written (p :: ps) = p.text.toList ++ written ps := by
  simp [written]

@[simp] theorem written_append (ps qs : List Piece) : written (ps ++ qs) = written ps ++ written qs := by
  simp [written]

theorem written_stretch {a b : Nat} {f : List Char → List Piece}
    (hf : a < b → written (f (cut text a b)) = cut text a b) (hab : a ≤ b) :
    written (if a < b then f (cut text a b) else []) = cut text a b := by
  by_cases h : a < b
  · rw [if_pos h, hf h]
  · have hb : b = a := by omega
    rw [if_neg h, hb, cut_self, written_nil]

/-! ### Tokens -/

theorem written_tokenPiecesFrom {scope : Pattern.Match → Option String} :
    ∀ {ms : List Pattern.Match} {pos : Nat}, pos ≤ text.size →
    InOrder text.size pos (ms.map Pattern.Match.bounds) →
    written (tokenPiecesFrom scope text pos ms) = cut text pos text.size
  | [], pos, hpos, _ => by
    rw [tokenPiecesFrom]
    exact written_stretch (f := fun cs => [.plain (String.ofList cs)]) (fun _ => by simp [Piece.plain]) hpos
  | m :: rest, pos, _, horder => by
    obtain ⟨hstart, hstop, hend, hrest⟩ := horder.of_cons
    have hgap : written (if pos < m.start then [.plain (String.ofList (cut text pos m.start))] else []) =
        cut text pos m.start :=
      written_stretch (f := fun cs => [.plain (String.ofList cs)]) (fun _ => by simp [Piece.plain]) hstart
    rw [tokenPiecesFrom, written_append, written_cons, hgap, written_tokenPiecesFrom hend hrest,
      String.toList_ofList, Pattern.Match.chars, cut_append hstop hend,
      cut_append hstart (Nat.le_trans hstop hend)]

theorem written_tokenPieces (t : Tokens) (content : List Char) : written (tokenPieces t content) = content := by
  rw [tokenPieces, written_tokenPiecesFrom (Nat.zero_le _) (Pattern.findAll_inOrder _ _), cut_all]

/-! ### The last closing tag -/

theorem indexFrom_append_le (needle after : List Char) : ∀ (before : List Char) (at' : Nat),
    ∃ i, Text.indexFrom needle at' (before ++ (needle ++ after)) = some i ∧ i ≤ at' + before.length
  | [], at' => by
    refine ⟨at', ?_, Nat.le_refl _⟩
    rw [List.nil_append]
    cases h : needle ++ after with
    | nil =>
      have hneedle : needle = [] := (List.append_eq_nil_iff.mp h).1
      simp [Text.indexFrom, hneedle]
    | cons c cs =>
      have hfront : needle.isPrefixOf (c :: cs) = true := by
        rw [← h, List.isPrefixOf_iff_prefix]
        exact List.prefix_append needle after
      rw [Text.indexFrom, if_pos hfront]
  | c :: before, at' => by
    rw [List.cons_append, Text.indexFrom]
    split
    · exact ⟨at', rfl, by simp⟩
    · obtain ⟨i, hi, hle⟩ := indexFrom_append_le needle after before (at' + 1)
      exact ⟨i, hi, by rw [List.length_cons]; omega⟩

theorem length_le_lastClosing (before after : List Char) :
    before.length ≤ lastClosing (before ++ '<' :: '/' :: after) := by
  obtain ⟨i, hi, hle⟩ := indexFrom_append_le ['/', '<'] before.reverse after.reverse 0
  have hreverse : (before ++ '<' :: '/' :: after).reverse = after.reverse ++ (['/', '<'] ++ before.reverse) := by
    simp
  rw [List.length_reverse] at hle
  simp only [lastClosing, hreverse, hi, List.length_append, List.length_cons]
  omega

/-- The last closing tag of the lower case form does not stand before a closing tag. -/
theorem le_lastClosing (before after : List Char) :
    before.length ≤ lastClosing (Text.lower (String.ofList (before ++ '<' :: '/' :: after))).toList := by
  obtain ⟨lowered, hlength, heq⟩ := Text.lowerFrom_append before [] ('<' :: '/' :: after)
  have hlt : ∀ b cs, Text.lowerForm b '<' cs = ['<'] := fun b cs => by
    simp [Text.lowerForm, Text.lowerChar]
  have hslash : ∀ b cs, Text.lowerForm b '/' cs = ['/'] := fun b cs => by
    simp [Text.lowerForm, Text.lowerChar]
  rw [Text.lower, String.toList_ofList, String.toList_ofList, heq, Text.lowerFrom_cons, Text.lowerFrom_cons, hlt,
    hslash]
  exact Nat.le_trans hlength (length_le_lastClosing lowered _)

/-! ### Blocks -/

/-- A block has a `>` and, behind it, a `</`. -/
def IsBlock (cs : List Char) : Prop :=
  ∃ opening inside closing, cs = (opening ++ '>' :: inside) ++ '<' :: '/' :: closing

/-- The expression tests for a `>`, then for a `<`, and right behind that for a `/`. -/
def delimits (r : Pattern.Regex) : Bool :=
  ((afterChar? '>' r.parts).bind (afterChar? '<')).any fun rest => rest.head?.any (·.isChar '/')

theorem delimits_blockPattern : delimits blockPattern.regex = true := by
  decide +kernel

theorem isBlock_of_delimits {r : Pattern.Regex} {i j : Nat} (hr : delimits r = true)
    (h : r.Spans text i j) : IsBlock (cut text i j) := by
  obtain ⟨rest, hrest, hslash⟩ := (Option.any_eq_true _ _).mp hr
  obtain ⟨inner, hinner, hclose⟩ := Option.bind_eq_some_iff.mp hrest
  obtain ⟨p, hp, hpx, hspans⟩ := h.parts.afterChar? hinner
  obtain ⟨q, hq, hqx, hspans⟩ := hspans.afterChar? hclose
  cases rest with
  | nil => cases hslash
  | cons slash rest =>
    obtain ⟨k, hk, hspans⟩ := hspans
    obtain ⟨hkq, hqs⟩ := hk.isChar (by simpa using hslash)
    have hkj : k ≤ j := hspans.le
    refine ⟨cut text i p, cut text (p + 1) q, cut text k j, ?_⟩
    calc cut text i j = cut text i p ++ cut text p (p + 1) ++ cut text (p + 1) q ++
          cut text q (q + 1) ++ cut text (q + 1) k ++ cut text k j := by
          rw [cut_append hp (by omega), cut_append (by omega) hq, cut_append (by omega) (by omega),
            cut_append (by omega) (by omega), cut_append (by omega) hkj]
      _ = (cut text i p ++ '>' :: cut text (p + 1) q) ++ '<' :: '/' :: cut text k j := by
          rw [cut_one hpx, cut_one hqx, hkq, cut_one hqs]
          simp

theorem isBlock_of_findAll {p : Pattern} (hp : delimits p.regex = true) {m : Pattern.Match}
    (hm : m ∈ p.findAll text) : IsBlock (m.chars text) :=
  isBlock_of_delimits hp (Pattern.findAll_spans hm)

theorem length_takeWhile_le (x : Char) (after : List Char) : ∀ before : List Char,
    ((before ++ x :: after).takeWhile (· != x)).length ≤ before.length
  | [] => by simp
  | c :: before => by
    have hle := length_takeWhile_le x after before
    by_cases hc : c = x
    · simp [hc]
    · simpa [hc] using hle

theorem written_blockPieces {block : List Char} (isScript : Bool) (h : IsBlock block) :
    written (blockPieces isScript block) = block := by
  obtain ⟨opening, inside, closing, rfl⟩ := h
  have hclosed := le_lastClosing (opening ++ '>' :: inside) closing
  have hopened := length_takeWhile_le '>' (inside ++ '<' :: '/' :: closing) opening
  rw [← List.cons_append, ← List.append_assoc] at hopened
  rw [List.length_append, List.length_cons] at hclosed
  rw [blockPieces]
  generalize hopen : ((opening ++ '>' :: inside ++ '<' :: '/' :: closing).takeWhile (· != '>')).length = n at *
  generalize lastClosing _ = m at *
  generalize opening ++ '>' :: inside ++ '<' :: '/' :: closing = block at *
  rw [written_append, written_append, written_tokenPieces, written_tokenPieces, written_tokenPieces]
  have hsplit := List.take_append_drop (n + 1) (block.take m)
  rw [List.take_take, Nat.min_eq_left (by omega)] at hsplit
  rw [← List.append_assoc, hsplit, List.take_append_drop]

theorem written_pagePiecesFrom (text : Array Char) : ∀ (ms : List Pattern.Match) (pos : Nat), pos ≤ text.size →
    InOrder text.size pos (ms.map Pattern.Match.bounds) → (∀ m ∈ ms, IsBlock (m.chars text)) →
    written (pagePiecesFrom text pos ms) = cut text pos text.size
  | [], pos, hpos, _, _ => by
    rw [pagePiecesFrom]
    exact written_stretch (fun _ => written_tokenPieces _ _) hpos
  | m :: rest, pos, _, horder, hall => by
    obtain ⟨hstart, hstop, hend, hrest⟩ := horder.of_cons
    have hgap := written_stretch (fun _ => written_tokenPieces pageTokens (cut text pos m.start)) hstart
    have hblock := fun isScript => written_blockPieces isScript (hall m List.mem_cons_self)
    have hrest := written_pagePiecesFrom text rest m.stop hend hrest fun m' hm => hall m' (List.mem_cons_of_mem _ hm)
    calc written (pagePiecesFrom text pos (m :: rest))
        = cut text pos m.start ++ (cut text m.start m.stop ++ cut text m.stop text.size) := by
          rw [pagePiecesFrom, written_append, written_append]
          exact congrArg₂ (· ++ ·) hgap (congrArg₂ (· ++ ·) (hblock _) hrest)
      _ = cut text pos text.size := by
          rw [cut_append hstop hend, cut_append hstart (Nat.le_trans hstop hend)]

theorem written_pagePieces (content : List Char) : written (pagePieces content) = content := by
  have hpieces := written_pagePiecesFrom content.toArray (blockPattern.findAll content.toArray) 0 (Nat.zero_le _)
    (Pattern.findAll_inOrder _ _) fun m hm => isBlock_of_findAll (p := blockPattern) delimits_blockPattern hm
  rwa [cut_all] at hpieces

/-! ### Bytes -/

def offset (cs : List Char) (k : Nat) : Nat :=
  ((cs.take k).flatMap Utf8.encodeChar).length

/-- The places between the characters of a text, counted in bytes. -/
def offsets (cs : List Char) : List Nat :=
  (List.range (cs.length + 1)).map (offset cs)

theorem mem_offsets {n : Nat} : n ∈ offsets cs ↔ ∃ k ≤ cs.length, offset cs k = n := by
  simp [offsets, Nat.lt_succ_iff]

theorem length_encodeChar_pos (c : Char) : 0 < (Utf8.encodeChar c).length := by
  rw [Utf8.encodeChar_eq]
  split
  · simp
  · split
    · simp
    · split <;> simp

theorem flatMap_take (cs : List Char) (h : k ≤ l) : (cs.take l).flatMap Utf8.encodeChar =
      (cs.take k).flatMap Utf8.encodeChar ++ ((cs.take l).drop k).flatMap Utf8.encodeChar := by
  rw [← List.flatMap_append]
  have hsplit := List.take_append_drop k (cs.take l)
  rw [List.take_take, Nat.min_eq_left h] at hsplit
  rw [hsplit]

theorem offset_mono (cs : List Char) (h : k ≤ l) : offset cs k ≤ offset cs l := by
  rw [offset, offset, flatMap_take cs h, List.length_append]
  omega

theorem offset_lt (h : k < l) (hl : l ≤ cs.length) : offset cs k < offset cs l := by
  have hstep : offset cs k < offset cs (k + 1) := by
    rw [offset, offset, List.take_succ_eq_append_getElem (by omega), List.flatMap_append, List.length_append]
    have hpos := length_encodeChar_pos (cs[k])
    simp only [List.flatMap_cons, List.flatMap_nil, List.append_nil]
    omega
  exact Nat.lt_of_lt_of_le hstep (offset_mono cs h)

theorem le_of_offset_le (h : offset cs k ≤ offset cs l) (hk : k ≤ cs.length) : k ≤ l := by
  by_contra hlt
  have hless := offset_lt (Nat.lt_of_not_le hlt) hk
  omega

theorem textOf_offset (cs : List Char) (h : k ≤ l) :
    textOf (cs.flatMap Utf8.encodeChar).toArray (offset cs k) (offset cs l) = String.ofList (cut cs.toArray k l) := by
  have hbytes : (cs.flatMap Utf8.encodeChar).take (offset cs l) = (cs.take l).flatMap Utf8.encodeChar := by
    have hall := List.take_append_drop l cs
    rw [offset, ← hall, List.flatMap_append, hall, List.take_left]
  rw [textOf, Array.toList_extract, List.extract_eq_take_drop, ← List.drop_take, hbytes, flatMap_take cs h, offset,
    List.drop_left, Utf8.decode_flatMap, Pattern.cut_eq]

def Span.OnCharacters (cs : List Char) (s : Span) : Prop :=
  s.start < s.stop ∧ s.start ∈ offsets cs ∧ s.stop ∈ offsets cs

theorem size_flatMap (cs : List Char) : (cs.flatMap Utf8.encodeChar).toArray.size = offset cs cs.length := by
  rw [offset, List.take_length, List.size_toArray]

/-- The pieces from a character on are what stands there, whatever the order of the spans. -/
theorem written_piecesFrom : ∀ {ss : List Span} {k : Nat}, k ≤ cs.length → (∀ s ∈ ss, s.OnCharacters cs) →
    written (piecesFrom (cs.flatMap Utf8.encodeChar).toArray (offset cs k) ss) = cut cs.toArray k cs.length
  | [], k, hk, _ => by
    rw [piecesFrom, size_flatMap, textOf_offset cs hk]
    by_cases hend : k < cs.length
    · rw [if_pos (offset_lt hend (Nat.le_refl _))]
      simp [Piece.plain]
    · have hk : k = cs.length := by omega
      rw [hk, if_neg (Nat.lt_irrefl _), cut_self, written_nil]
  | s :: rest, k, hk, hall => by
    obtain ⟨hforward, hstart, hstop⟩ := hall s List.mem_cons_self
    have hrest : ∀ s ∈ rest, s.OnCharacters cs := fun s hs => hall s (List.mem_cons_of_mem _ hs)
    obtain ⟨a, ha, hstart⟩ := mem_offsets.mp hstart
    obtain ⟨b, hb, hstop⟩ := mem_offsets.mp hstop
    rw [piecesFrom]
    by_cases hearly : s.start < offset cs k
    · rw [if_pos hearly]
      exact written_piecesFrom hk hrest
    · rw [← hstart, ← hstop] at hforward
      rw [← hstart] at hearly
      have hka : k ≤ a := le_of_offset_le (Nat.le_of_not_lt hearly) hk
      have hab : a ≤ b := le_of_offset_le (Nat.le_of_lt hforward) ha
      have hgap : written (if offset cs k < offset cs a then [.plain (String.ofList (cut cs.toArray k a))] else []) =
          cut cs.toArray k a := by
        by_cases hlt : k < a
        · rw [if_pos (offset_lt hlt ha)]
          simp [Piece.plain]
        · have hk : k = a := by omega
          rw [hk, if_neg (Nat.lt_irrefl _), cut_self, written_nil]
      rw [if_neg (hstart ▸ hearly), ← hstart, ← hstop, textOf_offset cs hka, textOf_offset cs hab, written_append,
        written_cons, hgap, written_piecesFrom hb hrest, String.toList_ofList, cut_append hab hb,
        cut_append hka (Nat.le_trans hab hb)]

/-- All nodes of a tree start and stop between characters of the source. -/
def Aligned (source : String) (t : Tree Range) : Prop :=
  ∀ n ∈ t.preorder, n.label.start ∈ offsets source.toList ∧ n.label.stop ∈ offsets source.toList

instance (source : String) (t : Tree Range) : Decidable (Aligned source t) :=
  inferInstanceAs (Decidable (∀ n ∈ t.preorder,
    n.label.start ∈ offsets source.toList ∧ n.label.stop ∈ offsets source.toList))

theorem ownSpan?_some {p : Place} {isLeaf : Bool} (h : ownSpan? language p isLeaf = some s) :
    s.start < s.stop ∧ s.start = p.part.start ∧ s.stop = p.part.stop := by
  unfold ownSpan? at h
  split at h
  · split at h
    · rename_i hrange
      rw [Bool.and_eq_true, decide_eq_true_eq] at hrange
      rw [← Option.some.inj h]
      exact ⟨hrange.1, rfl, rfl⟩
    · cases h
  · cases h

/-- The spans of a tree that stands in nodes of some kinds. -/
def spansIn (language : String) (source : Array UInt8) (inside : List String) (t : Tree Range) : List Span :=
  spans language (place inside (Syntax.read source t))

theorem placeAll_eq_map (inside : List String) : ∀ cs, placeAll inside cs = cs.map (place inside)
  | [] => rfl
  | c :: cs => by rw [placeAll, placeAll_eq_map inside cs, List.map_cons]

theorem spansOfAll_eq_flatMap (language : String) : ∀ cs, spansOfAll language cs = cs.flatMap (spans language)
  | [] => rfl
  | c :: cs => by rw [spansOfAll, spansOfAll_eq_flatMap language cs, List.flatMap_cons]

theorem spansIn_node (language : String) (source : Array UInt8) (inside : List String) (r : Range)
    (ts : List (Tree Range)) : spansIn language source inside (.node r ts) =
      (match ownSpan? language ⟨Syntax.readRange source r, inside⟩ ts.isEmpty with
      | some s => [s]
      | none => ts.flatMap (spansIn language source (r.kind :: inside))) := by
  rw [spansIn, Syntax.read, Tree.map_node, place, spans, placeAll_eq_map, spansOfAll_eq_flatMap, List.map_map,
    List.flatMap_map, List.isEmpty_map]
  rfl

theorem ownSpan?_of_mem_spansIn {source : Array UInt8} {inside : List String}
    (hs : s ∈ spansIn language source inside t) : ∃ n ∈ t.preorder, ∃ kinds isLeaf,
      ownSpan? language ⟨Syntax.readRange source n.label, kinds⟩ isLeaf = some s := by
  induction t using Tree.ind generalizing inside with
  | h r ts ih =>
    rw [spansIn_node] at hs
    split at hs
    · rename_i own hown
      rw [List.mem_singleton.mp hs]
      exact ⟨_, Tree.mem_preorder_self _, inside, _, hown⟩
    · obtain ⟨t, ht, hs⟩ := List.mem_flatMap.mp hs
      obtain ⟨n, hn, hown⟩ := ih t ht hs
      exact ⟨n, Tree.mem_preorder_node.mpr (Or.inr ⟨t, ht, hn⟩), hown⟩

theorem onCharacters_of_mem_spansIn {source : Array UInt8} {inside : List String}
    (h : ∀ n ∈ t.preorder, n.label.start ∈ offsets cs ∧ n.label.stop ∈ offsets cs)
    (hs : s ∈ spansIn language source inside t) : s.OnCharacters cs := by
  obtain ⟨n, hn, _, _, hown⟩ := ownSpan?_of_mem_spansIn hs
  obtain ⟨hforward, hstart, hstop⟩ := ownSpan?_some hown
  exact ⟨hforward, hstart ▸ (h n hn).1, hstop ▸ (h n hn).2⟩

theorem written_treePieces (h : ∀ n ∈ t.preorder, n.label.start ∈ offsets cs ∧ n.label.stop ∈ offsets cs) :
    written (treePieces language (cs.flatMap Utf8.encodeChar).toArray t) = cs := by
  have hspans : ∀ s ∈ (spansIn language (cs.flatMap Utf8.encodeChar).toArray [] t).mergeSort Span.before,
      s.OnCharacters cs :=
    fun s hs => onCharacters_of_mem_spansIn h (List.mem_mergeSort.mp hs)
  have hpieces := written_piecesFrom (Nat.zero_le _) hspans
  rwa [← List.size_toArray, cut_all] at hpieces

/-- The pieces of a source are the source, if its tree keeps to the characters. -/
theorem written_sourcePieces (h : Aligned (String.ofList content) (grammar language (String.ofList content))) :
    written (sourcePieces grammar language content) = content := by
  rw [Aligned, String.toList_ofList] at h
  rw [sourcePieces, Utf8.encode, String.toList_ofList, written_treePieces h]

/-! ### Tags -/

theorem tagAt?_length {n : Nat} {opens : Bool} (h : tagAt? cs = some (n, opens)) : 0 < n ∧ n ≤ cs.length := by
  unfold tagAt? at h
  split at h
  · have hn : 2 = n := congrArg Prod.fst (Option.some.inj h)
    simp [← hn]
  · obtain ⟨k, hk, hpair⟩ := Option.map_eq_some_iff.mp h
    have hn : k = n := congrArg Prod.fst hpair
    have hbounds := Php.tagLength?_bounds hk
    omega

def tagBounds (tag : Nat × Nat × Bool) : Nat × Nat := (tag.1, tag.2.1)

theorem tagsFrom_inOrder : ∀ (cs : List Char) (pos skip : Nat), skip ≤ cs.length →
    InOrder (pos + cs.length) (pos + skip) ((tagsFrom pos skip cs).map tagBounds)
  | [], _, _, _ => by
    rw [tagsFrom]
    exact .nil
  | c :: cs, pos, skip + 1, h => by
    have hrest := tagsFrom_inOrder cs (pos + 1) skip (Nat.le_of_succ_le_succ h)
    rw [List.length_cons, tagsFrom, ← Nat.add_assoc, Nat.add_right_comm pos cs.length 1, ← Nat.add_assoc,
      Nat.add_right_comm pos skip 1]
    exact hrest
  | c :: cs, pos, 0, _ => by
    rw [List.length_cons, tagsFrom]
    split
    · have hrest := tagsFrom_inOrder cs (pos + 1) 0 (Nat.zero_le _)
      rw [Nat.add_right_comm] at hrest
      exact hrest.mono (by omega)
    · rename_i n opens htag
      obtain ⟨hpos, hn⟩ := tagAt?_length htag
      rw [List.length_cons] at hn
      have hrest := tagsFrom_inOrder cs (pos + 1) (n - 1) (by omega)
      have hsize : pos + 1 + cs.length = pos + (cs.length + 1) := by omega
      have hstop : pos + 1 + (n - 1) = pos + n := by omega
      have hend : pos + n ≤ pos + (cs.length + 1) := by omega
      rw [hsize, hstop] at hrest
      exact .cons (Nat.le_refl _) (Nat.le_add_right _ _) hend hrest

/-! ### Documents -/

/-- The stretches of PHP between the tags of a file. -/
def phpChunksFrom (text : Array Char) (position : Nat) (inPhp : Bool) : List (Nat × Nat × Bool) → List (List Char)
  | [] => if inPhp && position < text.size then [cut text position text.size] else []
  | (start, stop, opens) :: rest =>
    (if inPhp && position < start then [cut text position start] else []) ++ phpChunksFrom text stop opens rest

def phpChunks (content : List Char) : List (List Char) :=
  match tagsFrom 0 0 content with
  | [] => [content]
  | tags => phpChunksFrom content.toArray 0 false tags

/-- What the parser gets to see of a document: languages and sources. -/
def parsed (content path : String) : List (String × String) :=
  match Text.lower (Path.ofString path).suffix with
  | ".php" => (phpChunks content.toList).map fun chunk => ("php_only", String.ofList chunk)
  | ".py" => [("python", content)]
  | ".java" => [("java", content)]
  | ".lua" => [("lua", content)]
  | ".go" => [("go", content)]
  | _ => []

/-- The parser keeps to the characters of a stretch of PHP. -/
def AlignedPhp (grammar : Grammar) (chunk : List Char) : Prop :=
  Aligned (String.ofList chunk) (grammar "php_only" (String.ofList chunk))

theorem written_betweenPieces {inPhp : Bool}
    (h : inPhp = true → AlignedPhp grammar content) : written (betweenPieces grammar inPhp content) = content := by
  rw [betweenPieces]
  by_cases hphp : inPhp = true
  · rw [if_pos hphp, written_sourcePieces (h hphp)]
  · rw [if_neg hphp, written_pagePieces]

theorem written_phpPiecesFrom : ∀ {tags : List (Nat × Nat × Bool)}
    {pos : Nat} {inPhp : Bool}, pos ≤ text.size → InOrder text.size pos (tags.map tagBounds) →
    (∀ chunk ∈ phpChunksFrom text pos inPhp tags, AlignedPhp grammar chunk) →
    written (phpPiecesFrom grammar text pos inPhp tags) = cut text pos text.size
  | [], pos, inPhp, hpos, _, hall => by
    rw [phpPiecesFrom]
    refine written_stretch (fun hlt => written_betweenPieces fun hphp => hall _ ?_) hpos
    simp [phpChunksFrom, hphp, hlt]
  | (start, stop, opens) :: rest, pos, inPhp, _, horder, hall => by
    obtain ⟨hstart, hstop, hend, hrest⟩ := horder.of_cons
    have hgap : written (if pos < start then betweenPieces grammar inPhp (cut text pos start) else []) =
        cut text pos start := by
      refine written_stretch (fun hlt => written_betweenPieces fun hphp => hall _ ?_) hstart
      simp [phpChunksFrom, hphp, hlt]
    have hnext : ∀ chunk ∈ phpChunksFrom text stop opens rest, AlignedPhp grammar chunk :=
      fun chunk hchunk => hall chunk (List.mem_append_right _ hchunk)
    rw [phpPiecesFrom, written_append, written_cons, hgap, written_phpPiecesFrom hend hrest hnext,
      String.toList_ofList, cut_append hstop hend, cut_append hstart (Nat.le_trans hstop hend)]

theorem written_phpPieces (h : ∀ chunk ∈ phpChunks content, AlignedPhp grammar chunk) :
    written (phpPieces grammar content) = content := by
  have horder := tagsFrom_inOrder content 0 0 (Nat.zero_le _)
  rw [Nat.zero_add, ← List.size_toArray] at horder
  unfold phpChunks at h
  unfold phpPieces
  cases htags : tagsFrom 0 0 content with
  | nil =>
    rw [htags] at h
    exact written_sourcePieces (h content (List.mem_singleton_self content))
  | cons tag rest =>
    rw [htags] at h horder
    dsimp only at h ⊢
    rw [written_phpPiecesFrom (Nat.zero_le _) horder h, cut_all]

/-- **The pieces of a document are the document**, whatever trees the parser gives, if only they keep
to the characters of what it gets to see. -/
theorem written_pieces {content path : String} (h : ∀ s ∈ parsed content path, Aligned s.2 (grammar s.1 s.2)) :
    written (pieces grammar content path) = content.toList := by
  have source : ∀ language, Aligned content (grammar language content) →
      written (sourcePieces grammar language content.toList) = content.toList := fun language hl =>
    written_sourcePieces (by rwa [String.ofList_toList])
  unfold parsed at h
  unfold pieces
  generalize Text.lower (Path.ofString path).suffix = suffix at h
  dsimp only
  split
  · exact written_phpPieces fun chunk hchunk => h _ (List.mem_map_of_mem hchunk)
  · exact source _ (h _ (List.mem_singleton_self _))
  · exact source _ (h _ (List.mem_singleton_self _))
  · exact source _ (h _ (List.mem_singleton_self _))
  · exact source _ (h _ (List.mem_singleton_self _))
  · exact written_pagePieces _
  · exact written_pagePieces _
  · exact written_tokenPieces _ _
  · exact written_tokenPieces _ _
  · exact written_tokenPieces _ _
  · simp [Piece.plain]

end SourceAudit.Highlight
