/-
# What a highlighted document shows

The page that a document is shown as is, without its span tags, the document with its
layout kept: layout is kept character by character, and no other tags stand around
pieces. And it holds no markup of the document's own (`Markup`): a span inside it is
closed, and none stands in another. For this nothing is asked of the parser at all.

A span is left out if it starts before the end of the one before. In a tree whose nodes
hold their children, in order and apart (`Nested`), that does not happen, so each span
is shown in its style, with what lies between them as it is (`renderAll_treePieces`).
Nodes may still be empty, start or stop inside a character, or lie behind the end of the
source.
-/
import Mathlib.Tactic.SplitIfs
import SourceAudit.Proofs.Highlight.Pieces

namespace SourceAudit.Highlight

open Html (preserveChar escapeChar)

variable {cs : List Char} {inSpan : Bool}

/-- The tag that a piece with a style is shown in, and the one that closes it. -/
def openingTag (style : String) : String :=
  "<span style=\"" ++ style ++ "\">"

def closingTag : String :=
  "</span>"

theorem toList_openingTag (style : String) :
    (openingTag style).toList = '<' :: ("span style=\"".toList ++ style.toList ++ ['"']) ++ ['>'] := by
  have hstart : "<span style=\"".toList = '<' :: "span style=\"".toList := by simp
  have hend : "\">".toList = ['"'] ++ ['>'] := by simp
  unfold openingTag
  rw [String.toList_append, String.toList_append, hstart, hend]
  simp only [List.cons_append, List.append_assoc]

theorem toList_closingTag : closingTag.toList = '<' :: "/span".toList ++ ['>'] := by
  simp [closingTag]

/-- The styles of the vocabulary, with the one for scopes that have none. -/
def allStyles : List String :=
  plainStyle :: styles.map (·.2)

theorem styleOf_mem (scope : String) : styleOf scope ∈ allStyles := by
  rw [styleOf, allStyles]
  cases h : styles.find? (·.1 == scope) with
  | none => exact List.mem_cons_self
  | some entry => exact List.mem_cons_of_mem _ (List.mem_map_of_mem (List.mem_of_find?_eq_some h))

theorem allStyles_plain : ∀ style ∈ allStyles, ∀ c ∈ style.toList, c ≠ '<' ∧ c ≠ '>' ∧ c ≠ '"' := by
  have hall : (allStyles.all fun style => style.toList.all fun c => c != '<' && c != '>' && c != '"') = true := by
    decide +kernel
  intro style hstyle c hc
  have hplain := List.all_eq_true.mp (List.all_eq_true.mp hall style hstyle) c hc
  simpa [and_assoc] using hplain

theorem toList_preserve (s : String) : (Html.preserve s).toList = s.toList.flatMap preserveChar := by
  rw [Html.preserve, String.toList_ofList]

theorem render_cases (p : Piece) : p.render.toList = p.text.toList.flatMap preserveChar ∨
    ∃ style ∈ allStyles, p.render.toList =
      (openingTag style).toList ++ (p.text.toList.flatMap preserveChar ++ closingTag.toList) := by
  unfold Piece.render
  split
  · exact Or.inl (toList_preserve _)
  · exact Or.inl (toList_preserve _)
  · rename_i scope _ _
    refine Or.inr ⟨styleOf scope, styleOf_mem scope, ?_⟩
    unfold openingTag closingTag
    rw [String.toList_append, String.toList_append, toList_preserve, List.append_assoc]

theorem intercalate_nil_eq_flatten : ∀ xs : List (List Char), List.intercalate [] xs = xs.flatten
  | [] => rfl
  | [x] => by simp [List.intercalate]
  | x :: y :: rest => by
    have hrest := intercalate_nil_eq_flatten (y :: rest)
    rw [List.intercalate] at hrest ⊢
    rw [List.intersperse_cons_cons, List.flatten_cons, List.flatten_cons, hrest]
    simp

theorem renderAll_toList (ps : List Piece) : (renderAll ps).toList = ps.flatMap (·.render.toList) := by
  rw [renderAll, Text.join, String.toList_intercalate, String.toList_empty, intercalate_nil_eq_flatten, List.map_map,
    List.flatMap_def]
  rfl

/-! ### Without span tags -/

/-- Leaves out span tags; inside one, everything up to its `>`. -/
def dropSpans : (inTag : Bool) → List Char → List Char
  | _, [] => []
  | true, c :: cs => dropSpans (c != '>') cs
  | false, c :: cs =>
    if "<span style=".toList.isPrefixOf (c :: cs) || "</span>".toList.isPrefixOf (c :: cs) then dropSpans true cs
    else c :: dropSpans false cs

/-- A page without its `<span style=...>` and `</span>` tags. -/
def withoutSpans (page : String) : String :=
  String.ofList (dropSpans false page.toList)

theorem dropSpans_cons {c : Char} (hc : c ≠ '<') (cs : List Char) :
    dropSpans false (c :: cs) = c :: dropSpans false cs := by
  have hopen : "<span style=".toList.isPrefixOf (c :: cs) = false := by
    simp [List.isPrefixOf, hc.symm]
  have hclose : "</span>".toList.isPrefixOf (c :: cs) = false := by
    simp [List.isPrefixOf, hc.symm]
  rw [dropSpans, hopen, hclose]
  rfl

theorem dropSpans_append : ∀ {xs : List Char}, '<' ∉ xs → ∀ cs : List Char,
    dropSpans false (xs ++ cs) = xs ++ dropSpans false cs
  | [], _, _ => rfl
  | x :: xs, h, cs => by
    have hx : x ≠ '<' := fun he => h (he ▸ List.mem_cons_self)
    have hxs : '<' ∉ xs := fun he => h (List.mem_cons_of_mem _ he)
    rw [List.cons_append, dropSpans_cons hx, dropSpans_append hxs, List.cons_append]

theorem dropSpans_inTag : ∀ {xs : List Char}, '>' ∉ xs → ∀ cs : List Char,
    dropSpans true (xs ++ '>' :: cs) = dropSpans false cs
  | [], _, cs => by simp [dropSpans]
  | x :: xs, h, cs => by
    have hx : (x != '>') = true := by
      rw [bne_iff_ne]
      exact fun he => h (he ▸ List.mem_cons_self)
    rw [List.cons_append, dropSpans, hx, dropSpans_inTag fun he => h (List.mem_cons_of_mem _ he)]

theorem lt_notMem_escapeChar (c : Char) : '<' ∉ escapeChar c := by
  by_cases hlt : c = '<'
  · rw [hlt]
    decide
  · unfold escapeChar
    split_ifs <;> simp [Ne.symm hlt]

theorem dropSpans_preserveChar (c : Char) (cs : List Char) :
    dropSpans false (preserveChar c ++ cs) = preserveChar c ++ dropSpans false cs := by
  by_cases hbreak : c = '\n'
  · rw [hbreak]
    show dropSpans false ('<' :: 'b' :: 'r' :: '>' :: cs) = '<' :: 'b' :: 'r' :: '>' :: dropSpans false cs
    simp [dropSpans]
  · refine dropSpans_append ?_ cs
    unfold preserveChar
    split_ifs with hspace htab hline
    · decide
    · decide
    · exact absurd (beq_iff_eq.mp hline) hbreak
    · exact lt_notMem_escapeChar c

theorem dropSpans_preserved (cs : List Char) : ∀ xs : List Char,
    dropSpans false (xs.flatMap preserveChar ++ cs) = xs.flatMap preserveChar ++ dropSpans false cs
  | [] => rfl
  | x :: xs => by
    rw [List.flatMap_cons, List.append_assoc, dropSpans_preserveChar, dropSpans_preserved cs xs, List.append_assoc]

theorem dropSpans_openingTag {style : String} (h : style ∈ allStyles) (cs : List Char) :
    dropSpans false ((openingTag style).toList ++ cs) = dropSpans false cs := by
  have hinside : '>' ∉ "span style=\"".toList ++ style.toList ++ ['"'] := by
    have hstyle : '>' ∉ style.toList := fun hmem => (allStyles_plain style h '>' hmem).2.1 rfl
    simpa using hstyle
  have htag : "<span style=".toList.isPrefixOf
      ('<' :: ("span style=\"".toList ++ style.toList ++ ['"'] ++ '>' :: cs)) = true := by
    simp [List.isPrefixOf]
  have hshape : (openingTag style).toList ++ cs =
      '<' :: ("span style=\"".toList ++ style.toList ++ ['"'] ++ '>' :: cs) := by
    rw [toList_openingTag, List.append_assoc]
    rfl
  rw [hshape, dropSpans, htag, Bool.true_or, if_pos rfl, dropSpans_inTag hinside]

theorem dropSpans_closingTag (cs : List Char) : dropSpans false (closingTag.toList ++ cs) = dropSpans false cs := by
  have htag : "</span>".toList.isPrefixOf ('<' :: ("/span".toList ++ '>' :: cs)) = true := by
    simp [List.isPrefixOf]
  have hshape : closingTag.toList ++ cs = '<' :: ("/span".toList ++ '>' :: cs) := by
    rw [toList_closingTag, List.append_assoc]
    rfl
  rw [hshape, dropSpans, htag, Bool.or_true, if_pos rfl, dropSpans_inTag (by simp)]

theorem dropSpans_render (p : Piece) (cs : List Char) :
    dropSpans false (p.render.toList ++ cs) = p.text.toList.flatMap preserveChar ++ dropSpans false cs := by
  rcases render_cases p with hplain | ⟨style, hstyle, hspan⟩
  · rw [hplain, dropSpans_preserved]
  · rw [hspan, List.append_assoc, dropSpans_openingTag hstyle, List.append_assoc, dropSpans_preserved,
      dropSpans_closingTag]

theorem dropSpans_renderAll : ∀ ps : List Piece,
    dropSpans false (renderAll ps).toList = (written ps).flatMap preserveChar
  | [] => by simp [renderAll_toList, dropSpans]
  | p :: ps => by
    have hps := dropSpans_renderAll ps
    rw [renderAll_toList] at hps
    rw [renderAll_toList, List.flatMap_cons, dropSpans_render, hps, written_cons, List.flatMap_append]

/-- **Highlighting loses nothing.** Without its span tags, the page for a document is the document
with its layout kept. -/
theorem withoutSpans_highlight (grammar : Grammar) (content path : String)
    (h : ∀ s ∈ parsed content path, Aligned s.2 (grammar s.1 s.2)) :
    withoutSpans (highlight grammar content path) = Html.preserve content := by
  rw [withoutSpans, highlight, dropSpans_renderAll, written_pieces h, Html.preserve]

/-- A parser whose nodes overlap, run backwards, are empty and come in no order. -/
def tangled : Grammar := fun _ _ =>
  .node ⟨"program", 0, 7, true, none⟩ [
    .node ⟨"integer", 5, 6, true, none⟩ [],
    .node ⟨"comment", 1, 5, true, none⟩ [],
    .node ⟨"variable_name", 1, 4, true, none⟩ [.node ⟨"name", 4, 2, true, none⟩ []],
    .node ⟨"string", 2, 2, true, none⟩ []]

theorem withoutSpans_highlight_tangled :
    (parsed "<?php $é=1;?>ü" "a.PHP" = [("php_only", " $é=1;")] ∧
      ∀ s ∈ parsed "<?php $é=1;?>ü" "a.PHP", Aligned s.2 (tangled s.1 s.2)) ∧
    withoutSpans (highlight tangled "<?php $é=1;?>ü" "a.PHP") = Html.preserve "<?php $é=1;?>ü" := by
  have haligned : ∀ s ∈ parsed "<?php $é=1;?>ü" "a.PHP", Aligned s.2 (tangled s.1 s.2) := by
    decide +kernel
  exact ⟨⟨by decide +kernel, haligned⟩, withoutSpans_highlight tangled "<?php $é=1;?>ü" "a.PHP" haligned⟩

/-! ### Markup -/

def references : List String :=
  ["&amp;", "&lt;", "&gt;", "&quot;", "&#x27;", "&nbsp;"]

/-- The grammar of pages without markup from elsewhere, from a place that is inside a span or not. -/
inductive Markup : (inSpan : Bool) → List Char → Prop
  | done : Markup false []
  | letter {inSpan : Bool} {c : Char} {cs : List Char} : c ∉ ['&', '<', '>', '"', '\''] →
    Markup inSpan cs → Markup inSpan (c :: cs)
  | reference {inSpan : Bool} {name : String} {cs : List Char} : name ∈ references →
    Markup inSpan cs → Markup inSpan (name.toList ++ cs)
  | lineBreak {inSpan : Bool} {cs : List Char} : Markup inSpan cs → Markup inSpan ("<br>".toList ++ cs)
  | opening {style : String} {cs : List Char} : style ∈ allStyles → Markup true cs →
    Markup false ((openingTag style).toList ++ cs)
  | closing {cs : List Char} : Markup false cs → Markup true (closingTag.toList ++ cs)

theorem markup_escapeChar (c : Char) (h : Markup inSpan cs) : Markup inSpan (escapeChar c ++ cs) := by
  unfold escapeChar
  split_ifs with hamp hlt hgt hquot hapos
  · exact .reference (by decide) h
  · exact .reference (by decide) h
  · exact .reference (by decide) h
  · exact .reference (by decide) h
  · exact .reference (by decide) h
  · refine .letter ?_ h
    simp only [beq_iff_eq] at hamp hlt hgt hquot hapos
    simp [hamp, hlt, hgt, hquot, hapos]

theorem markup_preserveChar (c : Char) (h : Markup inSpan cs) : Markup inSpan (preserveChar c ++ cs) := by
  have space : ∀ {cs}, Markup inSpan cs → Markup inSpan ("&nbsp;".toList ++ cs) := fun h =>
    .reference (by decide) h
  unfold preserveChar
  split_ifs with hspace htab hline
  · exact space h
  · exact space (space (space (space h)))
  · exact .lineBreak h
  · exact markup_escapeChar c h

theorem markup_preserved (h : Markup inSpan cs) : ∀ xs : List Char, Markup inSpan (xs.flatMap preserveChar ++ cs)
  | [] => h
  | x :: xs => by
    rw [List.flatMap_cons, List.append_assoc]
    exact markup_preserveChar x (markup_preserved h xs)

theorem markup_render (p : Piece) (h : Markup false cs) : Markup false (p.render.toList ++ cs) := by
  rcases render_cases p with hplain | ⟨style, hstyle, hspan⟩
  · rw [hplain]
    exact markup_preserved h _
  · rw [hspan, List.append_assoc, List.append_assoc]
    exact .opening hstyle (markup_preserved (.closing h) _)

theorem markup_renderAll : ∀ ps : List Piece, Markup false (ps.flatMap (·.render.toList))
  | [] => .done
  | p :: ps => by
    rw [List.flatMap_cons]
    exact markup_render p (markup_renderAll ps)

/-- **A document brings no markup.** The page is made of escaped characters, line breaks and closed
spans that are not nested, and no style has a character that could end its tag. -/
theorem markup_highlight (grammar : Grammar) (content path : String) :
    Markup false (highlight grammar content path).toList ∧
      ∀ style ∈ allStyles, ∀ c ∈ style.toList, c ≠ '<' ∧ c ≠ '>' ∧ c ≠ '"' := by
  refine ⟨?_, allStyles_plain⟩
  rw [highlight, renderAll_toList]
  exact markup_renderAll _

/-! ### Trees that nest -/

/-- All nodes of a tree hold their children, one after the other. -/
def Nested (t : Tree Range) : Prop :=
  ∀ n ∈ t.preorder, (∀ c ∈ n.children, n.label.start ≤ c.label.start ∧ c.label.stop ≤ n.label.stop) ∧
    n.children.Pairwise fun c d => c.label.stop ≤ d.label.start

instance (t : Tree Range) : Decidable (Nested t) :=
  inferInstanceAs (Decidable (∀ n ∈ t.preorder, _ ∧ _))

def Span.Apart (a b : Span) : Prop :=
  a.start < b.start ∧ a.stop ≤ b.start

/-! ### The spans of a tree that nests -/

theorem Nested.of_mem {t n : Tree Range} (h : Nested t) (hn : n ∈ t.preorder) : Nested n :=
  fun m hm => h m (Tree.mem_preorder_trans hn hm)

theorem Nested.within {t n : Tree Range} (h : Nested t) (hn : n ∈ t.preorder) :
    t.label.start ≤ n.label.start ∧ n.label.stop ≤ t.label.stop := by
  induction t using Tree.ind with
  | h r ts ih =>
    rcases Tree.mem_preorder_node.mp hn with rfl | ⟨c, hc, hn⟩
    · exact ⟨Nat.le_refl _, Nat.le_refl _⟩
    · obtain ⟨hstart, hstop⟩ := (h _ (Tree.mem_preorder_self _)).1 c hc
      obtain ⟨hfrom, hto⟩ := ih c hc (h.of_mem (Tree.mem_preorder_of_mem_children hc)) hn
      exact ⟨Nat.le_trans hstart hfrom, Nat.le_trans hto hstop⟩

section Spans

variable {language : String} {source : Array UInt8} {inside : List String} {t : Tree Range} {s : Span}

theorem Nested.range_of_mem_spansIn (h : Nested t) (hs : s ∈ spansIn language source inside t) :
    s.start < s.stop ∧ t.label.start ≤ s.start ∧ s.stop ≤ t.label.stop := by
  obtain ⟨n, hn, _, _, hown⟩ := ownSpan?_of_mem_spansIn hs
  obtain ⟨hforward, hstart, hstop⟩ := ownSpan?_some hown
  obtain ⟨hfrom, hto⟩ := h.within hn
  exact ⟨hforward, hstart ▸ hfrom, hstop ▸ hto⟩

theorem pairwise_spansIn (h : Nested t) : (spansIn language source inside t).Pairwise Span.Apart := by
  induction t using Tree.ind generalizing inside with
  | h r ts ih =>
    have hnested : ∀ c ∈ ts, Nested c := fun c hc => h.of_mem (Tree.mem_preorder_of_mem_children hc)
    rw [spansIn_node]
    split
    · exact List.pairwise_singleton _ _
    · -- spans of different children are as far apart as the children
      refine List.pairwise_flatMap.mpr ⟨fun c hc => ih c hc (hnested c hc), ?_⟩
      refine (h _ (Tree.mem_preorder_self _)).2.imp_of_mem fun {c d} hc hd hcd a ha b hb => ?_
      have hleft := (hnested c hc).range_of_mem_spansIn ha
      have hright := (hnested d hd).range_of_mem_spansIn hb
      exact ⟨by omega, by omega⟩

end Spans

/-! ### No scope is empty -/

theorem ite_ne {α : Type} {c : Prop} [Decidable c] {a b x : α} (ha : a ≠ x) (hb : b ≠ x) : (if c then a else b) ≠ x := by
  by_cases h : c
  · rwa [if_pos h]
  · rwa [if_neg h]

theorem some_ite_ne {α : Type} {c : Prop} [Decidable c] {a b x : α} (ha : a ≠ x) (hb : b ≠ x) :
    some (if c then a else b) ≠ some x :=
  fun h => ite_ne ha hb (Option.some.inj h)

theorem keywordScope?_ne_empty (language text : String) : keywordScope? language text ≠ some "" := by
  unfold keywordScope?
  split
  · decide
  · repeat' apply ite_ne
    all_goals decide

theorem phpNameScope?_ne_empty (p : Place) : phpNameScope? p ≠ some "" := by
  unfold phpNameScope?
  repeat' first | apply some_ite_ne | apply ite_ne
  all_goals decide

theorem languageScope?_ne_empty (language : String) (p : Place) : languageScope? language p ≠ some "" := by
  unfold languageScope? phpScope? pythonScope? javaScope? luaScope? goScope?
  split
  all_goals
    repeat' first | exact phpNameScope?_ne_empty p | apply some_ite_ne | apply ite_ne
    all_goals decide

theorem scopeOf?_ne_empty (language : String) (p : Place) : scopeOf? language p ≠ some "" := by
  unfold scopeOf?
  iterate 9 refine ite_ne (by decide) ?_
  split
  · rename_i scope hscope
    exact hscope ▸ keywordScope?_ne_empty _ _
  · exact languageScope?_ne_empty _ p

theorem scope_of_mem_spansIn {language : String} {source : Array UInt8} {inside : List String} {t : Tree Range}
    {s : Span} (hs : s ∈ spansIn language source inside t) : s.scope ≠ "" := by
  obtain ⟨n, -, kinds, _, hown⟩ := ownSpan?_of_mem_spansIn hs
  have hne := scopeOf?_ne_empty language ⟨Syntax.readRange source n.label, kinds⟩
  unfold ownSpan? at hown
  split at hown
  · rename_i scope hscope
    split_ifs at hown
    rw [← Option.some.inj hown]
    exact fun hempty => hne (hscope.trans (congrArg some hempty))
  · cases hown

/-! ### The page -/

/-- A source from a place on, with all of some spans: each is shown in its style, and what lies
between them as it is. -/
def shownWith (source : Array UInt8) (position : Nat) : List Span → String
  | [] => Html.preserve (textOf source position source.size)
  | s :: rest =>
    Html.preserve (textOf source position s.start) ++
      (openingTag (styleOf s.scope) ++ Html.preserve (textOf source s.start s.stop) ++ closingTag) ++
        shownWith source s.stop rest

theorem renderAll_append (ps qs : List Piece) : renderAll (ps ++ qs) = renderAll ps ++ renderAll qs := by
  apply String.toList_inj.mp
  rw [String.toList_append, renderAll_toList, renderAll_toList, renderAll_toList, List.flatMap_append]

theorem renderAll_cons (p : Piece) (ps : List Piece) : renderAll (p :: ps) = p.render ++ renderAll ps := by
  apply String.toList_inj.mp
  rw [String.toList_append, renderAll_toList, renderAll_toList, List.flatMap_cons]

theorem renderAll_gap (source : Array UInt8) (a b : Nat) :
    renderAll (if a < b then [.plain (textOf source a b)] else []) = Html.preserve (textOf source a b) := by
  by_cases h : a < b
  · rw [if_pos h, renderAll_cons]
    exact String.append_empty
  · have hempty : textOf source a b = "" := by
      rw [textOf, Array.extract_eq_empty_of_le (by omega)]
      rfl
    rw [if_neg h, hempty]
    rfl

theorem render_styled {text scope : String} (h : scope ≠ "") :
    Piece.render ⟨text, some scope⟩ = openingTag (styleOf scope) ++ Html.preserve text ++ closingTag := by
  unfold Piece.render
  split
  · contradiction
  · rename_i hscope
    exact absurd (Option.some.inj hscope) h
  · rename_i hscope
    rw [← Option.some.inj hscope]
    rfl

theorem renderAll_piecesFrom (source : Array UInt8) : ∀ {ss : List Span} {position : Nat},
    (∀ s ∈ ss, position ≤ s.start) → (∀ s ∈ ss, s.scope ≠ "") → ss.Pairwise Span.Apart →
    renderAll (piecesFrom source position ss) = shownWith source position ss
  | [], position, _, _, _ => by
    rw [piecesFrom, shownWith, renderAll_gap]
  | s :: rest, position, hfrom, hscope, hapart => by
    obtain ⟨hafter, hapart⟩ := List.pairwise_cons.mp hapart
    have hrest := renderAll_piecesFrom source (fun r hr => (hafter r hr).2)
      (fun r hr => hscope r (List.mem_cons_of_mem _ hr)) hapart
    rw [piecesFrom, if_neg (Nat.not_lt.mpr (hfrom s List.mem_cons_self)), renderAll_append, renderAll_gap, renderAll_cons,
      render_styled (hscope s List.mem_cons_self), hrest, shownWith, ← String.append_assoc]

theorem mergeSort_before {ss : List Span} (h : ss.Pairwise Span.Apart) : ss.mergeSort Span.before = ss := by
  refine List.mergeSort_of_pairwise (h.imp fun {a b} hab => ?_)
  simp [Span.before, hab.1]

/-- **No highlight is dropped.** In trees that nest, the spans are not empty, strictly increase and do
not overlap, and the page shows each of them once, in its style, and all bytes between them without
one. -/
theorem renderAll_treePieces (language : String) (source : Array UInt8) (t : Tree Range) (h : Nested t) :
    (∀ s ∈ spansIn language source [] t, s.start < s.stop) ∧
      (spansIn language source [] t).Pairwise Span.Apart ∧
      renderAll (treePieces language source t) = shownWith source 0 (spansIn language source [] t) := by
  have hapart : (spansIn language source [] t).Pairwise Span.Apart := pairwise_spansIn h
  refine ⟨fun s hs => (h.range_of_mem_spansIn hs).1, hapart, ?_⟩
  have hpieces : treePieces language source t = piecesFrom source 0 (spansIn language source [] t) :=
    congrArg (piecesFrom source 0) (mergeSort_before hapart)
  rw [hpieces]
  exact renderAll_piecesFrom source (fun _ _ => Nat.zero_le _) (fun _ hs => scope_of_mem_spansIn hs) hapart

/-- The tree of `$a='é';/*c*/`. -/
def assignmentTree : Tree Range :=
  .node ⟨"program", 0, 13, true, none⟩ [
    .node ⟨"assignment_expression", 0, 7, true, none⟩ [
      .node ⟨"variable_name", 0, 2, true, none⟩ [.node ⟨"$", 0, 1, false, none⟩ [], .node ⟨"name", 1, 2, true, none⟩ []],
      .node ⟨"=", 2, 3, false, none⟩ [],
      .node ⟨"string", 3, 7, true, none⟩ [.node ⟨"string_content", 4, 6, true, none⟩ []]],
    .node ⟨";", 7, 8, false, none⟩ [],
    .node ⟨"comment", 8, 13, true, none⟩ [.node ⟨"/*", 8, 10, false, none⟩ []]]

theorem renderAll_treePieces_assignment :
    (Nested assignmentTree ∧
      spansIn "php" (Utf8.encode "$a='é';/*c*/").toArray [] assignmentTree =
        [⟨0, 1, "punctuation"⟩, ⟨1, 2, "variable.other.php"⟩, ⟨2, 3, "operator"⟩, ⟨4, 6, "string"⟩,
          ⟨7, 8, "punctuation"⟩, ⟨8, 13, "comment"⟩]) ∧
    renderAll (treePieces "php" (Utf8.encode "$a='é';/*c*/").toArray assignmentTree) =
      shownWith (Utf8.encode "$a='é';/*c*/").toArray 0
        (spansIn "php" (Utf8.encode "$a='é';/*c*/").toArray [] assignmentTree) := by
  have hnested : Nested assignmentTree := by decide +kernel
  exact ⟨⟨hnested, by decide +kernel⟩, (renderAll_treePieces "php" _ assignmentTree hnested).2.2⟩

end SourceAudit.Highlight
