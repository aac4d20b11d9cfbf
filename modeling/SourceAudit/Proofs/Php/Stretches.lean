/-
# Code and what lies outside it

A stretch of code starts after an opening tag and ends at the next closing tag after
that, or with the file (`closing`). So the stretches of a file start one after the
other, and two of them that overlap end together (`Stretched`): tags may stand inside
code, and stretches may be empty or share their end, but no stretch ends before an
earlier one. That is why it is enough to remember how far the last stretch went. What is
marked as outside is the complement of the code (`covered_gapsFrom_iff`, `outside_iff`).
-/
import Mathlib.Data.List.Basic
import Mathlib.Tactic.Common
import SourceAudit.Rules.Rule

namespace SourceAudit.Php

variable {c : Nat × Nat} {x : Span} {size pos : Nat} {xs : List Span}

variable {content : List Char} {s t p : Nat} {codes : List (Nat × Nat)}

/-! ### Where code ends -/

/-- Where code that starts at a place ends: at the next closing tag, or with the file. -/
def closing (content : List Char) (start : Nat) : Nat :=
  (Text.indexFrom ['?', '>'] start (content.drop start)).getD content.length

theorem closing_of_length_le (h : content.length ≤ s) : closing content s = content.length := by
  rw [closing, List.drop_eq_nil_of_le h]
  rfl

theorem closing_step (h : s < content.length) :
    closing content s = s ∨ closing content s = closing content (s + 1) := by
  unfold closing
  rw [List.drop_eq_getElem_cons h, Text.indexFrom]
  split
  · exact Or.inl rfl
  · exact Or.inr rfl

theorem closing_bounds (h : s ≤ content.length) : s ≤ closing content s ∧ closing content s ≤ content.length := by
  induction hn : content.length - s generalizing s with
  | zero =>
    have hend : closing content s = content.length := closing_of_length_le (by omega)
    omega
  | succ n ih =>
    have hlater := ih (show s + 1 ≤ content.length by omega) (by omega)
    rcases closing_step (show s < content.length by omega) with heq | heq <;> omega

theorem closing_eq_of_le (hs : s ≤ content.length) (hst : s ≤ t) (ht : t ≤ closing content s) :
    closing content t = closing content s := by
  induction hn : t - s generalizing s with
  | zero =>
    have heq : t = s := by omega
    rw [heq]
  | succ n ih =>
    have hbounds := closing_bounds hs
    rcases closing_step (show s < content.length by omega) with heq | heq
    · omega
    · rw [heq]
      exact ih (by omega) (by omega) (by omega) (by omega)

theorem closing_mono (hst : s ≤ t) (ht : t ≤ content.length) : closing content s ≤ closing content t := by
  by_cases h : t ≤ closing content s
  · exact Nat.le_of_eq (closing_eq_of_le (by omega) hst h).symm
  · have hbounds := closing_bounds ht
    omega

/-! ### The stretches of a file -/

/-- Stretches of code that start one after the other, each up to the next closing tag. -/
structure Stretched (content : List Char) (codes : List (Nat × Nat)) : Prop where
  starts : codes.Pairwise (·.1 < ·.1)
  stops : ∀ c ∈ codes, c.1 ≤ content.length ∧ c.2 = closing content c.1

theorem Stretched.sublist {codes' : List (Nat × Nat)} (h : Stretched content codes) (hsub : codes'.Sublist codes) :
    Stretched content codes' :=
  ⟨h.starts.sublist hsub, fun c hc => h.stops c (hsub.subset hc)⟩

theorem Stretched.of_cons (h : Stretched content (c :: codes)) : Stretched content codes :=
  h.sublist (List.sublist_cons_self c codes)

theorem Stretched.bounds (h : Stretched content codes) (hc : c ∈ codes) : c.1 ≤ c.2 ∧ c.2 ≤ content.length := by
  obtain ⟨hle, heq⟩ := h.stops c hc
  rw [heq]
  exact closing_bounds hle

theorem Stretched.stop_le {d : Nat × Nat} (h : Stretched content codes) (hc : c ∈ codes) (hd : d ∈ codes)
    (hcd : c.1 < d.1) : c.2 ≤ d.2 := by
  rw [(h.stops c hc).2, (h.stops d hd).2]
  exact closing_mono (Nat.le_of_lt hcd) (h.stops d hd).1

theorem Stretched.first_stop_le (h : Stretched content (c :: codes)) : ∀ d ∈ codes, c.2 ≤ d.2 :=
  fun _ hd => h.stop_le List.mem_cons_self (List.mem_cons_of_mem _ hd) (List.rel_of_pairwise_cons h.starts hd)

theorem Stretched.stop_eq {d : Nat × Nat} (h : Stretched content codes) (hc : c ∈ codes) (hd : d ∈ codes)
    (hcd : c.1 < d.1) (hin : d.1 < c.2) : d.2 = c.2 := by
  have hstop := (h.stops c hc).2
  rw [hstop, (h.stops d hd).2]
  exact closing_eq_of_le (h.stops c hc).1 (Nat.le_of_lt hcd) (by omega)

/-- What starts in the rest of a file, after the tag that is still to be passed over. -/
theorem stretched_codeSpansFrom : ∀ (cs : List Char) (pos skip : Nat), content.drop pos = cs →
    Stretched content (codeSpansFrom pos skip cs) ∧ ∀ c ∈ codeSpansFrom pos skip cs, pos + skip < c.1
  | [], pos, skip, _ => by
    rw [codeSpansFrom]
    exact ⟨⟨.nil, by simp⟩, by simp⟩
  | c :: cs, pos, skip, hcs => by
    have hrest : content.drop (pos + 1) = cs := by
      rw [← List.drop_drop, hcs, List.drop_succ_cons, List.drop_zero]
    have hlength : content.length = pos + (cs.length + 1) := by
      have h := congrArg List.length hcs
      rw [List.length_drop, List.length_cons] at h
      omega
    cases skip with
    | succ skip =>
      obtain ⟨hall, hlater⟩ := stretched_codeSpansFrom cs (pos + 1) skip hrest
      rw [codeSpansFrom]
      exact ⟨hall, fun d hd => by have := hlater d hd; omega⟩
    | zero =>
      rw [codeSpansFrom]
      split
      · obtain ⟨hall, hlater⟩ := stretched_codeSpansFrom cs (pos + 1) 0 hrest
        exact ⟨hall, fun d hd => by have := hlater d hd; omega⟩
      · rename_i n htag
        obtain ⟨htwo, hn⟩ := tagLength?_bounds htag
        rw [List.length_cons] at hn
        obtain ⟨hall, hlater⟩ := stretched_codeSpansFrom cs (pos + 1) (n - 1) hrest
        have hcode : (c :: cs).drop n = content.drop (pos + n) := by rw [← hcs, List.drop_drop]
        have hsize : pos + n + (content.drop (pos + n)).length = content.length := by
          rw [List.length_drop]
          omega
        dsimp only
        rw [hcode, hsize, ← closing]
        refine ⟨⟨List.pairwise_cons.mpr ⟨fun d hd => ?_, hall.starts⟩, fun d hd => ?_⟩, fun d hd => ?_⟩
        · have := hlater d hd
          dsimp only
          omega
        · rcases List.mem_cons.mp hd with rfl | hd
          · exact ⟨by dsimp only; omega, rfl⟩
          · exact hall.stops d hd
        · rcases List.mem_cons.mp hd with rfl | hd
          · dsimp only
            omega
          · have := hlater d hd
            omega

theorem stretched_codeSpans (content : List Char) : Stretched content (codeSpans content) :=
  (stretched_codeSpansFrom content 0 0 rfl).1

def Covered (codes : List (Nat × Nat)) (p : Nat) : Prop :=
  ∃ c ∈ codes, c.1 ≤ p ∧ p < c.2

def InCode (content : List Char) (p : Nat) : Prop :=
  Covered (codeSpans content) p

instance (content : List Char) (p : Nat) : Decidable (InCode content p) :=
  inferInstanceAs (Decidable (∃ c ∈ codeSpans content, c.1 ≤ p ∧ p < c.2))

theorem InCode.lt_length (h : InCode content p) : p < content.length := by
  obtain ⟨c, hc, -, hlt⟩ := h
  have hbounds := (stretched_codeSpans content).bounds hc
  omega

/-! ### Spans in order -/

theorem covers_iff {p : Nat} : x.covers p = true ↔ x.start ≤ p ∧ p < x.stop := by
  rw [Span.covers, Bool.and_eq_true, decide_eq_true_iff, decide_eq_true_iff]

/-- Spans that are not empty and lie one after the other, from `pos` up to `size`. -/
inductive Lined (size : Nat) : (pos : Nat) → List Span → Prop
  | nil {pos : Nat} : Lined size pos []
  | cons {pos : Nat} {x : Span} {rest : List Span} : pos ≤ x.start → x.start < x.stop → x.stop ≤ size →
    Lined size x.stop rest → Lined size pos (x :: rest)

theorem Lined.mono {pos' : Nat} (h : Lined size pos xs) (hle : pos' ≤ pos) : Lined size pos' xs := by
  cases h with
  | nil => exact .nil
  | cons hstart hlt hstop hrest => exact .cons (Nat.le_trans hle hstart) hlt hstop hrest

theorem Lined.bounds (h : Lined size pos xs) : ∀ x ∈ xs, pos ≤ x.start ∧ x.start < x.stop ∧ x.stop ≤ size := by
  induction h with
  | nil => simp
  | cons hstart hlt hstop _ ih =>
    refine List.forall_mem_cons.mpr ⟨⟨hstart, hlt, hstop⟩, fun x hx => ?_⟩
    have hx := ih x hx
    omega

theorem Lined.pairwise (h : Lined size pos xs) : xs.Pairwise fun a b => a.stop ≤ b.start := by
  induction h with
  | nil => exact .nil
  | cons _ _ _ hrest ih => exact List.pairwise_cons.mpr ⟨fun x hx => (hrest.bounds x hx).1, ih⟩

/-! ### What lies between stretches -/

/-- The gaps that stretches leave, after `reached`. -/
def gapsFrom (size reached : Nat) : List (Nat × Nat) → List Span
  | [] => if reached < size then [⟨reached, size, .outside⟩] else []
  | code :: rest =>
    (if reached < code.1 then [⟨reached, code.1, .outside⟩] else []) ++ gapsFrom size code.2 rest

theorem mem_gap {lo hi : Nat} (h : x ∈ if lo < hi then [⟨lo, hi, .outside⟩] else []) :
    lo < hi ∧ x = ⟨lo, hi, .outside⟩ := by
  split at h
  · exact ⟨‹_›, List.mem_singleton.mp h⟩
  · exact absurd h List.not_mem_nil

theorem lined_gapsFrom : ∀ {codes : List (Nat × Nat)} {reached : Nat}, Stretched content codes →
    (∀ c ∈ codes, reached ≤ c.2) → Lined content.length reached (gapsFrom content.length reached codes)
  | [], reached, _, _ => by
    rw [gapsFrom]
    split
    · exact .cons (Nat.le_refl _) ‹_› (Nat.le_refl _) .nil
    · exact .nil
  | code :: rest, reached, hcodes, hreached => by
    have hbounds := hcodes.bounds List.mem_cons_self
    have hrest := lined_gapsFrom hcodes.of_cons hcodes.first_stop_le
    rw [gapsFrom]
    split
    · exact .cons (Nat.le_refl _) ‹_› (by dsimp only; omega) (hrest.mono hbounds.1)
    · exact hrest.mono (hreached code List.mem_cons_self)

/-- **The gaps are the complement of the stretches.** The end of the last stretch is all that has to
be remembered, since a later stretch does not end earlier. -/
theorem covered_gapsFrom_iff : ∀ {codes : List (Nat × Nat)} {reached : Nat}, Stretched content codes →
    (∀ c ∈ codes, reached ≤ c.2) → reached ≤ p → p < content.length →
    ((∃ x ∈ gapsFrom content.length reached codes, x.covers p = true) ↔ ∀ c ∈ codes, ¬(c.1 ≤ p ∧ p < c.2))
  | [], reached, _, _, hp, hlt => by
    simp only [gapsFrom, if_pos (Nat.lt_of_le_of_lt hp hlt), List.mem_singleton, exists_eq_left, Span.covers,
      Bool.and_eq_true, decide_eq_true_eq, hp, hlt, List.not_mem_nil, false_implies, implies_true, and_self]
  | code :: rest, reached, hcodes, hreached, hp, hlt => by
    have hbounds := hcodes.bounds List.mem_cons_self
    rw [List.forall_mem_cons, gapsFrom]
    by_cases hbefore : p < code.1
    · -- before the stretch: in the gap in front of it, and in no stretch
      refine iff_of_true ⟨⟨reached, code.1, .outside⟩, ?_, ?_⟩ ⟨by omega, fun d hd => ?_⟩
      · rw [if_pos (by omega)]
        exact List.mem_append_left _ List.mem_cons_self
      · exact covers_iff.mpr ⟨hp, hbefore⟩
      · have hstart := List.rel_of_pairwise_cons hcodes.starts hd
        omega
    · have hfirst : ∀ x ∈ (if reached < code.1 then [⟨reached, code.1, .outside⟩] else [] : List Span),
          x.covers p = false := by
        intro x hx
        obtain ⟨-, rfl⟩ := mem_gap hx
        simp only [Span.covers, hbefore, decide_false, Bool.and_false]
      by_cases hin : p < code.2
      · -- inside the stretch: the gaps after it start too late
        refine iff_of_false ?_ fun h => h.1 ⟨by omega, hin⟩
        rintro ⟨x, hx, hcovers⟩
        rcases List.mem_append.mp hx with hx | hx
        · exact absurd hcovers (by rw [hfirst x hx]; simp)
        · have hx := (lined_gapsFrom hcodes.of_cons hcodes.first_stop_le).bounds x hx
          rw [covers_iff] at hcovers
          omega
      · rw [← covered_gapsFrom_iff hcodes.of_cons hcodes.first_stop_le (by omega) hlt, and_iff_right (by omega)]
        refine exists_congr fun x => ?_
        rw [List.mem_append]
        constructor
        · rintro ⟨hx | hx, hcovers⟩
          · exact absurd hcovers (by rw [hfirst x hx]; simp)
          · exact ⟨hx, hcovers⟩
        · exact fun ⟨hx, hcovers⟩ => ⟨Or.inr hx, hcovers⟩

/-! ### The spans of a file -/

theorem context_ne_outside : ∀ (cs : List Char) (pos : Nat) (mode : Reading) (skip : Nat),
    ∀ x ∈ literalSpansFrom pos mode skip cs, x.context ≠ .outside := by
  intro cs pos mode skip
  fun_induction literalSpansFrom pos mode skip cs <;> simp_all

theorem filter_outside_contextSpansFrom (size : Nat) : ∀ (codes : List (Nat × Nat)) (reached : Nat),
    (contextSpansFrom content size reached codes).filter (·.context == .outside) = gapsFrom size reached codes
  | [], reached => by
    rw [contextSpansFrom, gapsFrom]
    split <;> rfl
  | code :: rest, reached => by
    have hliterals : (literalSpans content code).filter (·.context == .outside) = [] :=
      List.filter_eq_nil_iff.mpr fun x hx => by simpa using context_ne_outside _ _ _ _ x hx
    rw [contextSpansFrom, gapsFrom, List.filter_append, List.filter_append, hliterals, List.nil_append,
      filter_outside_contextSpansFrom size rest]
    split <;> rfl

def outsideSpans (content : List Char) : List Span :=
  (contextSpans content).filter (·.context == .outside)

/-- Between stretches the spans outside are the gaps. A file without code is one span, also an empty one. -/
theorem outsideSpans_eq (content : List Char) : outsideSpans content =
    if codeSpans content = [] then [⟨0, content.length, .outside⟩]
    else gapsFrom content.length 0 (codeSpans content) := by
  rw [outsideSpans, contextSpans]
  split
  · rename_i hnone
    rw [if_pos hnone]
    rfl
  · rename_i hsome
    rw [if_neg hsome]
    exact filter_outside_contextSpansFrom _ _ _

theorem outsideSpans_bounds (hx : x ∈ outsideSpans content) : x.start ≤ x.stop ∧ x.stop ≤ content.length := by
  rw [outsideSpans_eq] at hx
  split at hx
  · rw [List.mem_singleton.mp hx]
    exact ⟨Nat.zero_le _, Nat.le_refl _⟩
  · have hbounds := (lined_gapsFrom (stretched_codeSpans content) fun _ _ => Nat.zero_le _).bounds x hx
    omega

theorem outsideSpans_inOrder (content : List Char) :
    (outsideSpans content).Pairwise fun a b => a.start < b.start ∧ a.stop ≤ b.start := by
  rw [outsideSpans_eq]
  split
  · exact List.pairwise_singleton _ _
  · have hlined := lined_gapsFrom (stretched_codeSpans content) fun _ _ => Nat.zero_le _
    refine hlined.pairwise.imp_of_mem fun {a b} ha _ hle => ?_
    have hbounds := hlined.bounds a ha
    omega

theorem outside_iff (hp : p < content.length) :
    (∃ x ∈ outsideSpans content, x.covers p = true) ↔ ¬InCode content p := by
  have hcode : ¬InCode content p ↔ ∀ c ∈ codeSpans content, ¬(c.1 ≤ p ∧ p < c.2) := by
    simp only [InCode, Covered, not_exists, not_and]
  rw [hcode, outsideSpans_eq]
  split
  · rename_i hnone
    simp [hnone, Span.covers, hp]
  · exact covered_gapsFrom_iff (stretched_codeSpans content) (fun _ _ => Nat.zero_le _) (Nat.zero_le p) hp

theorem any_outside (hp : p < content.length) :
    ((contextSpans content).any fun x => x.covers p && x.context == .outside) = decide (¬InCode content p) := by
  rw [Bool.eq_iff_iff, decide_eq_true_iff, ← outside_iff hp, List.any_eq_true]
  refine exists_congr fun x => ?_
  rw [outsideSpans, List.mem_filter, Bool.and_eq_true, and_assoc]
  exact and_congr_right fun _ => and_comm

/-- **What is marked as outside is the complement of the code**, in order and without overlaps. So a
rule that is not for the full file and leaves out nothing else skips these places and no others. -/
theorem outside_complement (content : List Char) :
    (∀ x ∈ outsideSpans content, x.start ≤ x.stop ∧ x.stop ≤ content.length) ∧
    ((outsideSpans content).Pairwise fun a b => a.start < b.start ∧ a.stop ≤ b.start) ∧
    (∀ p < content.length, (∃ x ∈ outsideSpans content, x.covers p = true) ↔ ¬InCode content p) ∧
    ∀ r : Rule, r.fullFile = false → r.skipContexts.truthy = false → ∀ p < content.length,
      Rule.skips r.fullFile r.skipContexts (contextSpans content) p = .ok (decide (¬InCode content p)) := by
  refine ⟨fun x => outsideSpans_bounds, outsideSpans_inOrder content, fun p => outside_iff, ?_⟩
  intro r hfull hnone p hp
  rw [Rule.skips, hfull, any_outside hp, hnone]
  by_cases hcode : InCode content p <;> simp [hcode]

/-- A tag that takes the question mark of a closing tag: the place between the two stretches is outside. -/
theorem outside_complement_straddled :
    outsideSpans "a<?b<?>c?>d".toList = [⟨0, 3, .outside⟩, ⟨5, 6, .outside⟩, ⟨8, 11, .outside⟩] ∧
      Rule.skips false (.list []) (contextSpans "a<?b<?>c?>d".toList) 5 = .ok true :=
  ⟨by decide, (outside_complement _).2.2.2 (.ofValue (.object [])) rfl rfl 5 (by decide)⟩

end SourceAudit.Php
