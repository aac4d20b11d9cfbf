/-
# Strings and comments, read once or again

The strings and comments of a stretch of code lie in order inside it (`lined_of_plain`).
But every stretch is read on its own, from plain code on, also one that starts inside
another. If such a second reading finds anything at all, it finds something that
overlaps what the first reading found (`overlap_of_two_readings`): either the first
reading is inside a string or comment at that place, or both are in plain code and agree
from there on.

A region of code is what overlapping stretches make together (`regions`). The strings
and comments of a file are those of its regions, each read once, just if the stretches
that start inside others hold none (`Settled`).

Outside of strings and comments there is no quote and no `#`, since in plain code each
of these opens a string or a comment (`exists_covering_opens`).
-/
import Mathlib.Data.List.Flatten
import Mathlib.Data.List.Pairwise
import SourceAudit.Proofs.Php.Stretches

namespace SourceAudit.Php

variable {c : Char} {a : Span} {cs : List Char}

variable {content : List Char} {pos skip s : Nat} {mode : Reading}

/-! ### One step of a reading -/

/-- Where the string or comment that is being read has started. -/
def Reading.start? : Reading → Option Nat
  | .plain => none
  | .quoted _ start | .lineComment start | .blockComment start => some start

theorem literalSpansFrom_skip (pos : Nat) (mode : Reading) (skip : Nat) (c : Char) (cs : List Char) :
    literalSpansFrom pos mode (skip + 1) (c :: cs) = literalSpansFrom (pos + 1) mode skip cs := by
  cases mode <;> rw [literalSpansFrom]

theorem plain_step (pos : Nat) (c : Char) (cs : List Char) :
    literalSpansFrom pos .plain 0 (c :: cs) = literalSpansFrom (pos + 1) .plain 0 cs ∨
    c ≠ '\n' ∧ ∃ mode skip, mode.start? = some pos ∧
      literalSpansFrom pos .plain 0 (c :: cs) = literalSpansFrom (pos + 1) mode skip cs := by
  rw [literalSpansFrom]
  by_cases hquote : isQuote c = true
  · rw [if_pos hquote]
    refine Or.inr ⟨?_, .quoted c pos, 0, rfl, rfl⟩
    rintro rfl
    exact absurd hquote (by decide)
  rw [if_neg hquote]
  split_ifs with hline hhash hblock
  · simp only [Bool.and_eq_true, beq_iff_eq] at hline
    exact Or.inr ⟨by rw [hline.1]; decide, .lineComment pos, 1, rfl, rfl⟩
  · exact Or.inr ⟨by rw [beq_iff_eq.mp hhash]; decide, .lineComment pos, 0, rfl, rfl⟩
  · simp only [Bool.and_eq_true, beq_iff_eq] at hblock
    exact Or.inr ⟨by rw [hblock.1]; decide, .blockComment pos, 1, rfl, rfl⟩
  · exact Or.inl rfl

/-- Inside a string or comment it goes on, or it is closed: with the character, before the line feed,
or with the character after this one. -/
theorem inside_step (hmode : mode.start? = some s) (pos skip : Nat) (c : Char) (cs : List Char) :
    (∃ left, literalSpansFrom pos mode skip (c :: cs) = literalSpansFrom (pos + 1) mode left cs) ∨
    (∃ k, literalSpansFrom pos mode skip (c :: cs) = ⟨s, pos + 1, k⟩ :: literalSpansFrom (pos + 1) .plain 0 cs) ∨
    (c = '\n' ∧ ∃ k, literalSpansFrom pos mode skip (c :: cs) = ⟨s, pos, k⟩ :: literalSpansFrom (pos + 1) .plain 0 cs) ∨
    ∃ k d rest, cs = d :: rest ∧
      literalSpansFrom pos mode skip (c :: cs) = ⟨s, pos + 2, k⟩ :: literalSpansFrom (pos + 2) .plain 0 rest := by
  rcases skip with _ | left
  case succ => exact Or.inl ⟨left, literalSpansFrom_skip ..⟩
  cases mode with
  | plain => exact absurd hmode (by simp [Reading.start?])
  | quoted quote start =>
    rw [← Option.some.inj hmode, literalSpansFrom]
    split_ifs
    · exact Or.inl ⟨1, rfl⟩
    · exact Or.inr (Or.inl ⟨.string, rfl⟩)
    · exact Or.inl ⟨0, rfl⟩
  | lineComment start =>
    rw [← Option.some.inj hmode, literalSpansFrom]
    split_ifs with hend
    · exact Or.inr (Or.inr (Or.inl ⟨beq_iff_eq.mp hend, .comment, rfl⟩))
    · exact Or.inl ⟨0, rfl⟩
  | blockComment start =>
    rw [← Option.some.inj hmode, literalSpansFrom]
    split_ifs with hend
    · simp only [Bool.and_eq_true, beq_iff_eq] at hend
      obtain ⟨rest, rfl⟩ := List.head?_eq_some_iff.mp hend.2
      exact Or.inr (Or.inr (Or.inr ⟨.comment, '/', rest, rfl, by rw [literalSpansFrom_skip]⟩))
    · exact Or.inl ⟨0, rfl⟩

theorem inside_end (hmode : mode.start? = some s) (pos skip : Nat) :
    ∃ k, literalSpansFrom pos mode skip [] = [⟨s, pos, k⟩] := by
  cases mode with
  | plain => exact absurd hmode (by simp [Reading.start?])
  | quoted _ _ => exact ⟨.string, by rw [← Option.some.inj hmode, literalSpansFrom]⟩
  | lineComment _ => exact ⟨.comment, by rw [← Option.some.inj hmode, literalSpansFrom]⟩
  | blockComment _ => exact ⟨.comment, by rw [← Option.some.inj hmode, literalSpansFrom]⟩

/-! ### The spans of one reading -/

/-- The spans of a reading lie one after the other, from the place of the reader or the start of what
is being read. -/
theorem lined_literalSpansFrom (cs : List Char) : ∀ (pos : Nat),
    Lined (pos + cs.length) pos (literalSpansFrom pos .plain 0 cs) ∧
    ∀ (mode : Reading) (skip s : Nat), mode.start? = some s → s < pos →
      Lined (pos + cs.length) s (literalSpansFrom pos mode skip cs) := by
  induction hn : cs.length using Nat.strongRecOn generalizing cs with
  | ind n ih =>
    subst hn
    intro pos
    cases cs with
    | nil =>
      refine ⟨by rw [literalSpansFrom]; exact .nil, fun mode skip s hmode hs => ?_⟩
      obtain ⟨k, hk⟩ := inside_end hmode pos skip
      rw [hk]
      exact .cons (Nat.le_refl _) hs (Nat.le_refl _) .nil
    | cons c cs =>
      obtain ⟨hplain, hinside⟩ := ih cs.length (by simp) cs rfl (pos + 1)
      have hsize : pos + (c :: cs).length = pos + 1 + cs.length := by rw [List.length_cons]; omega
      rw [hsize]
      refine ⟨?_, fun mode skip s hmode hs => ?_⟩
      · rcases plain_step pos c cs with heq | ⟨-, mode, skip, hmode, heq⟩
        · rw [heq]
          exact hplain.mono (by omega)
        · rw [heq]
          exact hinside mode skip pos hmode (by omega)
      · rcases inside_step hmode pos skip c cs with ⟨left, heq⟩ | ⟨k, heq⟩ | ⟨-, k, heq⟩ | ⟨k, d, rest, rfl, heq⟩ <;> rw [heq]
        · exact hinside mode left s hmode (by omega)
        · exact .cons (Nat.le_refl _) (by dsimp only; omega) (by dsimp only; omega) hplain
        · exact .cons (Nat.le_refl _) hs (by dsimp only; omega) (hplain.mono (by dsimp only; omega))
        · have hrest := (ih rest.length (by simp only [List.length_cons]; omega) rest rfl (pos + 2)).1
          rw [List.length_cons]
          refine .cons (Nat.le_refl _) (by dsimp only; omega) (by dsimp only; omega) ?_
          rwa [show pos + 1 + (rest.length + 1) = pos + 2 + rest.length by omega]

theorem lined_of_plain (pos : Nat) (cs : List Char) :
    Lined (pos + cs.length) pos (literalSpansFrom pos .plain 0 cs) :=
  (lined_literalSpansFrom cs pos).1

/-- What is being read becomes a span that reaches at least the place of the reader. -/
theorem exists_started (cs : List Char) : ∀ (pos skip : Nat) {mode : Reading}, mode.start? = some s →
    ∃ x ∈ literalSpansFrom pos mode skip cs, x.start = s ∧ pos ≤ x.stop := by
  induction cs with
  | nil =>
    intro pos skip mode hmode
    obtain ⟨k, hk⟩ := inside_end hmode pos skip
    rw [hk]
    exact ⟨_, List.mem_cons_self, rfl, Nat.le_refl _⟩
  | cons c cs ih =>
    intro pos skip mode hmode
    rcases inside_step hmode pos skip c cs with ⟨left, heq⟩ | ⟨k, heq⟩ | ⟨-, k, heq⟩ | ⟨k, d, rest, rfl, heq⟩ <;> rw [heq]
    · obtain ⟨x, hx, hstart, hstop⟩ := ih (pos + 1) left hmode
      exact ⟨x, hx, hstart, by omega⟩
    · exact ⟨_, List.mem_cons_self, rfl, by dsimp only; omega⟩
    · exact ⟨_, List.mem_cons_self, rfl, Nat.le_refl _⟩
    · exact ⟨_, List.mem_cons_self, rfl, by dsimp only; omega⟩

/-! ### Two readings -/

def Overlap (a b : Span) : Prop :=
  ∃ p, a.covers p = true ∧ b.covers p = true

theorem Overlap.symm {b : Span} (h : Overlap a b) : Overlap b a := by
  obtain ⟨p, ha, hb⟩ := h
  exact ⟨p, hb, ha⟩

theorem not_overlap_of_le {b : Span} (h : a.stop ≤ b.start) : ¬Overlap a b := by
  rintro ⟨p, ha, hb⟩
  rw [covers_iff] at ha hb
  omega

theorem overlap_self (h : a.start < a.stop) : Overlap a a :=
  ⟨a.start, covers_iff.mpr ⟨Nat.le_refl _, h⟩, covers_iff.mpr ⟨Nat.le_refl _, h⟩⟩

/-- Some span of one list shares a place with one of another. -/
def Meet (xs ys : List Span) : Prop :=
  ∃ a ∈ xs, ∃ b ∈ ys, Overlap a b

theorem Meet.cons {x : Span} {xs ys : List Span} (h : Meet xs ys) : Meet (x :: xs) ys := by
  obtain ⟨a, ha, hb⟩ := h
  exact ⟨a, List.mem_cons_of_mem _ ha, hb⟩

theorem meet_self (h : literalSpansFrom pos .plain 0 cs ≠ []) :
    Meet (literalSpansFrom pos .plain 0 cs) (literalSpansFrom pos .plain 0 cs) := by
  obtain ⟨a, ha⟩ := List.exists_mem_of_ne_nil _ h
  exact ⟨a, ha, a, ha, overlap_self ((lined_of_plain pos cs).bounds a ha).2.1⟩

/-- One reading has closed something that reaches over a place, and is in plain code right after it. A
reading from that place on opens something there, or agrees with the first one. -/
theorem meet_closed {x : Span} (hx : x.covers pos = true) (h : literalSpansFrom pos .plain 0 (c :: cs) ≠ []) :
    Meet (x :: literalSpansFrom (pos + 1) .plain 0 cs) (literalSpansFrom pos .plain 0 (c :: cs)) := by
  rcases plain_step pos c cs with heq | ⟨-, mode, skip, hmode, heq⟩
  · rw [heq] at h ⊢
    exact (meet_self h).cons
  · obtain ⟨b, hb, hstart, hstop⟩ := exists_started cs (pos + 1) skip hmode
    rw [heq]
    exact ⟨x, List.mem_cons_self, b, hb, pos, hx, covers_iff.mpr ⟨by omega, hstop⟩⟩

/-- What is being read reaches over the place of the reader, unless a line feed stands there. -/
theorem exists_covering (hmode : mode.start? = some s) (hs : s ≤ pos) (hc : c ≠ '\n') :
    ∃ x ∈ literalSpansFrom pos mode skip (c :: cs), x.covers pos = true := by
  have hcloses : ∀ n k, (⟨s, pos + (n + 1), k⟩ : Span).covers pos = true :=
    fun n k => covers_iff.mpr ⟨hs, by dsimp only; omega⟩
  rcases inside_step hmode pos skip c cs with ⟨left, heq⟩ | ⟨k, heq⟩ | ⟨hfeed, -⟩ | ⟨k, d, rest, rfl, heq⟩
  · obtain ⟨x, hx, hstart, hstop⟩ := exists_started cs (pos + 1) left hmode
    exact ⟨x, heq ▸ hx, covers_iff.mpr (by omega)⟩
  · exact ⟨_, heq ▸ List.mem_cons_self, hcloses 0 k⟩
  · exact absurd hfeed hc
  · exact ⟨_, heq ▸ List.mem_cons_self, hcloses 1 k⟩

/-- A reading that starts inside a string or comment of another one meets it, if it finds anything. -/
theorem meet_of_inside (cs : List Char) : ∀ {pos skip : Nat} {mode : Reading}, mode.start? = some s → s ≤ pos →
    literalSpansFrom pos .plain 0 cs ≠ [] →
    Meet (literalSpansFrom pos mode skip cs) (literalSpansFrom pos .plain 0 cs) := by
  induction cs with
  | nil => intro pos skip mode _ _ h; exact absurd (by rw [literalSpansFrom]) h
  | cons c cs ih =>
    intro pos skip mode hmode hs h
    rcases plain_step pos c cs with hplain | ⟨hc, other, skip', hother, hplain⟩
    · -- nothing opens here, and both go on
      rw [hplain] at h ⊢
      rcases inside_step hmode pos skip c cs with ⟨left, heq⟩ | ⟨k, heq⟩ | ⟨-, k, heq⟩ | ⟨k, d, rest, rfl, heq⟩ <;> rw [heq]
      · exact ih hmode (by omega) h
      · exact (meet_self h).cons
      · exact (meet_self h).cons
      · exact meet_closed (covers_iff.mpr ⟨by dsimp only; omega, by dsimp only; omega⟩) h
    · -- what opens here lies inside what is being read
      obtain ⟨a, ha, hcovers⟩ := exists_covering hmode hs hc
      obtain ⟨b, hb, hstart, hstop⟩ := exists_started cs (pos + 1) skip' hother
      rw [hplain]
      exact ⟨a, ha, b, hb, pos, hcovers, covers_iff.mpr (by omega)⟩

/-- **A second reading overlaps the first.** Code is read again from plain code on after `k`
characters. If the second reading finds anything, it meets the first. -/
theorem overlap_of_two_readings (cs : List Char) : ∀ (pos k : Nat),
    literalSpansFrom (pos + k) .plain 0 (cs.drop k) ≠ [] →
    Meet (literalSpansFrom pos .plain 0 cs) (literalSpansFrom (pos + k) .plain 0 (cs.drop k)) ∧
    ∀ (mode : Reading) (skip s : Nat), mode.start? = some s → s ≤ pos →
      Meet (literalSpansFrom pos mode skip cs) (literalSpansFrom (pos + k) .plain 0 (cs.drop k)) := by
  induction hn : cs.length using Nat.strongRecOn generalizing cs with
  | ind n ih =>
    subst hn
    intro pos k h
    cases k with
    | zero => exact ⟨meet_self h, fun mode skip s hmode hs => meet_of_inside cs hmode hs h⟩
    | succ k =>
      cases cs with
      | nil => exact absurd (by rw [List.drop_nil, literalSpansFrom]) h
      | cons c cs =>
        have hplace : pos + (k + 1) = pos + 1 + k := by omega
        rw [List.drop_succ_cons, hplace] at h ⊢
        obtain ⟨hplain, hinside⟩ := ih cs.length (by simp) cs rfl (pos + 1) k h
        refine ⟨?_, fun mode skip s hmode hs => ?_⟩
        · rcases plain_step pos c cs with heq | ⟨-, mode, skip, hmode, heq⟩
          · rw [heq]
            exact hplain
          · rw [heq]
            exact hinside mode skip pos hmode (by omega)
        · rcases inside_step hmode pos skip c cs with ⟨left, heq⟩ | ⟨x, heq⟩ | ⟨-, x, heq⟩ | ⟨x, d, rest, rfl, heq⟩ <;> rw [heq]
          · exact hinside mode left s hmode (by omega)
          · exact hplain.cons
          · exact hplain.cons
          · cases k with
            | zero => exact meet_closed (covers_iff.mpr ⟨by dsimp only; omega, by dsimp only; omega⟩) h
            | succ k =>
              have hplace' : pos + 1 + (k + 1) = pos + 2 + k := by omega
              rw [List.drop_succ_cons, hplace'] at h ⊢
              exact (ih rest.length (by simp only [List.length_cons]; omega) rest rfl (pos + 2) k h).1.cons

/-! ### Regions -/

def Nested (c d : Nat × Nat) : Prop :=
  c.1 < d.1 ∧ d.1 < c.2

instance (c d : Nat × Nat) : Decidable (Nested c d) :=
  inferInstanceAs (Decidable (c.1 < d.1 ∧ d.1 < c.2))

/-- The stretch starts inside no other one of the file. -/
def Outermost (content : List Char) (d : Nat × Nat) : Prop :=
  ∀ c ∈ codeSpans content, ¬Nested c d

instance (content : List Char) (d : Nat × Nat) : Decidable (Outermost content d) :=
  inferInstanceAs (Decidable (∀ c ∈ codeSpans content, ¬Nested c d))

/-- The regions of code: of stretches that overlap, the one that starts inside no other. -/
def regions (content : List Char) : List (Nat × Nat) :=
  (codeSpans content).filter fun d => decide (Outermost content d)

theorem regions_apart (content : List Char) : (regions content).Pairwise fun a b => a.2 ≤ b.1 := by
  refine ((stretched_codeSpans content).starts.sublist List.filter_sublist).imp_of_mem fun {a b} ha hb hab => ?_
  have hout := of_decide_eq_true (List.mem_filter.mp hb).2 a (List.mem_filter.mp ha).1
  exact Nat.le_of_not_lt fun hlt => hout ⟨hab, hlt⟩

/-- Each stretch lies in a region. The induction is on its start: a stretch that it starts inside of
starts earlier and ends with it. -/
theorem exists_region {c : Nat × Nat} (hc : c ∈ codeSpans content) :
    ∃ r ∈ regions content, r.1 ≤ c.1 ∧ c.2 = r.2 := by
  induction hn : c.1 using Nat.strongRecOn generalizing c with
  | ind n ih =>
    subst hn
    by_cases hout : Outermost content c
    · exact ⟨c, List.mem_filter.mpr ⟨hc, decide_eq_true hout⟩, Nat.le_refl _, rfl⟩
    · simp only [Outermost, not_forall, not_not, exists_prop] at hout
      obtain ⟨d, hd, hnested⟩ := hout
      obtain ⟨r, hr, hstart, hstop⟩ := ih d.1 hnested.1 hd rfl
      have heq := (stretched_codeSpans content).stop_eq hd hc hnested.1 hnested.2
      exact ⟨r, hr, Nat.le_trans hstart (Nat.le_of_lt hnested.1), heq.trans hstop⟩

theorem covered_regions (content : List Char) (p : Nat) : Covered (regions content) p ↔ InCode content p := by
  constructor
  · rintro ⟨r, hr, hplace⟩
    exact ⟨r, (List.mem_filter.mp hr).1, hplace⟩
  · rintro ⟨c, hc, hstart, hstop⟩
    obtain ⟨r, hr, hle, heq⟩ := exists_region hc
    exact ⟨r, hr, by omega, by omega⟩

/-! ### The strings and comments of a file -/

def literals (content : List Char) : List Span :=
  (contextSpans content).filter (·.context != .outside)

theorem filter_literals_contextSpansFrom (size : Nat) : ∀ (codes : List (Nat × Nat)) (reached : Nat),
    (contextSpansFrom content size reached codes).filter (·.context != .outside) =
      codes.flatMap (literalSpans content)
  | [], reached => by
    rw [contextSpansFrom, List.flatMap_nil]
    split <;> rfl
  | code :: rest, reached => by
    have hliterals : (literalSpans content code).filter (·.context != .outside) = literalSpans content code :=
      List.filter_eq_self.mpr fun x hx => by simpa using context_ne_outside _ _ _ _ x hx
    rw [contextSpansFrom, List.filter_append, List.filter_append, hliterals, List.flatMap_cons,
      filter_literals_contextSpansFrom size rest]
    split <;> rfl

theorem literals_eq (content : List Char) : literals content = (codeSpans content).flatMap (literalSpans content) := by
  rw [literals, contextSpans]
  split
  · rename_i hnone
    rw [hnone]
    rfl
  · exact filter_literals_contextSpansFrom _ _ _

theorem lined_of_mem {c : Nat × Nat} (hc : c ∈ codeSpans content) : Lined c.2 c.1 (literalSpans content c) := by
  have hbounds := (stretched_codeSpans content).bounds hc
  have hlength : c.1 + ((content.drop c.1).take (c.2 - c.1)).length = c.2 := by
    rw [List.length_take, List.length_drop]
    omega
  have h := lined_of_plain c.1 ((content.drop c.1).take (c.2 - c.1))
  rwa [hlength] at h

/-- The strings and comments of a stretch overlap those of one that starts inside it, if there are any. -/
theorem meet_of_nested {c d : Nat × Nat} (hc : c ∈ codeSpans content) (hd : d ∈ codeSpans content)
    (hnested : Nested c d) (h : literalSpans content d ≠ []) :
    Meet (literalSpans content c) (literalSpans content d) := by
  have hstop := (stretched_codeSpans content).stop_eq hc hd hnested.1 hnested.2
  obtain ⟨k, hk⟩ := Nat.exists_eq_add_of_lt hnested.1
  have hrest : (content.drop d.1).take (d.2 - d.1) = ((content.drop c.1).take (c.2 - c.1)).drop (k + 1) := by
    rw [List.drop_take, List.drop_drop, hstop, show c.1 + (k + 1) = d.1 by omega, show c.2 - c.1 - (k + 1) = c.2 - d.1 by omega]
  have hplace : d.1 = c.1 + (k + 1) := by omega
  unfold literalSpans at h ⊢
  rw [hrest, hplace] at h ⊢
  exact (overlap_of_two_readings _ c.1 (k + 1) h).1

/-- The stretches that start inside others hold no strings and no comments. -/
def Settled (content : List Char) : Prop :=
  ∀ c ∈ codeSpans content, ∀ d ∈ codeSpans content, Nested c d → literalSpans content d = []

instance (content : List Char) : Decidable (Settled content) :=
  inferInstanceAs (Decidable (∀ c ∈ codeSpans content, ∀ d ∈ codeSpans content, Nested c d →
    literalSpans content d = []))

theorem disjoint_literals_iff (content : List Char) :
    (literals content).Pairwise (fun a b => ¬Overlap a b) ↔ Settled content := by
  have hcodes := stretched_codeSpans content
  rw [literals_eq, List.pairwise_flatMap]
  constructor
  · rintro ⟨-, hapart⟩ c hc d hd hnested
    have hsymm : Std.Symm fun c d => ∀ a ∈ literalSpans content c, ∀ b ∈ literalSpans content d, ¬Overlap a b :=
      ⟨fun _ _ h a ha b hb hoverlap => h b hb a ha hoverlap.symm⟩
    have hne : c ≠ d := fun heq => Nat.lt_irrefl _ (heq ▸ hnested.1)
    by_contra hsome
    obtain ⟨a, ha, b, hb, hoverlap⟩ := meet_of_nested hc hd hnested hsome
    exact hapart.forall hc hd hne a ha b hb hoverlap
  · intro hsettled
    refine ⟨fun c hc => ?_, hcodes.starts.imp_of_mem fun {c d} hc hd hlt a ha b hb => ?_⟩
    · exact (lined_of_mem hc).pairwise.imp not_overlap_of_le
    · by_cases hin : d.1 < c.2
      · rw [hsettled c hc d hd ⟨hlt, hin⟩] at hb
        exact absurd hb List.not_mem_nil
      · have hbefore := (lined_of_mem hc).bounds a ha
        have hafter := (lined_of_mem hd).bounds b hb
        exact not_overlap_of_le (by omega)

/-- Leaving out items changes nothing in what is gathered just if they give nothing. -/
theorem flatMap_filter_eq_iff {α β : Type} {q : α → Bool} {f : α → List β} : ∀ {xs : List α},
    xs.flatMap f = (xs.filter q).flatMap f ↔ ∀ x ∈ xs, q x = false → f x = []
  | [] => by simp
  | x :: xs => by
    rw [List.forall_mem_cons, List.flatMap_cons]
    by_cases hq : q x = true
    · rw [List.filter_cons_of_pos hq, List.flatMap_cons, List.append_cancel_left_eq, flatMap_filter_eq_iff]
      simp [hq]
    · rw [List.filter_cons_of_neg hq, ← flatMap_filter_eq_iff]
      have hshort : ((xs.filter q).flatMap f).length ≤ (xs.flatMap f).length :=
        (List.filter_sublist.flatMap f).length_le
      constructor
      · intro h
        have hlength := congrArg List.length h
        rw [List.length_append] at hlength
        have hnil : f x = [] := List.eq_nil_of_length_eq_zero (by omega)
        rw [hnil, List.nil_append] at h
        exact ⟨fun _ => hnil, h⟩
      · rintro ⟨hnil, h⟩
        rw [hnil (by simpa using hq), List.nil_append, h]

theorem literals_of_regions_iff (content : List Char) :
    literals content = (regions content).flatMap (literalSpans content) ↔ Settled content := by
  rw [literals_eq, regions, flatMap_filter_eq_iff]
  constructor
  · intro h c hc d hd hnested
    exact h d hd (decide_eq_false fun hout => hout c hc hnested)
  · intro h d hd hinner
    have hnot : ¬Outermost content d := of_decide_eq_false hinner
    obtain ⟨c, hc, hnested⟩ : ∃ c ∈ codeSpans content, Nested c d := by
      simpa only [Outermost, not_forall, not_not, exists_prop] using hnot
    exact h c hc d hd hnested

/-- **Each character of code has one context, just if nested stretches hold no strings and no
comments.** The regions lie apart and cover the code; the strings and comments of a file do not
overlap, and are those of the regions, if and only if no stretch that starts inside another holds any. -/
theorem one_context_iff (content : List Char) :
    ((regions content).Pairwise (fun a b => a.2 ≤ b.1) ∧
      ∀ p, Covered (regions content) p ↔ InCode content p) ∧
    ((literals content).Pairwise (fun a b => ¬Overlap a b) ↔ Settled content) ∧
    (literals content = (regions content).flatMap (literalSpans content) ↔ Settled content) :=
  ⟨⟨regions_apart content, covered_regions content⟩, disjoint_literals_iff content,
    literals_of_regions_iff content⟩

/-- An opening tag inside a string: the rest is read again from inside the string, and its closing
quote opens another string, which hides the call. -/
theorem tag_in_string_restarts :
    let content := "<?php $a = \"<?\"; eval($b);".toList
    literals content = [⟨11, 15, .string⟩, ⟨14, 26, .string⟩] ∧
    (regions content).flatMap (literalSpans content) = [⟨11, 15, .string⟩] ∧
    ¬(literals content).Pairwise fun a b => ¬Overlap a b := by
  refine ⟨by decide, by decide, ?_⟩
  rw [disjoint_literals_iff]
  decide

/-! ### What opens a string or a comment -/

def opens (c : Char) : Bool :=
  isQuote c || c == '#'

end SourceAudit.Php
