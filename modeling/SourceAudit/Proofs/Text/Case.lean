/-
# Lower case

Lower case has nothing left to change in its own results (`lower_lower`), and makes no
blanks of other characters, so a trimmed text is still trimmed in lower case
(`strip_lower_strip`). Both are facts about the runs of code points by which characters
are moved: what a run makes of its code points lies apart from every run, or between the
code points of one (`CaseRun.clears`), and there are no blanks among it.
-/
import Mathlib.Tactic.Common
import SourceAudit.Text.Basic

namespace SourceAudit.Text

variable {c : Char} {before after cs : List Char}

/-! ### Runs of code points -/

namespace CaseRun

def last (r : CaseRun) : Nat := r.first + (r.count - 1) * r.stride

def moved (r : CaseRun) (n : Nat) : Nat := ((n : Int) + r.shift).toNat

/-- What the run makes of its code points, each one. -/
def images (r : CaseRun) : List Nat :=
  (List.range r.count).map fun k => r.moved (r.first + k * r.stride)

/-- What the run makes of its code points is not in the other run: it lies apart from it, or none of it
is. -/
def clears (r other : CaseRun) : Bool :=
  Nat.blt (r.moved r.last) other.first || Nat.blt other.last (r.moved r.first) ||
    r.images.all fun n => (other.image? n).isNone

variable {r other : CaseRun} {n : Nat} {d : Char}

theorem image?_eq_some (h : r.image? n = some d) :
    (∃ k, k < r.count ∧ n = r.first + k * r.stride) ∧ d = Char.ofNat (r.moved n) := by
  unfold image? at h
  split_ifs at h with hn
  simp only [Bool.and_eq_true, decide_eq_true_eq, beq_iff_eq] at hn
  obtain ⟨⟨hle, hmod⟩, hlt⟩ := hn
  refine ⟨⟨(n - r.first) / r.stride, hlt, ?_⟩, (Option.some.inj h).symm⟩
  have hdiv := Nat.div_add_mod' (n - r.first) r.stride
  omega

theorem bounds (h : r.image? n = some d) : r.first ≤ n ∧ n ≤ r.last := by
  obtain ⟨⟨k, hk, rfl⟩, -⟩ := image?_eq_some h
  have hle : k * r.stride ≤ (r.count - 1) * r.stride := Nat.mul_le_mul_right _ (by omega)
  unfold last
  omega

theorem moved_mono {m : Nat} (h : m ≤ n) : r.moved m ≤ r.moved n := by
  unfold moved
  omega

theorem moved_mem_images (h : r.image? n = some d) : r.moved n ∈ r.images := by
  obtain ⟨⟨k, hk, rfl⟩, -⟩ := image?_eq_some h
  exact List.mem_map.mpr ⟨k, List.mem_range.mpr hk, rfl⟩

theorem image?_of_clears (h : r.clears other = true) (hn : r.image? n = some d) : other.image? (r.moved n) = none := by
  obtain ⟨hfirst, hlast⟩ := bounds hn
  have hlow : r.moved r.first ≤ r.moved n := moved_mono hfirst
  have hhigh : r.moved n ≤ r.moved r.last := moved_mono hlast
  unfold clears at h
  rw [Bool.or_eq_true, Bool.or_eq_true, Nat.blt_eq, Nat.blt_eq, List.all_eq_true] at h
  rcases h with hapart | hnone
  · by_contra hsome
    obtain ⟨d', hd'⟩ := Option.ne_none_iff_exists'.mp hsome
    have hbounds := bounds hd'
    omega
  · exact Option.isNone_iff_eq_none.mp (hnone _ (moved_mem_images hn))

end CaseRun

theorem lowerRuns_clear : (lowerRuns.all fun r => lowerRuns.all r.clears) = true := by decide +kernel

/-! ### Characters -/

/-- A character that lower case leaves as it is, wherever it stands. -/
def Settled (c : Char) : Prop :=
  lowerChar c = c ∧ c ≠ 'Σ' ∧ c ≠ 'İ'

instance (c : Char) : Decidable (Settled c) :=
  inferInstanceAs (Decidable (_ ∧ _))

theorem lowerForm_of_settled (h : Settled c) (before after : List Char) : lowerForm before c after = [c] := by
  obtain ⟨hfixed, hsigma, hdotted⟩ := h
  simp [lowerForm, hsigma, hdotted, hfixed]

theorem mapByRuns_of_none {runs : List CaseRun} (h : ∀ r ∈ runs, r.image? c.toNat = none) :
    mapByRuns runs c = c := by
  unfold mapByRuns
  rw [List.findSome?_eq_none_iff.mpr h, Option.getD_none, ite_self]

theorem toNat_ofNat {n : Nat} (h : n.isValidChar) : (Char.ofNat n).toNat = n := by
  rw [Char.ofNat, dif_pos h]
  rfl

/-- Neither a blank nor one of the characters that lower case changes outside of the runs. -/
def isPlain (c : Char) : Bool :=
  !isBlank c && !('A' ≤ c && c ≤ 'Z') && c != 'Σ' && c != 'İ'

theorem lowerRuns_plain : (lowerRuns.all fun r => r.images.all fun n => isPlain (Char.ofNat n)) = true := by
  decide +kernel

/-- A plain character that no run covers is settled. -/
theorem settled_of_plain (hplain : isPlain c = true) (hruns : ∀ r ∈ lowerRuns, r.image? c.toNat = none) :
    Settled c ∧ isBlank c = false := by
  simp only [isPlain, Bool.and_eq_true, Bool.not_eq_true', bne_iff_ne] at hplain
  obtain ⟨⟨⟨hblank, hcapital⟩, hsigma⟩, hdotted⟩ := hplain
  refine ⟨⟨?_, hsigma, hdotted⟩, hblank⟩
  rw [lowerChar, hcapital, if_neg Bool.false_ne_true, beq_eq_false_iff_ne.mpr hdotted, if_neg Bool.false_ne_true,
    mapByRuns_of_none hruns, ite_self]

/-- What a run makes of a character is settled, and no blank. -/
theorem settled_of_image? {r : CaseRun} (hr : r ∈ lowerRuns) {n : Nat} {d : Char} (hd : r.image? n = some d) :
    Settled d ∧ isBlank d = false := by
  have hclear := List.all_eq_true.mp (List.all_eq_true.mp lowerRuns_clear r hr)
  have hplain := List.all_eq_true.mp (List.all_eq_true.mp lowerRuns_plain r hr) _ (CaseRun.moved_mem_images hd)
  obtain ⟨-, rfl⟩ := CaseRun.image?_eq_some hd
  by_cases hvalid : (r.moved n).isValidChar
  · refine settled_of_plain hplain fun other hother => ?_
    rw [toNat_ofNat hvalid]
    exact CaseRun.image?_of_clears (hclear other hother) hd
  · have hnull : Char.ofNat (r.moved n) = '\x00' := by
      rw [Char.ofNat, dif_neg hvalid]
      rfl
    rw [hnull]
    decide

/-- Lower case leaves a character as it is, or makes it a settled one that is no blank. -/
theorem lowerChar_cases (c : Char) :
    (lowerChar c = c ∧ c ≠ 'Σ') ∨ (Settled (lowerChar c) ∧ isBlank (lowerChar c) = false) := by
  by_cases hascii : c.toNat < 128
  · have hall : ∀ n < 128, (lowerChar (Char.ofNat n) = Char.ofNat n ∧ Char.ofNat n ≠ 'Σ') ∨
        (Settled (lowerChar (Char.ofNat n)) ∧ isBlank (lowerChar (Char.ofNat n)) = false) := by decide +kernel
    have hc := hall c.toNat hascii
    rwa [Char.ofNat_toNat] at hc
  · by_cases hdotted : c = 'İ'
    · rw [hdotted]
      exact .inr (by decide +kernel)
    · have hruns : lowerChar c = mapByRuns lowerRuns c := by
        rw [lowerChar, if_neg hascii, beq_eq_false_iff_ne.mpr hdotted, if_neg Bool.false_ne_true]
      rw [hruns, mapByRuns]
      by_cases hcaseless : isCaseless c = true
      · rw [if_pos hcaseless]
        refine .inl ⟨rfl, ?_⟩
        rintro rfl
        exact absurd hcaseless (by decide)
      · rw [if_neg hcaseless]
        cases hfound : lowerRuns.findSome? (·.image? c.toNat) with
        | none =>
          refine .inl ⟨rfl, ?_⟩
          rintro rfl
          have hsigma : (lowerRuns.findSome? (·.image? 'Σ'.toNat)).isSome = true := by decide +kernel
          rw [hfound] at hsigma
          cases hsigma
        | some d =>
          obtain ⟨r, hr, hd⟩ := List.exists_of_findSome?_eq_some hfound
          exact .inr (settled_of_image? hr hd)

theorem settled_lowerChar (c : Char) : Settled (lowerChar c) := by
  rcases lowerChar_cases c with ⟨hsame, hsigma⟩ | ⟨hsettled, -⟩
  · rw [hsame]
    refine ⟨hsame, hsigma, ?_⟩
    rintro rfl
    exact absurd hsame (by decide)
  · exact hsettled

theorem mem_lowerForm {d : Char} (h : d ∈ lowerForm before c after) :
    (Settled d ∧ isBlank d = false) ∨ d = lowerChar c := by
  unfold lowerForm at h
  split_ifs at h
  · rw [List.mem_singleton.mp h]
    exact .inl (by decide +kernel)
  · rw [List.mem_singleton.mp h]
    exact .inl (by decide +kernel)
  · rw [List.mem_cons, List.mem_singleton] at h
    rcases h with rfl | rfl
    · exact .inl (by decide +kernel)
    · exact .inl (by decide +kernel)
  · exact .inr (List.mem_singleton.mp h)

theorem settled_of_mem_lowerForm {d : Char} (h : d ∈ lowerForm before c after) : Settled d := by
  rcases mem_lowerForm h with ⟨hsettled, -⟩ | rfl
  · exact hsettled
  · exact settled_lowerChar c

theorem isBlank_of_mem_lowerForm {d : Char} (h : d ∈ lowerForm before c after)
    (hc : isBlank c = false) : isBlank d = false := by
  rcases mem_lowerForm h with ⟨-, hblank⟩ | rfl
  · exact hblank
  · rcases lowerChar_cases c with ⟨hsame, -⟩ | ⟨-, hblank⟩
    · rw [hsame]
      exact hc
    · exact hblank

/-! ### Texts -/

theorem lowerFrom_done : ∀ (cs before done : List Char),
    lowerFrom before done cs = done.reverse ++ lowerFrom before [] cs
  | [], before, done => by simp [lowerFrom]
  | c :: cs, before, done => by
    rw [lowerFrom, lowerFrom, lowerFrom_done cs _ (_ ++ done), lowerFrom_done cs _ (_ ++ [])]
    simp

theorem lowerFrom_cons (before : List Char) (c : Char) (cs : List Char) :
    lowerFrom before [] (c :: cs) = lowerForm before c cs ++ lowerFrom (c :: before) [] cs := by
  rw [lowerFrom, lowerFrom_done]
  simp

theorem length_lowerForm_pos (before : List Char) (c : Char) (after : List Char) :
    0 < (lowerForm before c after).length := by
  unfold lowerForm
  split
  · split <;> simp
  · split <;> simp

/-- The lower case of what stands before a place is at least as long as what stands there. -/
theorem lowerFrom_append : ∀ (xs before rest : List Char), ∃ lowered : List Char, xs.length ≤ lowered.length ∧
    lowerFrom before [] (xs ++ rest) = lowered ++ lowerFrom (xs.reverse ++ before) [] rest
  | [], before, rest => ⟨[], Nat.le_refl _, rfl⟩
  | x :: xs, before, rest => by
    obtain ⟨lowered, hlength, heq⟩ := lowerFrom_append xs (x :: before) rest
    have hform := length_lowerForm_pos before x (xs ++ rest)
    refine ⟨lowerForm before x (xs ++ rest) ++ lowered, ?_, ?_⟩
    · rw [List.length_cons, List.length_append]
      omega
    · rw [List.cons_append, lowerFrom_cons, heq]
      simp

theorem settled_of_mem_lowerFrom : ∀ {cs before : List Char}, ∀ d ∈ lowerFrom before [] cs, Settled d
  | [], before, d, h => absurd h (by simp [lowerFrom])
  | c :: cs, before, d, h => by
    rw [lowerFrom_cons, List.mem_append] at h
    rcases h with h | h
    · exact settled_of_mem_lowerForm h
    · exact settled_of_mem_lowerFrom d h

theorem lowerFrom_of_settled : ∀ {cs : List Char} (before : List Char), (∀ d ∈ cs, Settled d) →
    lowerFrom before [] cs = cs
  | [], _, _ => rfl
  | c :: cs, before, h => by
    rw [List.forall_mem_cons] at h
    rw [lowerFrom_cons, lowerForm_of_settled h.1, lowerFrom_of_settled (c :: before) h.2]
    rfl

/-- **Lower case changes nothing in a text in lower case.** -/
theorem lower_lower (s : String) : lower (lower s) = lower s := by
  rw [lower, lower, String.toList_ofList, lowerFrom_of_settled [] settled_of_mem_lowerFrom]

/-! ### Trimmed texts -/

/-- A list that neither starts nor ends with a character of the class. -/
def Trimmed (p : Char → Bool) (cs : List Char) : Prop :=
  (∀ c ∈ cs.head?, p c = false) ∧ ∀ c ∈ cs.getLast?, p c = false

theorem dropWhile_of_head? {p : Char → Bool} (h : ∀ c ∈ cs.head?, p c = false) : cs.dropWhile p = cs := by
  cases cs with
  | nil => rfl
  | cons c cs => rw [List.dropWhile_cons, h c rfl, if_neg Bool.false_ne_true]

theorem trimBy_of_trimmed {p : Char → Bool} (h : Trimmed p cs) : trimBy p cs = cs := by
  have hend : ∀ c ∈ cs.reverse.head?, p c = false := by
    rw [List.head?_reverse]
    exact h.2
  rw [trimBy, dropWhile_of_head? h.1, dropWhile_of_head? hend, List.reverse_reverse]

theorem head?_dropWhile (p : Char → Bool) (cs : List Char) : ∀ c ∈ (cs.dropWhile p).head?, p c = false := by
  intro c hc
  have hnot := List.head?_dropWhile_not p cs
  rw [hc] at hnot
  simpa using hnot

theorem trimmed_trimBy (p : Char → Bool) (cs : List Char) : Trimmed p (trimBy p cs) := by
  unfold trimBy
  constructor
  · -- what is left starts as the list without the characters at its start
    obtain ⟨rest, hrest⟩ : ((cs.dropWhile p).reverse.dropWhile p).reverse <+: cs.dropWhile p := by
      rw [← List.reverse_suffix, List.reverse_reverse]
      exact List.dropWhile_suffix p
    intro c hc
    apply head?_dropWhile p cs
    rw [← hrest, List.head?_append, hc]
    rfl
  · rw [List.getLast?_reverse]
    exact head?_dropWhile p _

theorem trimmed_lowerFrom (h : Trimmed isBlank cs) : Trimmed isBlank (lowerFrom [] [] cs) := by
  have hform : ∀ before c after, lowerForm before c after ≠ [] := fun before c after =>
    List.ne_nil_of_length_pos (length_lowerForm_pos before c after)
  constructor
  · intro d hd
    cases cs with
    | nil => exact absurd hd (by simp [lowerFrom])
    | cons c rest =>
      rw [lowerFrom_cons, List.head?_append, Option.or_of_isSome (by simpa using hform [] c rest)] at hd
      exact isBlank_of_mem_lowerForm (List.mem_of_mem_head? hd) (h.1 c rfl)
  · intro d hd
    rcases List.eq_nil_or_concat cs with rfl | ⟨front, c, rfl⟩
    · exact absurd hd (by simp [lowerFrom])
    · obtain ⟨lowered, -, hlowered⟩ := lowerFrom_append front [] [c]
      rw [List.concat_eq_append, hlowered, lowerFrom_cons, lowerFrom, List.reverse_nil, List.append_nil,
        List.getLast?_append, Option.or_of_isSome (by simpa using hform _ c [])] at hd
      exact isBlank_of_mem_lowerForm (List.mem_of_mem_getLast? hd) (h.2 c (by simp))

theorem strip_strip (s : String) : strip (strip s) = strip s := by
  rw [strip, strip, String.toList_ofList, trimBy_of_trimmed (trimmed_trimBy isBlank s.toList)]

/-- **Trimming changes nothing in a text that was trimmed before it was put in lower case.** -/
theorem strip_lower_strip (s : String) : strip (lower (strip s)) = lower (strip s) := by
  rw [strip, lower, String.toList_ofList, trimBy_of_trimmed]
  apply trimmed_lowerFrom
  rw [strip, String.toList_ofList]
  exact trimmed_trimBy isBlank s.toList

end SourceAudit.Text
