/-
# The best row of each problem

Rows are one problem if their fingerprints are equal. Equality of the values in a
fingerprint is equality of what they stand for (`Value.key?`): a number is equal to each
value of the same amount, and a number that is undefined not even to itself. A row with
such a number is a problem of its own, which only its place tells from others
(`problemOf`).

After each row the rows that are kept are those that the rows so far ask for
(`Gathered`): one for each problem, in the order of their first rows, and the earliest
among those of the highest rank. No two of them are one problem, so nothing changes when
they are gathered again (`dedupe_of_distinct`).
-/
import Mathlib.Data.Prod.Lex
import SourceAudit.Proofs.FirstOccurrences
import SourceAudit.Proofs.Outcome
import SourceAudit.Scan.Dedupe

namespace SourceAudit

/-! ### What values stand for -/

/-- What a value in a fingerprint stands for. -/
inductive Key where
  | null
  | text (s : String)
  | number (q : Rat)
  | infinity (negative : Bool)
deriving DecidableEq

/-- What a value stands for; an undefined number stands for nothing, and lists and objects are not asked. -/
def Value.key? : Value → Option Key
  | .null => some .null
  | .str s => some (.text s)
  | .bool b => some (.number (if b then 1 else 0))
  | .int i => some (.number i)
  | .real (.finite q) => some (.number q)
  | .real .negZero => some (.number 0)
  | .real (.infinite n) => some (.infinity n)
  | .real .undefined | .list _ | .object _ => none

theorem Value.same_iff_key? {v w : Value} (hv : v.isKey = true) (hw : w.isKey = true) :
    v.same w = true ↔ v.key?.isSome = true ∧ v.key? = w.key? := by
  rcases v with _ | b | i | (q | _ | n | _) | s | xs | fs <;>
    rcases w with _ | b' | i' | (q' | _ | n' | _) | s' | xs' | fs' <;>
    simp_all [Value.isKey, Value.same, Value.key?, Value.rational?, Value.infinity?, Double.toRat?]

namespace Scan

/-- What the values of a fingerprint stand for. -/
def keys? : List Value → Option (List Key)
  | [] => some []
  | v :: vs => v.key?.bind fun k => (keys? vs).map (k :: ·)

theorem sameLists_iff_keys? : ∀ {vs ws : List Value}, (∀ v ∈ vs, v.isKey = true) → (∀ w ∈ ws, w.isKey = true) →
    (Value.sameLists vs ws = true ↔ (keys? vs).isSome = true ∧ keys? vs = keys? ws)
  | [], [], _, _ => by simp [Value.sameLists, keys?]
  | [], w :: ws, _, _ => by
    cases hw : w.key? <;> cases hws : keys? ws <;> simp [Value.sameLists, keys?, hw, hws]
  | v :: vs, [], _, _ => by
    cases hv : v.key? <;> cases hvs : keys? vs <;> simp [Value.sameLists, keys?, hv, hvs]
  | v :: vs, w :: ws, hvs, hws => by
    rw [List.forall_mem_cons] at hvs hws
    rw [Value.sameLists, Bool.and_eq_true, Value.same_iff_key? hvs.1 hws.1, sameLists_iff_keys? hvs.2 hws.2, keys?, keys?]
    cases v.key? <;> cases w.key? <;> cases keys? vs <;> cases keys? ws <;> simp

def Comparable (row : Value) : Prop :=
  ∀ v ∈ fingerprint row, v.isKey = true

theorem sameFingerprint_iff {a b : Value} (ha : Comparable a) (hb : Comparable b) :
    sameFingerprint (fingerprint a) (fingerprint b) = true ↔
      (keys? (fingerprint a)).isSome = true ∧ keys? (fingerprint a) = keys? (fingerprint b) :=
  sameLists_iff_keys? ha hb

/-! ### Problems -/

/-- What is found: by the fingerprint, or by the place of a row whose fingerprint is not equal to itself. -/
inductive Problem where
  | known (key : List Key)
  | own (place : Nat)
deriving DecidableEq

def problemOf (row : Value × Nat) : Problem :=
  (keys? (fingerprint row.1)).elim (.own row.2) .known

theorem problemOf_known {row : Value × Nat} {key : List Key} (h : keys? (fingerprint row.1) = some key) :
    problemOf row = .known key := by
  rw [problemOf, h, Option.elim_some]

theorem problemOf_own {row : Value × Nat} (h : keys? (fingerprint row.1) = none) : problemOf row = .own row.2 := by
  rw [problemOf, h, Option.elim_none]

theorem problemOf_eq_of_same {a b : Value} (ha : Comparable a) (hb : Comparable b)
    (h : sameFingerprint (fingerprint a) (fingerprint b) = true) (i j : Nat) : problemOf (a, i) = problemOf (b, j) := by
  obtain ⟨hsome, heq⟩ := (sameFingerprint_iff ha hb).mp h
  obtain ⟨key, hkey⟩ := Option.isSome_iff_exists.mp hsome
  have hfirst : problemOf (a, i) = .known key := problemOf_known hkey
  have hsecond : problemOf (b, j) = .known key := problemOf_known (heq ▸ hkey)
  rw [hfirst, hsecond]

theorem same_of_problemOf_eq {x y : Value × Nat} (hx : Comparable x.1) (hy : Comparable y.1)
    (h : problemOf x = problemOf y) : x.2 = y.2 ∨ sameFingerprint (fingerprint x.1) (fingerprint y.1) = true := by
  rw [sameFingerprint_iff hx hy]
  cases hkx : keys? (fingerprint x.1) with
  | none =>
    cases hky : keys? (fingerprint y.1) with
    | none =>
      rw [problemOf_own hkx, problemOf_own hky] at h
      exact Or.inl (Problem.own.inj h)
    | some key =>
      rw [problemOf_own hkx, problemOf_known hky] at h
      cases h
  | some key =>
    cases hky : keys? (fingerprint y.1) with
    | none =>
      rw [problemOf_known hkx, problemOf_own hky] at h
      cases h
    | some key' =>
      rw [problemOf_known hkx, problemOf_known hky] at h
      exact Or.inr ⟨rfl, congrArg some (Problem.known.inj h)⟩

/-- Rows at different places are one problem if their fingerprints are equal. -/
theorem same_iff_problemOf_eq {x y : Value × Nat} (hx : Comparable x.1) (hy : Comparable y.1) (hne : x.2 ≠ y.2) :
    sameFingerprint (fingerprint x.1) (fingerprint y.1) = true ↔ problemOf x = problemOf y :=
  ⟨fun h => problemOf_eq_of_same hx hy h x.2 y.2, fun h => (same_of_problemOf_eq hx hy h).resolve_left hne⟩

/-! ### The best row -/

variable {xs : List (Value × Nat)} {f y : Value × Nat} {row : Value}

theorem rankBelow_iff {a b : Nat × Nat} : rankBelow a b = true ↔ toLex a < toLex b := by
  rw [rankBelow, Prod.Lex.toLex_lt_toLex, Bool.or_eq_true, Bool.and_eq_true, decide_eq_true_iff, beq_iff_eq,
    decide_eq_true_iff]

/-- Among the rows of the problem of `f`, the row is the earliest of the highest rank. -/
def BestOf (xs : List (Value × Nat)) (f : Value × Nat) (row : Value) : Prop :=
  ∃ before i after, xs = before ++ (row, i) :: after ∧ problemOf (row, i) = problemOf f ∧
    (∀ z ∈ before, problemOf z = problemOf f → toLex (rank z.1) < toLex (rank row)) ∧
    ∀ z ∈ after, problemOf z = problemOf f → toLex (rank z.1) ≤ toLex (rank row)

namespace BestOf

theorem exists_mem (h : BestOf xs f row) : ∃ i, (row, i) ∈ xs ∧ problemOf (row, i) = problemOf f := by
  obtain ⟨before, i, after, rfl, hproblem, -, -⟩ := h
  exact ⟨i, List.mem_append_right _ List.mem_cons_self, hproblem⟩

theorem rank_le (h : BestOf xs f row) {z : Value × Nat} (hz : z ∈ xs) (hproblem : problemOf z = problemOf f) :
    toLex (rank z.1) ≤ toLex (rank row) := by
  obtain ⟨before, i, after, rfl, -, hbefore, hafter⟩ := h
  rcases List.mem_append.mp hz with hz | hz
  · exact le_of_lt (hbefore z hz hproblem)
  · rcases List.mem_cons.mp hz with rfl | hz
    · exact le_refl _
    · exact hafter z hz hproblem

theorem concat (h : BestOf xs f row) (hy : problemOf y = problemOf f → toLex (rank y.1) ≤ toLex (rank row)) :
    BestOf (xs ++ [y]) f row := by
  obtain ⟨before, i, after, rfl, hproblem, hbefore, hafter⟩ := h
  refine ⟨before, i, after ++ [y], by simp, hproblem, hbefore, fun z hz => ?_⟩
  rcases List.mem_append.mp hz with hz | hz
  · exact hafter z hz
  · rw [List.mem_singleton.mp hz]
    exact hy

theorem concat_better (h : BestOf xs f row) (hproblem : problemOf y = problemOf f)
    (hy : toLex (rank row) < toLex (rank y.1)) : BestOf (xs ++ [y]) f y.1 :=
  ⟨xs, y.2, [], rfl, hproblem, fun _ hz hsame => lt_of_le_of_lt (h.rank_le hz hsame) hy, by simp⟩

theorem concat_new (hy : ∀ z ∈ xs, problemOf z ≠ problemOf y) : BestOf (xs ++ [y]) y y.1 :=
  ⟨xs, y.2, [], rfl, rfl, fun z hz hsame => absurd hsame (hy z hz), by simp⟩

end BestOf

/-! ### One row more -/

/-- What is kept for the problem of `f`: its fingerprint and its best row. -/
structure KeptFor (xs : List (Value × Nat)) (f : Value × Nat) (pair : List Value × Value) : Prop where
  key : pair.1 = fingerprint f.1
  best : BestOf xs f pair.2

/-- What is kept are the best rows of the problems so far, in the order of their first rows. -/
def Gathered (xs : List (Value × Nat)) (pairs : List (List Value × Value)) : Prop :=
  ∃ firsts, FirstOccurrences problemOf xs firsts ∧ List.Forall₂ (KeptFor xs) firsts pairs

theorem keep_of_none {key : List Value} {row : Value} : ∀ {pairs : List (List Value × Value)},
    (∀ pair ∈ pairs, sameFingerprint pair.1 key = false) → keep key row pairs = pairs ++ [(key, row)]
  | [], _ => rfl
  | (k, kept) :: rest, h => by
    rw [List.forall_mem_cons] at h
    rw [keep, h.1, if_neg Bool.false_ne_true, keep_of_none h.2, List.cons_append]

/-- Of the kept rows only that of the problem `t` may change, and it gives way or stays. -/
theorem forall₂_keep_of_mem {R R' : Value × Nat → List Value × Value → Prop} {key : List Value} {row : Value}
    {t : Problem} {firsts : List (Value × Nat)} {pairs : List (List Value × Value)}
    (h : List.Forall₂ R firsts pairs) (hnodup : (firsts.map problemOf).Nodup) (ht : t ∈ firsts.map problemOf)
    (hsame : ∀ f ∈ firsts, ∀ pair, R f pair → (sameFingerprint pair.1 key = true ↔ problemOf f = t))
    (hother : ∀ f ∈ firsts, ∀ pair, R f pair → problemOf f ≠ t → R' f pair)
    (hown : ∀ f ∈ firsts, ∀ k kept, R f (k, kept) → problemOf f = t →
      R' f (k, if givesWay kept row then row else kept)) :
    List.Forall₂ R' firsts (keep key row pairs) := by
  induction h with
  | nil => exact absurd ht List.not_mem_nil
  | @cons f pair firsts pairs hpair hpairs ih =>
    obtain ⟨k, kept⟩ := pair
    rw [List.map_cons, List.nodup_cons] at hnodup
    rw [List.forall_mem_cons] at hsame hother hown
    rw [keep]
    by_cases hf : problemOf f = t
    · -- the fingerprint of the problem stands here, and at no later place
      rw [if_pos ((hsame.1 _ hpair).mpr hf)]
      refine .cons (hown.1 _ _ hpair hf) ?_
      have hmem := (List.forall₂_and_left firsts pairs).mpr ⟨fun g hg => hg, hpairs⟩
      refine hmem.imp fun g pair ⟨hg, hR⟩ => hother.2 g hg pair hR fun heq => hnodup.1 ?_
      rw [hf, ← heq]
      exact List.mem_map_of_mem hg
    · rw [if_neg fun hs => hf ((hsame.1 _ hpair).mp hs)]
      refine .cons (hother.1 _ hpair hf) (ih hnodup.2 ?_ hsame.2 hother.2 hown.2)
      rcases List.mem_cons.mp ht with heq | ht
      · exact absurd heq.symm hf
      · exact ht

/-- A row that can be compared with others and is not empty. -/
structure Fit (row : Value) : Prop where
  truthy : row.truthy = true
  comparable : Comparable row

/-- **One row more keeps the best.** -/
theorem gathered_concat {pairs : List (List Value × Value)} (hfit : ∀ z ∈ xs, Fit z.1) (hplace : ∀ z ∈ xs, z.2 ≠ y.2)
    (hy : Fit y.1) (h : Gathered xs pairs) : Gathered (xs ++ [y]) (keep (fingerprint y.1) y.1 pairs) := by
  obtain ⟨firsts, hfirsts, hpairs⟩ := h
  have hsame : ∀ f ∈ firsts, sameFingerprint (fingerprint f.1) (fingerprint y.1) = true ↔ problemOf f = problemOf y :=
    fun f hf => same_iff_problemOf_eq (hfit f (hfirsts.subset hf)).comparable hy.comparable
      (hplace f (hfirsts.subset hf))
  by_cases hnew : ∀ z ∈ xs, problemOf z ≠ problemOf y
  · -- a new problem
    have hother : ∀ f ∈ firsts, problemOf y ≠ problemOf f := fun f hf heq => hnew f (hfirsts.subset hf) heq.symm
    have hmem := (List.forall₂_and_left firsts pairs).mpr ⟨fun f hf => hf, hpairs⟩
    have hnone : ∀ pair ∈ pairs, sameFingerprint pair.1 (fingerprint y.1) = false := by
      intro pair hpair
      obtain ⟨f, -, hf, hkept⟩ := exists_mem_of_forall₂ (R := fun pair f => f ∈ firsts ∧ KeptFor xs f pair) hmem.flip hpair
      rw [hkept.key, ← Bool.not_eq_true, hsame f hf]
      exact fun heq => hother f hf heq.symm
    rw [keep_of_none hnone]
    refine ⟨firsts ++ [y], hfirsts.concat_new hnew, List.rel_append (hmem.imp fun f pair hkept => ?_)
      (.cons ⟨by dsimp only, .concat_new hnew⟩ .nil)⟩
    exact ⟨hkept.2.key, hkept.2.best.concat fun heq => absurd heq (hother f hkept.1)⟩
  · -- a problem that is known: its row gives way or stays
    simp only [not_forall, not_not, exists_prop] at hnew
    obtain ⟨z, hz, hproblem⟩ := hnew
    obtain ⟨f, hf, hfz⟩ := hfirsts.exists_key hz
    refine ⟨firsts, hfirsts.concat_old ⟨z, hz, hproblem⟩, forall₂_keep_of_mem hpairs hfirsts.nodup
      (List.mem_map.mpr ⟨f, hf, hfz.trans hproblem⟩) ?_ ?_ ?_⟩
    · intro f hf pair hkept
      rw [hkept.key]
      exact hsame f hf
    · exact fun f _ pair hkept hne => ⟨hkept.key, hkept.best.concat fun heq => absurd heq.symm hne⟩
    · intro f _ k kept hkept heq
      obtain ⟨i, hmem, -⟩ := hkept.best.exists_mem
      have htruthy : kept.truthy = true := (hfit _ hmem).truthy
      refine ⟨hkept.key, ?_⟩
      rw [givesWay, htruthy, Bool.not_true, Bool.false_or]
      by_cases hbelow : rankBelow (rank kept) (rank y.1) = true
      · rw [if_pos hbelow]
        exact hkept.best.concat_better heq.symm (rankBelow_iff.mp hbelow)
      · rw [if_neg hbelow]
        exact hkept.best.concat fun _ => not_lt.mp fun hlt => hbelow (rankBelow_iff.mpr hlt)

theorem gathered_foldl {rows : List Value} (hrows : ∀ r ∈ rows, Fit r) :
    Gathered rows.zipIdx (rows.foldl (fun kept row => keep (fingerprint row) row kept) []) := by
  induction rows using List.reverseRecOn with
  | nil => exact ⟨[], .nil, .nil⟩
  | append_singleton rows x ih =>
    have hbefore : ∀ r ∈ rows, Fit r := fun r hr => hrows r (List.mem_append_left _ hr)
    rw [List.foldl_append, List.zipIdx_append, Nat.zero_add]
    refine gathered_concat (fun z hz => hbefore _ (List.fst_mem_of_mem_zipIdx hz)) (fun z hz => ?_)
      (hrows x (List.mem_append_right _ List.mem_cons_self)) (ih hbefore)
    exact Nat.ne_of_lt (List.snd_lt_of_mem_zipIdx hz)

/-! ### The kept rows -/

theorem bestOf_dedupe {rows : List Value} (hrows : ∀ r ∈ rows, Fit r) :
    ∃ firsts, FirstOccurrences problemOf rows.zipIdx firsts ∧
      List.Forall₂ (BestOf rows.zipIdx) firsts (dedupe rows) := by
  obtain ⟨firsts, hfirsts, hpairs⟩ := gathered_foldl hrows
  exact ⟨firsts, hfirsts, List.forall₂_map_right_iff.mpr (hpairs.imp fun _ _ hkept => hkept.best)⟩

section

variable {rows kept : List Value} {firsts : List (Value × Nat)}

/-- A kept row is one of the rows, and stands for the problem of one of the first rows. -/
theorem exists_first_of_mem (h : List.Forall₂ (BestOf rows.zipIdx) firsts kept) {row : Value} (hrow : row ∈ kept) :
    row ∈ rows ∧ ∃ f ∈ firsts, ∃ i, problemOf (row, i) = problemOf f := by
  obtain ⟨f, hf, hbest⟩ := exists_mem_of_forall₂ (R := fun row f => BestOf rows.zipIdx f row) h.flip hrow
  obtain ⟨i, hmem, hproblem⟩ := hbest.exists_mem
  exact ⟨List.fst_mem_of_mem_zipIdx hmem, f, hf, i, hproblem⟩

theorem distinct_of_bestOf (hrows : ∀ r ∈ rows, Fit r) (hfirsts : (firsts.map problemOf).Nodup)
    (h : List.Forall₂ (BestOf rows.zipIdx) firsts kept) :
    kept.Pairwise fun a b => sameFingerprint (fingerprint a) (fingerprint b) = false := by
  induction h with
  | nil => exact .nil
  | @cons f row firsts kept hbest hrest ih =>
    rw [List.map_cons, List.nodup_cons] at hfirsts
    refine List.pairwise_cons.mpr ⟨fun other hother => ?_, ih hfirsts.2⟩
    obtain ⟨hmem', g, hg, j, hproblem⟩ := exists_first_of_mem hrest hother
    obtain ⟨i, hmem, hf⟩ := hbest.exists_mem
    have hfit := hrows row (List.fst_mem_of_mem_zipIdx hmem)
    rw [← Bool.not_eq_true]
    intro hsame
    have heq := problemOf_eq_of_same hfit.comparable (hrows other hmem').comparable hsame i j
    exact hfirsts.1 (List.mem_map.mpr ⟨g, hg, by rw [← hproblem, ← heq, hf]⟩)

theorem exists_kept (hrows : ∀ r ∈ rows, Fit r) (hfirsts : FirstOccurrences problemOf rows.zipIdx firsts)
    (h : List.Forall₂ (BestOf rows.zipIdx) firsts kept) {row : Value} (hrow : row ∈ rows) :
    ∃ k ∈ kept, k = row ∨ sameFingerprint (fingerprint k) (fingerprint row) = true := by
  obtain ⟨i, hi⟩ := List.mem_iff_getElem?.mp hrow
  have hmem : (row, i) ∈ rows.zipIdx := List.mem_zipIdx_iff_getElem?.mpr hi
  obtain ⟨f, hf, hproblem⟩ := hfirsts.exists_key hmem
  obtain ⟨k, hk, hbest⟩ := exists_mem_of_forall₂ h hf
  obtain ⟨j, hkmem, hkproblem⟩ := hbest.exists_mem
  refine ⟨k, hk, ?_⟩
  have hfit := hrows k (List.fst_mem_of_mem_zipIdx hkmem)
  rcases same_of_problemOf_eq (x := (k, j)) (y := (row, i)) hfit.comparable (hrows row hrow).comparable
    (hkproblem.trans hproblem) with hplace | hsame
  · -- at one place there is one row
    have hj : rows[j]? = some k := List.mem_zipIdx_iff_getElem?.mp hkmem
    rw [show j = i from hplace, hi] at hj
    exact Or.inl (Option.some.inj hj).symm
  · exact Or.inr hsame

end

theorem dedupe_of_distinct {rows : List Value}
    (h : rows.Pairwise fun a b => sameFingerprint (fingerprint a) (fingerprint b) = false) : dedupe rows = rows := by
  have hfold : ∀ (rows : List Value) (pairs : List (List Value × Value)),
      (∀ pair ∈ pairs, ∀ row ∈ rows, sameFingerprint pair.1 (fingerprint row) = false) →
      (rows.Pairwise fun a b => sameFingerprint (fingerprint a) (fingerprint b) = false) →
      (rows.foldl (fun kept row => keep (fingerprint row) row kept) pairs).map (·.2) = pairs.map (·.2) ++ rows := by
    intro rows
    induction rows with
    | nil => intro pairs _ _; simp
    | cons row rows ih =>
      intro pairs hpairs hrows
      obtain ⟨hrow, hrows⟩ := List.pairwise_cons.mp hrows
      rw [List.foldl_cons, keep_of_none fun pair hpair => hpairs pair hpair row List.mem_cons_self, ih _ ?_ hrows]
      · simp
      · intro pair hpair other hother
        rcases List.mem_append.mp hpair with hpair | hpair
        · exact hpairs pair hpair other (List.mem_cons_of_mem _ hother)
        · rw [List.mem_singleton.mp hpair]
          dsimp only
          exact hrow other hother
  have hall := hfold rows [] (fun pair hpair => absurd hpair List.not_mem_nil) h
  rwa [List.map_nil, List.nil_append] at hall

theorem dedupeValues_eq {rows : List Value} (hobject : ∀ r ∈ rows, r.isObject = true)
    (hkeys : ∀ r ∈ rows, Comparable r) : dedupeValues rows = .ok (dedupe rows) := by
  have hobjects : (rows.any fun r => !r.isObject) = false := by
    rw [List.any_eq_false]
    intro r hr
    simp [hobject r hr]
  have hcomparable : (rows.any fun r => (fingerprint r).any fun v => !v.isKey) = false := by
    rw [List.any_eq_false]
    intro r hr
    rw [Bool.not_eq_true, List.any_eq_false]
    intro v hv
    simp [hkeys r hr v hv]
  rw [dedupeValues, hobjects, if_neg Bool.false_ne_true, hcomparable, if_neg Bool.false_ne_true]

/-- **The best row of each problem is kept.** The rows that are kept have the fingerprints of all
rows, in the order of their first occurrences; the row for each is the earliest of the highest rank.
Joining them again changes nothing. -/
theorem dedupe_keeps_best {rows : List Value} (hobject : ∀ r ∈ rows, r.isObject = true)
    (htruthy : ∀ r ∈ rows, r.truthy = true) (hkeys : ∀ r ∈ rows, Comparable r) :
    ∃ kept, dedupeValues rows = .ok kept ∧
      (∃ firsts, FirstOccurrences problemOf rows.zipIdx firsts ∧
        List.Forall₂ (BestOf rows.zipIdx) firsts kept) ∧
      (kept.Pairwise fun a b => sameFingerprint (fingerprint a) (fingerprint b) = false) ∧
      kept ⊆ rows ∧
      (∀ r ∈ rows, ∃ k ∈ kept, k = r ∨ sameFingerprint (fingerprint k) (fingerprint r) = true) ∧
      dedupeValues kept = .ok kept := by
  have hrows : ∀ r ∈ rows, Fit r := fun r hr => ⟨htruthy r hr, hkeys r hr⟩
  obtain ⟨firsts, hfirsts, hbest⟩ := bestOf_dedupe hrows
  have hdistinct := distinct_of_bestOf hrows hfirsts.nodup hbest
  have hsubset : dedupe rows ⊆ rows := fun r hr => (exists_first_of_mem hbest hr).1
  refine ⟨dedupe rows, dedupeValues_eq hobject hkeys, ⟨firsts, hfirsts, hbest⟩, hdistinct, hsubset,
    fun r hr => exists_kept hrows hfirsts hbest hr, ?_⟩
  rw [dedupeValues_eq (fun r hr => hobject r (hsubset hr)) fun r hr => hkeys r (hsubset hr),
    dedupe_of_distinct hdistinct]

def foundAt (line : Int) (ruleId severity kind : String) : Value :=
  .object [("type", .str kind), ("ruleId", .str ruleId), ("severity", .str severity), ("line", .int line),
    ("match", .str "m"), ("absolutePath", .str "/p/a.php")]

/-- Three rows of a problem at the first line, the last two of the same rank, and one of another problem
between them. -/
def tiedRows : List Value :=
  [foundAt 1 "SQL" "Low" "", foundAt 1 "MYSQL" "High" "ASTAnalysis", foundAt 2 "XSS" "Low" "",
    foundAt 1 "PDO" "High" "ASTAnalysis"]

/-- The second of the three rows is kept, in the place of the first. -/
theorem dedupe_keeps_best_tied :
    ∃ kept, dedupeValues tiedRows = .ok kept ∧
      Value.sameLists kept [foundAt 1 "MYSQL" "High" "ASTAnalysis", foundAt 2 "XSS" "Low" ""] = true ∧
      dedupeValues kept = .ok kept := by
  have heval : (dedupeValues tiedRows).toOption.any
      (Value.sameLists · [foundAt 1 "MYSQL" "High" "ASTAnalysis", foundAt 2 "XSS" "Low" ""]) = true := by
    decide +kernel
  obtain ⟨kept, hok, -, -, -, -, hagain⟩ := dedupe_keeps_best (show ∀ r ∈ tiedRows, r.isObject = true by decide +kernel)
    (by decide +kernel) (by unfold Comparable; decide +kernel)
  rw [hok, Except.toOption, Option.any_some] at heval
  exact ⟨kept, hok, heval, hagain⟩

end Scan

end SourceAudit
