/-
# Rounding to the 64-bit format

A positive number of the format is `m · 2 ^ e` with `m < 2 ^ 53`, where `e` is the least
exponent of the format unless `2 ^ 52 ≤ m` (`Fits`). Rounding gives such a number, zero
or infinity (`ofNonneg_cases`). A fraction that is nearer to a number of the format than
half of its last place is rounded to it (`ofNonneg_near`); just below `2 ^ 52 · 2 ^ e`
the numbers lie twice as close. Rounding never crosses a number of the format
(`ofRat_le`, `le_ofRat`).

Of the two decimals with seventeen digits next to a number of the format, the nearer one
is rounded to that number, since `2 ^ 53 < 10 ^ 16` (`isSome_seventeen`). So the search
for the shortest decimal ends with one that reads back (`shortest_spec`).
-/
import Mathlib.Data.Rat.Floor
import Mathlib.Tactic.FieldSimp
import Mathlib.Tactic.Linarith
import Mathlib.Tactic.NormNum
import Mathlib.Tactic.Positivity
import Mathlib.Tactic.Ring
import SourceAudit.Number.Double

namespace SourceAudit.Double

variable {q v x : Rat} {e i : Int} {n m k : Nat}

theorem ite_pow_eq (b : Nat) (e : Int) :
    (if 0 ≤ e then (Nat.pow b e.toNat : Rat) else 1 / (Nat.pow b (-e).toNat : Rat)) = (b : Rat) ^ e := by
  split_ifs with he
  · obtain ⟨n, rfl⟩ := Int.eq_ofNat_of_zero_le he
    simp
  · obtain ⟨n, hn⟩ := Int.eq_ofNat_of_zero_le (by omega : 0 ≤ -e)
    have hneg : e = -(n : Int) := by omega
    rw [hneg]
    simp [zpow_neg]

theorem pow2_eq (e : Int) : pow2 e = (2 : Rat) ^ e := ite_pow_eq 2 e

theorem pow10_eq (e : Int) : pow10 e = (10 : Rat) ^ e := ite_pow_eq 10 e

/-! ### The nearest integer -/

theorem abs_sub_roundEven_le (q : Rat) : |q - roundEven q| ≤ 1 / 2 := by
  have hlow : (q.floor : Rat) ≤ q := Int.floor_le q
  have hhigh : q < q.floor + 1 := Int.lt_floor_add_one q
  rw [abs_le]
  unfold roundEven
  dsimp only
  split_ifs <;> push_cast <;> constructor <;> linarith

theorem eq_of_abs_sub_lt {j : Int} (h : |(i : Rat) - j| < 1) : i = j := by
  have hcast : |i - j| < 1 := by exact_mod_cast h
  have hzero := Int.abs_lt_one_iff.mp hcast
  omega

theorem roundEven_eq {n : Int} (h : |q - n| < 1 / 2) : roundEven q = n := by
  apply eq_of_abs_sub_lt
  have hround := abs_sub_roundEven_le q
  rw [abs_le] at hround
  rw [abs_lt] at h ⊢
  constructor <;> linarith

theorem le_roundEven {n : Int} (h : (n : Rat) ≤ q) : n ≤ roundEven q := by
  have hround := abs_le.mp (abs_sub_roundEven_le q)
  have hlt : (n : Rat) < roundEven q + 1 := by linarith
  have hcast : n < roundEven q + 1 := by exact_mod_cast hlt
  omega

theorem roundEven_le {n : Int} (h : q ≤ n) : roundEven q ≤ n := by
  have hround := abs_le.mp (abs_sub_roundEven_le q)
  have hlt : (roundEven q : Rat) < n + 1 := by linarith
  have hcast : roundEven q < n + 1 := by exact_mod_cast hlt
  omega

/-! ### The last place -/

/-- A fraction lies between the powers of a base next to the quotient of its parts. -/
theorem quotient_bounds {b : Nat} (hb : 1 < b) (hq : 0 < q) {i j : Nat} (hi : b ^ i ≤ q.num.toNat)
    (hi' : q.num.toNat < b ^ (i + 1)) (hj : b ^ j ≤ q.den) (hj' : q.den < b ^ (j + 1)) :
    (b : Rat) ^ ((i : Int) - j - 1) < q ∧ q < (b : Rat) ^ ((i : Int) - j + 1) := by
  have hb0 : (0 : Rat) < b := by exact_mod_cast (by omega : 0 < b)
  have hden : (0 : Rat) < q.den := by exact_mod_cast q.den_pos
  have hparts : (q.num.toNat : Rat) / q.den = q := by
    have hnum : ((q.num.toNat : Int) : Rat) = q.num := by rw [Int.toNat_of_nonneg (Rat.num_nonneg.mpr hq.le)]
    rw [← Int.cast_natCast, hnum, Rat.num_div_den]
  have hquotient (k l : Nat) : (b : Rat) ^ ((k : Int) - l) = (b : Rat) ^ k / (b : Rat) ^ l := by
    rw [zpow_sub₀ hb0.ne', zpow_natCast, zpow_natCast]
  have hi : (b : Rat) ^ i ≤ q.num.toNat := by exact_mod_cast hi
  have hi' : (q.num.toNat : Rat) < (b : Rat) ^ (i + 1) := by exact_mod_cast hi'
  have hj : (b : Rat) ^ j ≤ q.den := by exact_mod_cast hj
  have hj' : (q.den : Rat) < (b : Rat) ^ (j + 1) := by exact_mod_cast hj'
  constructor
  · -- the numerator is at least `b ^ i`, the denominator below `b ^ (j + 1)`
    calc (b : Rat) ^ ((i : Int) - j - 1) = (b : Rat) ^ i / (b : Rat) ^ (j + 1) := by
          rw [sub_sub, ← hquotient i (j + 1), Nat.cast_succ]
      _ < (q.num.toNat : Rat) / q.den := div_lt_div₀' hi hj' (lt_of_lt_of_le (pow_pos hb0 i) hi) hden
      _ = q := hparts
  · calc q = (q.num.toNat : Rat) / q.den := hparts.symm
      _ < (b : Rat) ^ (i + 1) / (b : Rat) ^ j := div_lt_div₀ hi' hj (pow_pos hb0 _).le (pow_pos hb0 j)
      _ = (b : Rat) ^ ((i : Int) - j + 1) := by rw [← hquotient (i + 1) j, Nat.cast_succ, add_sub_right_comm]

theorem toNat_num_pos (hq : 0 < q) : 0 < q.num.toNat := by
  have := Rat.num_pos.mpr hq
  omega

theorem two_zpow_pos (e : Int) : (0 : Rat) < (2 : Rat) ^ e := zpow_pos (by norm_num) e

theorem two_zpow_succ (e : Int) : (2 : Rat) ^ (e + 1) = 2 * (2 : Rat) ^ e := by
  rw [zpow_add_one₀ (by norm_num), mul_comm]

theorem two_mul_zpow_le {f : Int} (h : e < f) : 2 * (2 : Rat) ^ e ≤ 2 ^ f := by
  rw [← two_zpow_succ]
  exact zpow_le_zpow_right₀ (by norm_num) (by omega)

theorem lastPlace_spec (hq : 0 < q) : -1074 ≤ lastPlace q ∧ q < 2 ^ 53 * (2 : Rat) ^ lastPlace q ∧
      (lastPlace q = -1074 ∨ 2 ^ 52 * (2 : Rat) ^ lastPlace q ≤ q) := by
  have hnum := toNat_num_pos hq
  obtain ⟨hlow, hhigh⟩ := quotient_bounds one_lt_two hq (Nat.log2_self_le hnum.ne') Nat.lt_log2_self
    (Nat.log2_self_le q.den_nz) Nat.lt_log2_self
  unfold lastPlace
  dsimp only
  generalize hg : (q.num.toNat.log2 : Int) - (q.den.log2 : Int) - 53 = g
  have hgpos := two_zpow_pos g
  have hlow : 2 ^ 52 * (2 : Rat) ^ g < q := by
    refine lt_of_eq_of_lt ?_ hlow
    rw [← zpow_natCast, ← zpow_add₀ (by norm_num)]
    push_cast
    congr 1
    omega
  have hhigh : q < 2 ^ 54 * (2 : Rat) ^ g := by
    refine lt_of_lt_of_eq hhigh ?_
    rw [← zpow_natCast, ← zpow_add₀ (by norm_num)]
    push_cast
    congr 1
    omega
  -- the exponent before it is raised to the least one of the format
  have hexact : ∀ e, (if q / pow2 g < pow2 53 then g else g + 1) = e →
      q < 2 ^ 53 * (2 : Rat) ^ e ∧ 2 ^ 52 * (2 : Rat) ^ e ≤ q := by
    intro e he
    have hsmall : q / pow2 g < pow2 53 ↔ q < 2 ^ 53 * (2 : Rat) ^ g := by
      rw [pow2_eq, pow2_eq, div_lt_iff₀ hgpos]
      norm_num
    split_ifs at he with hcase
    · rw [← he]
      exact ⟨hsmall.mp hcase, hlow.le⟩
    · rw [hsmall, not_lt] at hcase
      rw [← he, two_zpow_succ]
      norm_num at hcase hhigh ⊢
      constructor <;> linarith
  generalize he : (if q / pow2 g < pow2 53 then g else g + 1) = e
  obtain ⟨hlt, hle⟩ := hexact e he
  split_ifs with hleast
  · refine ⟨le_rfl, hlt.trans ?_, .inl rfl⟩
    exact mul_lt_mul_of_pos_left (zpow_lt_zpow_right₀ (by norm_num) hleast) (by norm_num)
  · exact ⟨by omega, hlt, .inr hle⟩

/-- The last place is the only exponent of the format between these bounds. -/
theorem lastPlace_eq (hq : 0 < q) (hlow : -1074 ≤ e) (hlt : q < 2 ^ 53 * (2 : Rat) ^ e)
    (hle : e = -1074 ∨ 2 ^ 52 * (2 : Rat) ^ e ≤ q) : lastPlace q = e := by
  obtain ⟨hlow', hlt', hle'⟩ := lastPlace_spec hq
  -- a smaller exponent of the two would leave no room
  have hroom : ∀ {i j : Int}, i < j → q < 2 ^ 53 * (2 : Rat) ^ i → 2 ^ 52 * (2 : Rat) ^ j ≤ q → False := by
    intro i j hij hi hj
    have hstep := two_mul_zpow_le hij
    norm_num at hi hj
    linarith
  rcases lt_trichotomy (lastPlace q) e with hcase | hcase | hcase
  · rcases hle with hle | hle
    · omega
    · exact (hroom hcase hlt' hle).elim
  · exact hcase
  · rcases hle' with hle' | hle'
    · omega
    · exact (hroom hcase hlt hle').elim

/-! ### Numbers of the format -/

/-- `m · 2 ^ e` is a positive number of the format with its last place at `e`. -/
structure Fits (m : Nat) (e : Int) : Prop where
  pos : 0 < m
  lt : m < 2 ^ 53
  low : -1074 ≤ e
  normal : e = -1074 ∨ 2 ^ 52 ≤ m
  finite : (m : Rat) * 2 ^ e < 2 ^ (1024 : Int)

def IsFormat (v : Rat) : Prop := ∃ m e, Fits m e ∧ v = (m : Rat) * 2 ^ e

theorem IsFormat.pos (h : IsFormat v) : 0 < v := by
  obtain ⟨m, e, hfits, rfl⟩ := h
  have hm : (0 : Rat) < m := by exact_mod_cast hfits.pos
  exact mul_pos hm (two_zpow_pos e)

/-- **What a fraction is rounded to**: zero, infinity, or a number of the format. -/
theorem ofNonneg_cases (hq : 0 ≤ q) :
    ofNonneg q = .finite 0 ∨ ofNonneg q = .infinite false ∨ ∃ v, IsFormat v ∧ ofNonneg q = .finite v := by
  unfold ofNonneg
  by_cases hzero : q = 0
  · rw [if_pos hzero]
    exact .inl rfl
  rw [if_neg hzero]
  have hpos : 0 < q := lt_of_le_of_ne hq (Ne.symm hzero)
  obtain ⟨hlow, hlt, hle⟩ := lastPlace_spec hpos
  dsimp only
  rw [pow2_eq, pow2_eq]
  generalize lastPlace q = e at hlow hlt hle ⊢
  have hepos := two_zpow_pos e
  generalize hk : roundEven (q / (2 : Rat) ^ e) = k
  have hk0 : 0 ≤ k := by
    rw [← hk]
    exact le_roundEven (by push_cast; positivity)
  have hkle : k ≤ 2 ^ 53 := by
    rw [← hk]
    exact roundEven_le (by push_cast; rw [div_le_iff₀ hepos]; exact hlt.le)
  have hnormal : e = -1074 ∨ 2 ^ 52 ≤ k := by
    refine hle.imp_right fun hle => ?_
    rw [← hk]
    exact le_roundEven (by push_cast; rw [le_div_iff₀ hepos]; exact hle)
  obtain ⟨m, rfl⟩ := Int.eq_ofNat_of_zero_le hk0
  rw [Int.cast_natCast]
  by_cases hbig : (2 : Rat) ^ (1024 : Int) ≤ (m : Rat) * 2 ^ e
  · rw [if_pos hbig]
    exact .inr (.inl rfl)
  rw [if_neg hbig]
  rw [not_le] at hbig
  by_cases hm : m = 0
  · left
    rw [hm]
    simp
  refine .inr (.inr ⟨_, ?_, rfl⟩)
  by_cases hcarry : m = 2 ^ 53
  · -- the carry gives the least number with the next exponent
    refine ⟨2 ^ 52, e + 1, ⟨by norm_num, by norm_num, by omega, .inr le_rfl, ?_⟩, ?_⟩
    · refine lt_of_eq_of_lt ?_ hbig
      rw [hcarry, two_zpow_succ]
      push_cast
      ring
    · rw [hcarry, two_zpow_succ]
      push_cast
      ring
  · have hlt53 : m < 2 ^ 53 := by
      have : (m : Int) ≤ 2 ^ 53 := hkle
      omega
    have hnormal : e = -1074 ∨ 2 ^ 52 ≤ m := hnormal.imp_right fun h => by exact_mod_cast h
    exact ⟨m, e, ⟨by omega, hlt53, hlow, hnormal, hbig⟩, rfl⟩

theorem ofNonneg_eq (hx : 0 < x) {k : Int} (he : lastPlace x = e) (hk : |x / 2 ^ e - k| < 1 / 2)
    (hfinite : (k : Rat) * 2 ^ e < 2 ^ (1024 : Int)) : ofNonneg x = .finite (k * 2 ^ e) := by
  unfold ofNonneg
  dsimp only
  rw [if_neg hx.ne', he, pow2_eq, pow2_eq, roundEven_eq hk, if_neg (not_le.mpr hfinite)]

/-- **What lies near a number of the format is rounded to it.** -/
theorem ofNonneg_near (h : Fits m e) (hx : |x - m * 2 ^ e| < (2 : Rat) ^ e / 2)
    (hquarter : m = 2 ^ 52 → |x - m * 2 ^ e| < (2 : Rat) ^ e / 4) : ofNonneg x = .finite (m * 2 ^ e) := by
  obtain ⟨hpos, hlt, hlow, hnormal, hfinite⟩ := h
  have hepos := two_zpow_pos e
  obtain ⟨hleft, hright⟩ := abs_lt.mp hx
  have hm1 : (1 : Rat) ≤ m := by exact_mod_cast hpos
  have hmlt : (m : Rat) + 1 ≤ 2 ^ 53 := by exact_mod_cast hlt
  have hxpos : 0 < x := by nlinarith
  have hxlt : x < 2 ^ 53 * (2 : Rat) ^ e := by nlinarith
  by_cases hplace : e = -1074 ∨ 2 ^ 52 * (2 : Rat) ^ e ≤ x
  · have hk : |x / 2 ^ e - (m : Int)| < 1 / 2 := by
      rw [Int.cast_natCast, div_sub' hepos.ne', abs_div, abs_of_pos hepos, div_lt_iff₀ hepos, mul_comm ((2 : Rat) ^ e)]
      linarith
    have heq := ofNonneg_eq hxpos (lastPlace_eq hxpos hlow hxlt hplace) hk (by exact_mod_cast hfinite)
    rwa [Int.cast_natCast] at heq
  · -- below the least number with this exponent the last place is one further down
    rw [not_or, not_le] at hplace
    obtain ⟨hleast, hbelow⟩ := hplace
    have hm52 : m = 2 ^ 52 := by
      have hge := hnormal.resolve_left hleast
      by_contra hne
      have hgt : 2 ^ 52 + 1 ≤ m := by omega
      have hgt : (2 : Rat) ^ 52 + 1 ≤ m := by exact_mod_cast hgt
      nlinarith
    have hnear := hquarter hm52
    obtain ⟨hnear, -⟩ := abs_lt.mp hnear
    have hm52' : (m : Rat) = 2 ^ 52 := by rw [hm52]; norm_num
    have hhalf : (2 : Rat) ^ e = 2 * (2 : Rat) ^ (e - 1) := by rw [← two_zpow_succ, sub_add_cancel]
    have hhalfpos := two_zpow_pos (e - 1)
    rw [hm52', hhalf] at hnear ⊢
    rw [hhalf] at hbelow
    norm_num at hnear hbelow
    have hplace : lastPlace x = e - 1 := by
      refine lastPlace_eq hxpos (by omega) ?_ (.inr ?_)
      · norm_num
        linarith
      · norm_num
        linarith
    have hk : |x / 2 ^ (e - 1) - (2 ^ 53 : Int)| < 1 / 2 := by
      push_cast
      rw [div_sub' hhalfpos.ne', abs_div, abs_of_pos hhalfpos, div_lt_iff₀ hhalfpos, abs_lt]
      norm_num
      constructor <;> linarith
    have hvalue : ((2 ^ 53 : Int) : Rat) * (2 : Rat) ^ (e - 1) = 2 ^ 52 * (2 * (2 : Rat) ^ (e - 1)) := by
      push_cast
      ring
    rw [← hvalue]
    refine ofNonneg_eq hxpos hplace hk ?_
    rw [hvalue, ← hhalf, ← hm52']
    exact hfinite

/-! ### Rounding keeps the order -/

theorem exists_int_mul_zpow (m : Nat) {f : Int} (h : f ≤ e) : ∃ k : Int, (m : Rat) * 2 ^ e = k * 2 ^ f := by
  obtain ⟨n, hn⟩ := Int.eq_ofNat_of_zero_le (by omega : 0 ≤ e - f)
  have he : e = (n : Int) + f := by omega
  refine ⟨m * 2 ^ n, ?_⟩
  rw [he, zpow_add₀ (by norm_num), zpow_natCast]
  push_cast
  ring

/-- The last place of a fraction is not before that of a number of the format below it. -/
theorem Fits.le_lastPlace (h : Fits m e) (hle : (m : Rat) * 2 ^ e ≤ q) : e ≤ lastPlace q := by
  have hpos : (0 : Rat) < m * 2 ^ e := IsFormat.pos ⟨m, e, h, rfl⟩
  obtain ⟨hlow, hlt, -⟩ := lastPlace_spec (hpos.trans_le hle)
  by_contra hbefore
  have hm : (2 : Rat) ^ 52 ≤ m := by exact_mod_cast h.normal.resolve_left (by omega)
  have hstep := two_mul_zpow_le (not_le.mp hbefore)
  have hepos := two_zpow_pos e
  nlinarith

theorem Fits.lastPlace_le (h : Fits m e) (hq : 0 < q) (hle : q ≤ (m : Rat) * 2 ^ e) : lastPlace q ≤ e := by
  obtain ⟨-, -, hnormal⟩ := lastPlace_spec hq
  by_contra hafter
  have hlow := h.low
  have hq52 := hnormal.resolve_left (by omega)
  have hm : (m : Rat) < 2 ^ 53 := by exact_mod_cast h.lt
  have hstep := two_mul_zpow_le (not_le.mp hafter)
  have hepos := two_zpow_pos e
  nlinarith

theorem two_pow_lt_limit : (2 : Rat) ^ 53 < 2 ^ (1024 : Int) := by
  rw [← zpow_natCast]
  exact zpow_lt_zpow_right₀ (by norm_num) (by norm_num)

/-- What lies above a number of the format is not rounded below it. -/
theorem le_ofNonneg (hv : IsFormat v) (h : v ≤ q) :
    ofNonneg q = .infinite false ∨ ∃ r, ofNonneg q = .finite r ∧ v ≤ r := by
  have hq : 0 < q := hv.pos.trans_le h
  obtain ⟨m, e, hfits, rfl⟩ := hv
  have hplace := hfits.le_lastPlace h
  obtain ⟨-, -, hnormal⟩ := lastPlace_spec hq
  unfold ofNonneg
  rw [if_neg hq.ne']
  dsimp only
  rw [pow2_eq, pow2_eq]
  generalize lastPlace q = f at hplace hnormal ⊢
  have hfpos := two_zpow_pos f
  -- a multiple of the last place lies between the two
  have hgrid : ∃ k : Int, (m : Rat) * 2 ^ e ≤ k * 2 ^ f ∧ (k : Rat) * 2 ^ f ≤ q := by
    rcases hplace.eq_or_lt with rfl | hlt
    · exact ⟨m, by simp, by simpa using h⟩
    · have hlow := hfits.low
      have hm : (m : Rat) < 2 ^ 53 := by exact_mod_cast hfits.lt
      have hstep := two_mul_zpow_le hlt
      have hepos := two_zpow_pos e
      refine ⟨2 ^ 52, ?_, ?_⟩
      · push_cast
        nlinarith
      · push_cast
        exact hnormal.resolve_left (by omega)
  obtain ⟨k, hvk, hkq⟩ := hgrid
  have hk : (k : Rat) ≤ roundEven (q / 2 ^ f) := by
    exact_mod_cast le_roundEven ((le_div_iff₀ hfpos).mpr hkq)
  split_ifs
  · exact .inl rfl
  · exact .inr ⟨_, rfl, hvk.trans (mul_le_mul_of_nonneg_right hk hfpos.le)⟩

/-- What lies below a number of the format is not rounded above it. -/
theorem ofNonneg_le (hv : IsFormat v) (hq : 0 ≤ q) (h : q ≤ v) : ∃ r, ofNonneg q = .finite r ∧ r ≤ v := by
  rcases hq.eq_or_lt with rfl | hq
  · exact ⟨0, by simp [ofNonneg], hv.pos.le⟩
  obtain ⟨m, e, hfits, rfl⟩ := hv
  obtain ⟨k, hk⟩ := exists_int_mul_zpow m (hfits.lastPlace_le hq h)
  have hfpos := two_zpow_pos (lastPlace q)
  have hround : (roundEven (q / 2 ^ lastPlace q) : Rat) ≤ k := by
    exact_mod_cast roundEven_le ((div_le_iff₀ hfpos).mpr (hk ▸ h))
  have hle : (roundEven (q / 2 ^ lastPlace q) : Rat) * 2 ^ lastPlace q ≤ m * 2 ^ e := by
    rw [hk]
    exact mul_le_mul_of_nonneg_right hround hfpos.le
  refine ⟨_, ?_, hle⟩
  unfold ofNonneg
  dsimp only
  rw [if_neg hq.ne', pow2_eq, pow2_eq, if_neg (not_le.mpr (hle.trans_lt hfits.finite))]

theorem ofNonneg_natCast (h : k < 2 ^ 53) : ofNonneg k = .finite k := by
  by_cases hk : k = 0
  · simp [hk, ofNonneg]
  have hpos : (0 : Rat) < k := by exact_mod_cast Nat.pos_of_ne_zero hk
  have hlt : (k : Rat) < 2 ^ 53 := by exact_mod_cast h
  obtain ⟨-, -, hnormal⟩ := lastPlace_spec hpos
  generalize hf : lastPlace k = f at hnormal
  have hplace : f ≤ 0 := by
    by_contra hafter
    have hstep := two_mul_zpow_le (not_le.mp hafter)
    have hk52 := hnormal.resolve_left (by omega)
    rw [zpow_zero] at hstep
    linarith
  obtain ⟨n, hn⟩ := exists_int_mul_zpow k hplace
  rw [zpow_zero, mul_one] at hn
  have hround : |(k : Rat) / 2 ^ f - n| < 1 / 2 := by
    rw [hn, mul_div_cancel_right₀ _ (two_zpow_pos f).ne']
    norm_num
  have heq := ofNonneg_eq hpos hf hround (by rw [← hn]; exact hlt.trans two_pow_lt_limit)
  rwa [← hn] at heq

theorem IsFormat.exists_multiple (hv : IsFormat v) {g : Int} (h : 2 ^ 52 * (2 : Rat) ^ g ≤ v) :
    ∃ k : Int, v = k * 2 ^ g := by
  obtain ⟨m, e, hfits, rfl⟩ := hv
  refine exists_int_mul_zpow m ?_
  by_contra hbefore
  have hm : (m : Rat) < 2 ^ 53 := by exact_mod_cast hfits.lt
  have hstep := two_mul_zpow_le (not_le.mp hbefore)
  have hepos := two_zpow_pos e
  nlinarith

/-! ### Numbers with a sign -/

theorem ofRat_le (hv : IsFormat v) (h : x ≤ v) :
    ofRat x = .infinite true ∨ ∃ r, (ofRat x).toRat? = some r ∧ r ≤ v := by
  unfold ofRat
  split_ifs with hneg
  · have hpos := hv.pos
    rcases ofNonneg_cases (neg_nonneg.mpr hneg.le) with hr | hr | ⟨r, hr, hcase⟩
    · exact .inr ⟨0, by rw [hr]; rfl, hpos.le⟩
    · exact .inl (by rw [hr]; rfl)
    · have hrpos := hr.pos
      exact .inr ⟨-r, by rw [hcase, neg, if_neg hrpos.ne']; rfl, by linarith⟩
  · obtain ⟨r, hr, hle⟩ := ofNonneg_le hv (not_lt.mp hneg) h
    exact .inr ⟨r, by rw [hr]; rfl, hle⟩

theorem le_ofRat (hv : IsFormat v) (h : v ≤ x) :
    ofRat x = .infinite false ∨ ∃ r, (ofRat x).toRat? = some r ∧ v ≤ r := by
  have hpos := hv.pos
  rw [ofRat, if_neg (by linarith)]
  exact (le_ofNonneg hv h).imp_right fun ⟨r, hr, hle⟩ => ⟨r, by rw [hr]; rfl, hle⟩

theorem toRat?_neg (d : Double) : d.neg.toRat? = d.toRat?.map (- ·) := by
  cases d with
  | finite v =>
    rw [neg]
    split_ifs with hzero
    · simp [toRat?, hzero]
    · rfl
  | _ => simp [neg, toRat?]

/-! ### Integers -/

theorem isFormat_two_pow : IsFormat (2 ^ 53) := by
  have hvalue : (2 : Rat) ^ 53 = (2 ^ 52 : Nat) * 2 ^ (1 : Int) := by norm_num
  exact ⟨2 ^ 52, 1, ⟨by norm_num, by norm_num, by norm_num, .inr le_rfl, hvalue ▸ two_pow_lt_limit⟩, hvalue⟩

/-- An integer is held as it is, if it is not too large; the others stay as large. -/
theorem ofInt_cases {r : Rat} (h : (ofInt i).toRat? = some r) :
    r = i ∨ (2 ^ 53 ≤ (i : Rat) ∧ 2 ^ 53 ≤ r) ∨ ((i : Rat) ≤ -2 ^ 53 ∧ r ≤ -2 ^ 53) := by
  have hnat : ∀ {k : Nat} {r : Rat}, (ofNonneg k).toRat? = some r → r = k ∨ (2 ^ 53 ≤ (k : Rat) ∧ 2 ^ 53 ≤ r) := by
    intro k r hr
    by_cases hk : k < 2 ^ 53
    · rw [ofNonneg_natCast hk] at hr
      exact .inl (Option.some.inj hr).symm
    · have hlarge : (2 : Rat) ^ 53 ≤ k := by exact_mod_cast not_lt.mp hk
      rcases le_ofNonneg isFormat_two_pow hlarge with hinf | ⟨r', hr', hle⟩
      · rw [hinf] at hr
        exact absurd hr (by simp [toRat?])
      · rw [hr'] at hr
        exact .inr ⟨hlarge, Option.some.inj hr ▸ hle⟩
  unfold ofInt ofRat at h
  split_ifs at h with hneg
  · have hpos : 0 < -(i : Rat) := neg_pos.mpr hneg
    obtain ⟨k, hk⟩ := Int.eq_ofNat_of_zero_le (by exact_mod_cast hpos.le : 0 ≤ -i)
    have hcast : -(i : Rat) = k := by exact_mod_cast hk
    rw [hcast, toRat?_neg] at h
    obtain ⟨r', hr', rfl⟩ := Option.map_eq_some_iff.mp h
    rcases hnat hr' with rfl | ⟨hlarge, hle⟩
    · exact .inl (by linarith)
    · exact .inr (.inr ⟨by linarith, by linarith⟩)
  · obtain ⟨k, rfl⟩ := Int.eq_ofNat_of_zero_le (by exact_mod_cast not_lt.mp hneg : 0 ≤ i)
    rw [Int.cast_natCast] at h ⊢
    exact (hnat h).imp_right .inl

theorem ofNonneg_two_pow : ofNonneg (2 ^ 53) = .finite (2 ^ 53) := by
  obtain ⟨r, hr, hle⟩ := ofNonneg_le isFormat_two_pow (by norm_num) le_rfl
  rcases le_ofNonneg isFormat_two_pow le_rfl with hinf | ⟨r', hr', hge⟩
  · cases hr.symm.trans hinf
  · obtain rfl : r = r' := by simpa [hr] using hr'
    rw [hr, le_antisymm hle hge]

theorem ofNonneg_natCast_le (h : k ≤ 2 ^ 53) : ofNonneg k = .finite k := by
  rcases h.lt_or_eq with h | rfl
  · exact ofNonneg_natCast h
  · exact_mod_cast ofNonneg_two_pow

/-- An integer up to `2 ^ 53` is held as it is. -/
theorem ofRat_intCast (hlow : -2 ^ 53 ≤ i) (hhigh : i ≤ 2 ^ 53) : ofRat i = .finite i := by
  rcases lt_or_ge i 0 with hneg | hpos
  · obtain ⟨k, hk⟩ := Int.eq_ofNat_of_zero_le (by omega : 0 ≤ -i)
    obtain rfl : i = -k := by omega
    have hcast : (0 : Rat) < k := by exact_mod_cast (by omega : 0 < k)
    rw [ofRat, if_pos (by push_cast; linarith)]
    push_cast
    rw [neg_neg, ofNonneg_natCast_le (by omega), neg, if_neg hcast.ne']
  · obtain ⟨k, rfl⟩ := Int.eq_ofNat_of_zero_le hpos
    rw [Int.cast_natCast, ofRat, if_neg (by simp), ofNonneg_natCast_le (by omega)]

theorem finite_sub (a b : Rat) : (finite a).sub (finite b) = ofRat (a - b) := rfl

theorem finite_add (a : Rat) {b : Rat} (hb : b ≠ 0) : (finite a).add (finite b) = ofRat (a + b) := by
  rw [add, neg, if_neg hb, finite_sub, sub_neg_eq_add]

theorem toRat?_ofRat_nonpos (h : q ≤ 0) : (ofRat q).toRat?.getD 0 ≤ 0 := by
  rcases h.lt_or_eq with h | rfl
  · rw [ofRat, if_pos h]
    rcases ofNonneg_cases (q := -q) (by linarith) with hr | hr | ⟨r, hr, hcase⟩
    · rw [hr]
      exact le_rfl
    · rw [hr]
      exact le_rfl
    · have hpos := hr.pos
      rw [hcase, neg, if_neg hpos.ne']
      exact neg_nonpos.mpr hpos.le
  · simp [ofRat, ofNonneg, toRat?]

/-- Less than zero stays so when one is taken away. -/
theorem toRat?_sub_one_nonpos {d : Double} (h : d.toRat?.getD 0 ≤ 0) : (d.sub (.finite 1)).toRat?.getD 0 ≤ 0 := by
  cases d with
  | finite v => exact toRat?_ofRat_nonpos (by simp [toRat?] at h ⊢; linarith)
  | negZero => exact toRat?_ofRat_nonpos (by simp [toRat?])
  | infinite n => exact le_rfl
  | undefined => exact le_rfl

/-! ### The first digit -/

theorem length_toDigits_bounds (hn : 0 < n) :
    ∃ k, (Nat.toDigits 10 n).length = k + 1 ∧ 10 ^ k ≤ n ∧ n < 10 ^ (k + 1) := by
  obtain ⟨k, hk⟩ := Nat.exists_eq_add_of_lt (Nat.length_toDigits_pos (b := 10) (n := n))
  rw [Nat.zero_add] at hk
  refine ⟨k, hk, ?_, (Nat.length_toDigits_le_iff (by decide) (by omega)).mp hk.le⟩
  by_contra hlt
  have hkpos : 0 < k := by
    by_contra hzero
    have hk0 : k = 0 := by omega
    rw [hk0, pow_zero] at hlt
    omega
  have hle := (Nat.length_toDigits_le_iff (by decide : 1 < 10) hkpos).mpr (not_le.mp hlt)
  omega

theorem two_pow_lt_ten_pow : 2 ^ 1074 < 10 ^ 325 ∧ 2 ^ 1024 < 10 ^ 309 := by decide +kernel

theorem ten_zpow_pos (e : Int) : (0 : Rat) < (10 : Rat) ^ e := zpow_pos (by norm_num) e

theorem leadingExponent_spec (hq : 0 < q) :
    (10 : Rat) ^ leadingExponent q ≤ q ∧ q < (10 : Rat) ^ (leadingExponent q + 1) := by
  obtain ⟨i, hi, hnum, hnum'⟩ := length_toDigits_bounds (toNat_num_pos hq)
  obtain ⟨j, hj, hden, hden'⟩ := length_toDigits_bounds q.den_pos
  obtain ⟨hlow, hhigh⟩ := quotient_bounds (by decide : 1 < 10) hq hnum hnum' hden hden'
  have hguess : ((i + 1 : Nat) : Int) - ((j + 1 : Nat) : Int) = (i : Int) - j := by
    push_cast
    ring
  unfold leadingExponent
  dsimp only
  simp only [hi, hj, hguess, pow10_eq]
  norm_num at hlow hhigh
  split_ifs with hcase
  · exact ⟨hcase, hhigh⟩
  · rw [sub_add_cancel]
    exact ⟨hlow.le, not_le.mp hcase⟩

theorem leadingExponent_bounds (hv : IsFormat v) : -325 ≤ leadingExponent v ∧ leadingExponent v ≤ 308 := by
  obtain ⟨m, e, h, rfl⟩ := hv
  have hmpos : (1 : Rat) ≤ m := by exact_mod_cast h.pos
  have hleast : (2 : Rat) ^ (-1074 : Int) ≤ m * 2 ^ e := by
    have hpow : (2 : Rat) ^ (-1074 : Int) ≤ 2 ^ e := zpow_le_zpow_right₀ (by norm_num) h.low
    have hpos := two_zpow_pos e
    nlinarith
  obtain ⟨hle, hlt⟩ := leadingExponent_spec (lt_of_lt_of_le (two_zpow_pos _) hleast)
  constructor
  · by_contra hcase
    have hpow : (10 : Rat) ^ (leadingExponent (m * 2 ^ e) + 1) ≤ 10 ^ (-325 : Int) :=
      zpow_le_zpow_right₀ (by norm_num) (by omega)
    have hbound : (10 : Rat) ^ (-325 : Int) < (2 : Rat) ^ (-1074 : Int) := by
      rw [zpow_neg, zpow_neg]
      exact inv_strictAnti₀ (two_zpow_pos 1074) (by exact_mod_cast two_pow_lt_ten_pow.1)
    linarith
  · by_contra hcase
    have hpow : (10 : Rat) ^ (309 : Int) ≤ 10 ^ leadingExponent (m * 2 ^ e) :=
      zpow_le_zpow_right₀ (by norm_num) (by omega)
    have hbound : (2 : Rat) ^ (1024 : Int) < (10 : Rat) ^ (309 : Int) := by
      exact_mod_cast two_pow_lt_ten_pow.2
    exact absurd (h.finite.trans hbound) (not_lt.mpr (hpow.trans hle))

/-! ### The two decimals next to a number -/

theorem shortCandidate?_eq_some {lead : Int} {c : Nat} (h : shortCandidate? q lead n = some c) :
    ofNonneg (c * 10 ^ (lead - n + 1)) = .finite q ∧ c ≤ (q / 10 ^ (lead - n + 1)).floor.toNat + 1 := by
  unfold shortCandidate? at h
  dsimp only at h
  rw [pow10_eq] at h
  split_ifs at h with hfirst hreads hreads' hreads hreads' <;> cases h <;>
    simp_all only [beq_iff_eq, Nat.cast_add, Nat.cast_one, le_add_iff_nonneg_right, zero_le, and_self, le_refl]

theorem isSome_shortCandidate? {lead : Int} {c : Nat}
    (hc : c = (q / 10 ^ (lead - n + 1)).floor.toNat ∨ c = (q / 10 ^ (lead - n + 1)).floor.toNat + 1)
    (hreads : ofNonneg (c * 10 ^ (lead - n + 1)) = .finite q) : (shortCandidate? q lead n).isSome = true := by
  unfold shortCandidate?
  dsimp only
  rw [pow10_eq]
  rcases hc with rfl | rfl
  · split_ifs <;> simp_all
  · split_ifs <;> simp_all

/-- Of the two multiples of a unit next to a fraction, one is at most half a unit away. -/
theorem exists_near_multiple {u : Rat} (hq : 0 < q) (hu : 0 < u) :
    ∃ c : Nat, (c = (q / u).floor.toNat ∨ c = (q / u).floor.toNat + 1) ∧ |c * u - q| ≤ u / 2 := by
  have hnonneg : 0 ≤ ⌊q / u⌋ := Int.floor_nonneg.mpr (by positivity)
  obtain ⟨c, hc⟩ : ∃ c : Nat, (q / u).floor = c := Int.eq_ofNat_of_zero_le hnonneg
  have hlow : ((q / u).floor : Rat) ≤ q / u := Int.floor_le (q / u)
  have hhigh : q / u < (q / u).floor + 1 := Int.lt_floor_add_one (q / u)
  rw [hc] at hlow hhigh ⊢
  rw [Int.cast_natCast, le_div_iff₀ hu] at hlow
  rw [Int.cast_natCast, div_lt_iff₀ hu] at hhigh
  by_cases hnear : q - c * u ≤ u / 2
  · refine ⟨c, .inl rfl, ?_⟩
    rw [abs_le]
    constructor <;> linarith
  · refine ⟨c + 1, .inr rfl, ?_⟩
    push_cast
    rw [abs_le]
    constructor <;> linarith

/-- **Seventeen digits are enough.** -/
theorem isSome_seventeen (hv : IsFormat v) : (shortCandidate? v (leadingExponent v) 17).isSome = true := by
  obtain ⟨m, e, h, rfl⟩ := hv
  have hepos := two_zpow_pos e
  have hmpos : (1 : Rat) ≤ m := by exact_mod_cast h.pos
  have hmlt : (m : Rat) < 9007199254740992 := by exact_mod_cast h.lt
  have hvpos : (0 : Rat) < m * 2 ^ e := by positivity
  obtain ⟨hlead, -⟩ := leadingExponent_spec hvpos
  generalize leadingExponent (m * 2 ^ e) = lead at hlead ⊢
  have hu := ten_zpow_pos (lead - (17 : Nat) + 1)
  obtain ⟨c, hc, hnear⟩ := exists_near_multiple hvpos hu
  refine isSome_shortCandidate? hc ?_
  -- the unit of the last digit is less than the last place, and than half of it at a power of two
  have hunit : (10 : Rat) ^ lead = 10 ^ 16 * 10 ^ (lead - (17 : Nat) + 1) := by
    rw [← zpow_natCast, ← zpow_add₀ (by norm_num)]
    congr 1
    push_cast
    ring
  rw [hunit] at hlead
  generalize (10 : Rat) ^ (lead - (17 : Nat) + 1) = u at hu hnear hlead ⊢
  have hsmall : u < 2 ^ e := by
    have hproduct := mul_lt_mul_of_pos_right hmlt hepos
    norm_num at hlead
    linarith
  refine ofNonneg_near h (lt_of_le_of_lt hnear (by linarith)) fun hm => ?_
  have hm : (m : Rat) = 2 ^ 52 := by
    rw [hm]
    norm_num
  have hsmaller : u < 2 ^ e / 2 := by
    rw [hm] at hlead
    norm_num at hlead
    linarith
  exact lt_of_le_of_lt hnear (by linarith)

/-! ### The search -/

theorem findSome?_range {α : Type} {f : Nat → Option α} (hk : k < n) (hf : (f k).isSome = true) :
    ∃ j a, j < n ∧ f j = some a ∧ (List.range n).findSome? f = some a ∧
      (List.range n).findIdx (fun k => (f k).isSome) = j := by
  have hsome : ((List.range n).findSome? f).isSome = true :=
    List.findSome?_isSome_iff.mpr ⟨k, List.mem_range.mpr hk, hf⟩
  obtain ⟨a, ha⟩ := Option.isSome_iff_exists.mp hsome
  obtain ⟨before, j, after, hrange, hj, hbefore⟩ := List.findSome?_eq_some_iff.mp ha
  have hlength : before.length < (List.range n).length := by
    rw [hrange]
    simp
  have hat : j = before.length := by
    have hget : (List.range n)[before.length]? = some before.length := by
      rw [List.length_range] at hlength
      simp [hlength]
    rw [hrange] at hget
    simpa using hget
  refine ⟨j, a, ?_, hj, ha, ?_⟩
  · rw [hat]
    simpa using hlength
  · have hnone : before.findIdx (fun k => (f k).isSome) = before.length := by
      rw [List.findIdx_eq_length]
      intro x hx
      rw [hbefore x hx]
      rfl
    rw [hrange, List.findIdx_append, hnone, if_neg (lt_irrefl _), List.findIdx_cons, hj, hat]
    simp

/-- **The digits of a number of the format** are those of a decimal that reads back, and they stand
where the decimal has them. -/
theorem shortest_spec (hv : IsFormat v) :
    ∃ c k : Nat, 0 < c ∧ k < 17 ∧ c ≤ 10 ^ (k + 1) ∧ ofNonneg (c * 10 ^ (leadingExponent v - k)) = .finite v ∧
      shortest v = (((Nat.toDigits 10 c).reverse.dropWhile (· == '0')).reverse,
        leadingExponent v + ((Nat.toDigits 10 c).length - (k + 1 : Nat))) := by
  have hvpos := hv.pos
  obtain ⟨k, c, hk, hcandidate, hfound, hgrid⟩ := findSome?_range
    (f := fun k => shortCandidate? v (leadingExponent v) (k + 1)) (by decide : 16 < 17) (isSome_seventeen hv)
  obtain ⟨hreads, hc⟩ := shortCandidate?_eq_some hcandidate
  have hexponent : leadingExponent v - ((k + 1 : Nat) : Int) + 1 = leadingExponent v - k := by
    push_cast
    ring
  rw [hexponent] at hreads hc
  refine ⟨c, k, ?_, hk, ?_, hreads, ?_⟩
  · -- zero does not read back as a positive number
    by_contra hzero
    have hc0 : c = 0 := by omega
    have hv0 : (0 : Rat) = v := by
      rw [hc0, Nat.cast_zero, zero_mul] at hreads
      exact Double.finite.inj hreads
    exact hvpos.ne hv0
  · -- the number has `k + 1` digits before the unit
    obtain ⟨-, hlt⟩ := leadingExponent_spec hvpos
    have hu := ten_zpow_pos (leadingExponent v - k)
    have hquotient : v / 10 ^ (leadingExponent v - k) < ((10 ^ (k + 1) : Nat) : Int) := by
      rw [div_lt_iff₀ hu]
      refine lt_of_lt_of_eq hlt ?_
      push_cast
      rw [← zpow_natCast, ← zpow_add₀ (by norm_num)]
      congr 1
      push_cast
      ring
    have hfloor : (v / 10 ^ (leadingExponent v - k)).floor < ((10 ^ (k + 1) : Nat) : Int) :=
      Int.floor_lt.mpr hquotient
    have hpos : 0 < 10 ^ (k + 1) := by positivity
    omega
  · unfold shortest
    dsimp only
    rw [hfound, hgrid]
    rfl

end SourceAudit.Double
