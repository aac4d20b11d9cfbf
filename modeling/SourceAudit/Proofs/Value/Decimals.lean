/-
# Binary fractions are read back

A number of the 64-bit format is written with the digits of a decimal that is rounded to
it (`written_shortest`). However the digits are set out, they are read as that decimal
(`unsigned?_parts`), and so as that number (`readsBack_of_isRead`). Every binary
fraction that is read is a number of the format, a zero, an infinity or undefined
(`isRead_ofDecimal`), so every value that is read can be written and read back
(`legible_of_read`).
-/
import Mathlib.Data.List.TakeWhile
import SourceAudit.Proofs.Number.Rounding
import SourceAudit.Proofs.Value.Json

namespace SourceAudit.Json

variable {rest decimals : List Char} {d : Double}

/-! ### Digits -/

theorem natOf_append_zeros (ds : List Char) : ∀ z, natOf (ds ++ List.replicate z '0') = natOf ds * 10 ^ z
  | 0 => by simp
  | z + 1 => by
    have ih := natOf_append_zeros ds z
    rw [List.replicate_succ', ← List.append_assoc, natOf, List.foldl_append]
    rw [natOf] at ih
    rw [ih, pow_succ, ← Nat.mul_assoc]
    rfl

theorem natOf_zeros_append : ∀ (z : Nat) (ds : List Char), natOf (List.replicate z '0' ++ ds) = natOf ds
  | 0, _ => rfl
  | z + 1, ds => natOf_zeros_append z ds

theorem exists_eq_append_zeros (cs : List Char) :
    ∃ z, cs = (cs.reverse.dropWhile (· == '0')).reverse ++ List.replicate z '0' := by
  refine ⟨(cs.reverse.takeWhile (· == '0')).length, ?_⟩
  have hzeros : cs.reverse.takeWhile (· == '0') = List.replicate (cs.reverse.takeWhile (· == '0')).length '0' := by
    rw [List.eq_replicate_iff]
    refine ⟨rfl, fun c hc => ?_⟩
    have htest := List.mem_takeWhile_imp hc
    exact eq_of_beq htest
  have hsplit := List.takeWhile_append_dropWhile (p := (· == '0')) (l := cs.reverse)
  calc cs = cs.reverse.reverse := (List.reverse_reverse cs).symm
    _ = (cs.reverse.takeWhile (· == '0') ++ cs.reverse.dropWhile (· == '0')).reverse := by rw [hsplit]
    _ = (cs.reverse.dropWhile (· == '0')).reverse ++ (cs.reverse.takeWhile (· == '0')).reverse := List.reverse_append
    _ = _ := by rw [hzeros, List.reverse_replicate, List.length_replicate]

theorem cast_mul_pow10_mul (n t : Nat) (s : Int) :
    ((n * 10 ^ t : Nat) : Rat) * (10 : Rat) ^ s = (n : Rat) * (10 : Rat) ^ ((t : Int) + s) := by
  push_cast
  rw [mul_assoc, ← zpow_natCast, ← zpow_add₀ (by norm_num)]

/-- The digits of a decimal that is rounded to a number, with the exponent of the first of them. -/
structure Written (v : Rat) (ds : List Char) (e : Int) : Prop where
  digits : ∀ c ∈ ds, c.isDigit = true
  head : ∃ c rest, ds = c :: rest ∧ c ≠ '0'
  bounds : 10 ^ (ds.length - 1) ≤ natOf ds ∧ natOf ds < 10 ^ ds.length
  low : -400 ≤ e
  high : e < 400
  reads : Double.ofNonneg (natOf ds * (10 : Rat) ^ (e + 1 - ds.length)) = .finite v

/-- **The shortest digits of a number** are those of a decimal that is rounded to it. -/
theorem written_shortest {v : Rat} (hv : Double.IsFormat v) : Written v (Double.shortest v).1 (Double.shortest v).2 := by
  obtain ⟨c, k, hc, hk, hcle, hreads, hshortest⟩ := Double.shortest_spec hv
  obtain ⟨hlow, hhigh⟩ := Double.leadingExponent_bounds hv
  obtain ⟨n, hn, hge, hlt⟩ := Double.length_toDigits_bounds hc
  obtain ⟨z, hz⟩ := exists_eq_append_zeros (Nat.toDigits 10 c)
  rw [hshortest]
  dsimp only
  generalize hds : ((Nat.toDigits 10 c).reverse.dropWhile (· == '0')).reverse = ds at hz ⊢
  have hdigits : ∀ d ∈ ds, d.isDigit = true := fun d hd =>
    isDigit_toDigits c d (by rw [hz]; exact List.mem_append_left _ hd)
  have hvalue : natOf ds * 10 ^ z = c := by
    rw [← natOf_append_zeros, ← hz, natOf_toDigits]
  have hlength : ds.length + z = n + 1 := by
    rw [← hn, hz, List.length_append, List.length_replicate]
  have hhead : ∃ d rest, ds = d :: rest ∧ d ≠ '0' := by
    cases hcons : ds with
    | nil =>
      rw [hcons, natOf, List.foldl_nil, Nat.zero_mul] at hvalue
      omega
    | cons d rest =>
      refine ⟨d, rest, rfl, ?_⟩
      rintro rfl
      have hzero := head?_toDigits (n := c) (by rw [hz, hcons]; rfl)
      omega
  have hpos : 0 < ds.length := by
    obtain ⟨d, rest, hcons, -⟩ := hhead
    rw [hcons]
    simp
  -- the number has at most one digit more than the grid
  have hnle : n ≤ k + 1 := by
    by_contra hcase
    have hpow : 10 ^ (k + 1) < 10 ^ n := Nat.pow_lt_pow_right (by decide) (by omega)
    omega
  have hpowz : 0 < 10 ^ z := by positivity
  refine ⟨hdigits, hhead, ⟨?_, ?_⟩, by rw [hn]; omega, by rw [hn]; omega, ?_⟩
  · refine Nat.le_of_mul_le_mul_right ?_ hpowz
    rw [hvalue, ← pow_add]
    have hexp : ds.length - 1 + z = n := by omega
    rwa [hexp]
  · refine Nat.lt_of_mul_lt_mul_right (a := 10 ^ z) ?_
    rwa [hvalue, ← pow_add, hlength]
  · have hcount : (ds.length : Int) + z = n + 1 := by exact_mod_cast hlength
    rw [← hreads, hn, ← hvalue, cast_mul_pow10_mul]
    refine congrArg (fun s : Int => Double.ofNonneg ((natOf ds : Rat) * 10 ^ s)) ?_
    push_cast
    linarith

/-- The digits with zeros after them, and a scale that makes up for them, are read as the number. -/
theorem ofDecimal_of_written {v : Rat} {ds : List Char} {e s : Int} {n t : Nat} (h : Written v ds e) (hv : v ≠ 0)
    (hn : n = natOf ds * 10 ^ t) (hs : s = e + 1 - ds.length - t) (negative : Bool) :
    Double.ofDecimal negative n s = .finite (if negative then -v else v) := by
  obtain ⟨c, rest, hcons, -⟩ := h.head
  have hlengthpos : 0 < ds.length := by
    rw [hcons]
    simp
  obtain ⟨hge, hlt⟩ := h.bounds
  have hpowt : 0 < 10 ^ t := by positivity
  have hnpos : 0 < n := by
    rw [hn]
    exact Nat.mul_pos (lt_of_lt_of_le (by positivity) hge) hpowt
  obtain ⟨k, hk, hkge, hklt⟩ := Double.length_toDigits_bounds hnpos
  have hlength : k + 1 = ds.length + t := by
    have hge' : 10 ^ (ds.length - 1 + t) ≤ n := by
      rw [hn, pow_add]
      exact Nat.mul_le_mul_right _ hge
    have hlt' : n < 10 ^ (ds.length + t) := by
      rw [hn, pow_add]
      exact Nat.mul_lt_mul_of_pos_right hlt hpowt
    have hle₁ := (Nat.pow_lt_pow_iff_right (by decide : 1 < 10)).mp (lt_of_le_of_lt hge' hklt)
    have hle₂ := (Nat.pow_lt_pow_iff_right (by decide : 1 < 10)).mp (lt_of_le_of_lt hkge hlt')
    omega
  have hlow := h.low
  have hhigh := h.high
  have hsize : ((Nat.toDigits 10 n).length : Int) + s = e + 1 := by
    rw [hk]
    omega
  have hreads : Double.ofNonneg ((n : Rat) * Double.pow10 s) = .finite v := by
    rw [← h.reads, Double.pow10_eq, hn, hs, cast_mul_pow10_mul]
    refine congrArg (fun s : Int => Double.ofNonneg ((natOf ds : Rat) * 10 ^ s)) ?_
    ring
  unfold Double.ofDecimal
  dsimp only
  rw [hsize, if_neg hnpos.ne', if_neg (show ¬400 < e + 1 by omega), if_neg (show ¬e + 1 < -400 by omega), hreads]
  cases negative with
  | true => rw [if_pos rfl, if_pos rfl, Double.neg, if_neg hv]
  | false => rfl

/-! ### Reading digits with a point and an exponent -/

def Breaks (rest : List Char) : Prop := ∀ c, rest.head? = some c → c.isDigit = false

theorem breaks_nil : Breaks [] := fun _ h => absurd h (by simp)

theorem breaks_cons {c : Char} (h : c.isDigit = false) (rest : List Char) : Breaks (c :: rest) := by
  intro d hd
  rw [← Option.some.inj hd]
  exact h

theorem takeWhile_digits {ds : List Char} (hds : ∀ c ∈ ds, c.isDigit = true) (h : Breaks rest) :
    (ds ++ rest).takeWhile Char.isDigit = ds := by
  rw [List.takeWhile_append_of_pos hds]
  cases rest with
  | nil => simp
  | cons c rest => simp [h c rfl]

theorem dropWhile_digits {ds : List Char} (hds : ∀ c ∈ ds, c.isDigit = true) (h : Breaks rest) :
    (ds ++ rest).dropWhile Char.isDigit = rest := by
  rw [List.dropWhile_append_of_pos hds]
  cases rest with
  | nil => rfl
  | cons c rest => simp [h c rfl]

/-- Digits that can stand before a point: a zero only alone. -/
structure Whole (ds : List Char) : Prop where
  digits : ∀ c ∈ ds, c.isDigit = true
  head : ds = ['0'] ∨ ∃ c rest, ds = c :: rest ∧ c ≠ '0'

theorem leading_whole {ds : List Char} (hds : Whole ds) (h : Breaks rest) : leading (ds ++ rest) = ds := by
  rcases hds.head with hzero | ⟨c, more, hcons, hne⟩
  · rw [hzero]
    rfl
  · have htake := takeWhile_digits hds.digits h
    rw [hcons, List.cons_append] at htake ⊢
    simpa [leading, hne] using htake

/-- A point and the digits after it, or nothing if there are none. -/
def pointed (decimals : List Char) : List Char :=
  if decimals.isEmpty then [] else '.' :: decimals

theorem fraction_pointed (hdecimals : ∀ c ∈ decimals, c.isDigit = true) (h : Breaks rest)
    (hpoint : rest.head? ≠ some '.') : fraction (pointed decimals ++ rest) = (decimals, rest) := by
  unfold pointed
  by_cases hempty : decimals.isEmpty = true
  · rw [if_pos hempty, List.isEmpty_iff.mp hempty, List.nil_append]
    unfold fraction
    split
    · exact absurd rfl hpoint
    · rfl
  · rw [if_neg hempty, List.cons_append]
    simp only [fraction, takeWhile_digits hdecimals h, dropWhile_digits hdecimals h]
    rw [if_neg hempty]

theorem breaks_pointed (h : Breaks rest) : Breaks (pointed decimals ++ rest) := by
  unfold pointed
  split_ifs
  · exact h
  · exact breaks_cons (by decide) _

/-- **A number with a point or an exponent is read as the decimal that it writes.** -/
theorem unsigned?_parts (negative : Bool) {whole power : List Char} {p : Option Int} (hwhole : Whole whole)
    (hdecimals : ∀ c ∈ decimals, c.isDigit = true) (hbreaks : Breaks power) (hpoint : power.head? ≠ some '.')
    (hpower : exponent power = (p, [])) (hreal : decimals ≠ [] ∨ p ≠ none) :
    unsigned? negative (whole ++ (pointed decimals ++ power)) =
      some (.real (.ofDecimal negative (natOf (whole ++ decimals)) (p.getD 0 - decimals.length)), []) := by
  have hafter : Breaks (pointed decimals ++ power) := breaks_pointed hbreaks
  have hleading := leading_whole hwhole hafter
  have hempty : whole.isEmpty = false := by
    rcases hwhole.head with hzero | ⟨c, rest, hcons, -⟩
    · rw [hzero]
      rfl
    · rw [hcons]
      rfl
  have hwritten : (decimals.isEmpty && p.isNone) = false := by
    rcases hreal with h | h
    · simp [h]
    · cases p with
      | none => exact absurd rfl h
      | some i => simp
  rw [unsigned?, hleading, hempty, if_neg Bool.false_ne_true, List.drop_left]
  dsimp only
  rw [fraction_pointed hdecimals hbreaks hpoint]
  dsimp only
  rw [hpower]
  dsimp only
  rw [hwritten, if_neg Bool.false_ne_true]

def powerDigits (n : Nat) : List Char :=
  if (toString n).length < 2 then '0' :: (toString n).toList else (toString n).toList

theorem powerDigits_spec (n : Nat) :
    (∀ c ∈ powerDigits n, c.isDigit = true) ∧ powerDigits n ≠ [] ∧ natOf (powerDigits n) = n := by
  have htext : (toString n).toList = Nat.toDigits 10 n := by
    rw [Nat.toString_eq_repr, Nat.toList_repr]
  have hdigits := isDigit_toDigits n
  have hvalue := natOf_toDigits n
  unfold powerDigits
  rw [htext]
  split_ifs
  · refine ⟨?_, by simp, ?_⟩
    · rw [List.forall_mem_cons]
      exact ⟨rfl, hdigits⟩
    · exact (natOf_zeros_append 1 _).trans hvalue
  · exact ⟨hdigits, Nat.toDigits_ne_nil, hvalue⟩

theorem exponent_powerDigits (e : Int) :
    exponent ('e' :: (if e < 0 then '-' else '+') :: powerDigits e.natAbs) = (some e, []) := by
  obtain ⟨hdigits, hne, hvalue⟩ := powerDigits_spec e.natAbs
  have htake := takeWhile_digits hdigits breaks_nil
  have hdrop := dropWhile_digits hdigits breaks_nil
  rw [List.append_nil] at htake hdrop
  rw [exponent_cons rfl]
  by_cases he : e < 0
  · have hsign : powerSign ((if e < 0 then '-' else '+') :: powerDigits e.natAbs) = (true, powerDigits e.natAbs) := by
      rw [if_pos he]
      rfl
    rw [hsign]
    dsimp only
    have hpower : -(e.natAbs : Int) = e := by omega
    rw [htake, hdrop, if_neg (by simpa using hne), if_pos rfl, hvalue, hpower]
  · have hsign : powerSign ((if e < 0 then '-' else '+') :: powerDigits e.natAbs) = (false, powerDigits e.natAbs) := by
      rw [if_neg he]
      rfl
    rw [hsign]
    dsimp only
    have hpower : (e.natAbs : Int) = e := by omega
    rw [htake, hdrop, if_neg (by simpa using hne), if_neg Bool.false_ne_true, hvalue, hpower]

/-! ### The text of a number -/

def powerChars (e : Int) : List Char := 'e' :: (if e < 0 then '-' else '+') :: powerDigits e.natAbs

/-- The text of a number with these digits, the first of which stands at an exponent. -/
def decimalChars (digits : List Char) (e : Int) : List Char :=
  if e < -4 ∨ 16 ≤ e then digits.take 1 ++ (pointed (digits.drop 1) ++ powerChars e)
  else if e < 0 then ['0'] ++ '.' :: (List.replicate (-e - 1).toNat '0' ++ digits)
  else if (digits.length : Int) ≤ e + 1 then
    (digits ++ List.replicate (e + 1 - digits.length).toNat '0') ++ ['.', '0']
  else digits.take (e + 1).toNat ++ '.' :: digits.drop (e + 1).toNat

theorem positiveText_eq (v : Rat) :
    (Double.positiveText v).toList = decimalChars (Double.shortest v).1 (Double.shortest v).2 := by
  unfold Double.positiveText decimalChars powerChars powerDigits pointed
  dsimp only
  rw [String.toList_ofList]
  split_ifs <;> simp

section

variable {v : Rat} {ds : List Char} {e : Int}

theorem isDigit_replicate {n : Nat} : ∀ c ∈ List.replicate n '0', c.isDigit = true := by
  intro c hc
  rw [(List.mem_replicate.mp hc).2]
  rfl

theorem pointed_of_ne (h : decimals ≠ []) : pointed decimals ++ [] = '.' :: decimals := by
  rw [pointed, if_neg (by simpa using h), List.append_nil]

theorem unsigned?_point (h : Written v ds e) (hv : v ≠ 0) (negative : Bool) {whole : List Char} {t : Nat}
    (hwhole : Whole whole) (hdecimals : ∀ c ∈ decimals, c.isDigit = true) (hne : decimals ≠ [])
    (hvalue : natOf (whole ++ decimals) = natOf ds * 10 ^ t)
    (hscale : -(decimals.length : Int) = e + 1 - ds.length - t) :
    unsigned? negative (whole ++ '.' :: decimals) = some (.real (.finite (if negative then -v else v)), []) := by
  have hparts := unsigned?_parts negative hwhole hdecimals breaks_nil (by simp) rfl (.inl hne)
  rw [pointed_of_ne hne] at hparts
  rw [hparts, ofDecimal_of_written h hv hvalue (by rw [Option.getD_none, zero_sub, hscale])]

/-- **The text of a number is read as that number.** -/
theorem unsigned?_decimalChars (h : Written v ds e) (hv : v ≠ 0) (negative : Bool) :
    unsigned? negative (decimalChars ds e) = some (.real (.finite (if negative then -v else v)), []) := by
  obtain ⟨c, rest, hcons, hc⟩ := h.head
  have hdigits := h.digits
  have hdsne : ds ≠ [] := by rw [hcons]; simp
  unfold decimalChars
  by_cases hfar : e < -4 ∨ 16 ≤ e
  · -- one digit before the point, and an exponent
    rw [if_pos hfar]
    have hwhole : Whole (ds.take 1) :=
      ⟨fun d hd => hdigits d (List.mem_of_mem_take hd), .inr ⟨c, [], by rw [hcons]; rfl, hc⟩⟩
    have hdecimals : ∀ d ∈ ds.drop 1, d.isDigit = true := fun d hd => hdigits d (List.mem_of_mem_drop hd)
    have hparts := unsigned?_parts negative hwhole hdecimals (breaks_cons rfl _) (by simp) (exponent_powerDigits e)
      (.inr (by simp))
    rw [List.take_append_drop] at hparts
    refine hparts.trans ?_
    rw [ofDecimal_of_written (t := 0) h hv (by simp)]
    have hlength : 0 < ds.length := List.length_pos_iff.mpr hdsne
    rw [Option.getD_some, List.length_drop]
    omega
  rw [if_neg hfar]
  by_cases hneg : e < 0
  · -- zeros after the point
    rw [if_pos hneg]
    refine unsigned?_point (t := 0) h hv negative ⟨by simp, .inl rfl⟩
      (List.forall_mem_append.mpr ⟨isDigit_replicate, hdigits⟩) (by simp [hdsne]) ?_ ?_
    · have hzeros := natOf_zeros_append ((-e - 1).toNat + 1) ds
      rw [List.replicate_succ, List.cons_append] at hzeros
      rw [List.singleton_append, hzeros, pow_zero, Nat.mul_one]
    · rw [List.length_append, List.length_replicate]
      push_cast
      omega
  rw [if_neg hneg]
  by_cases hlong : (ds.length : Int) ≤ e + 1
  · -- zeros before the point
    rw [if_pos hlong]
    refine unsigned?_point (t := (e + 1 - ds.length).toNat + 1) h hv negative
      ⟨List.forall_mem_append.mpr ⟨hdigits, isDigit_replicate⟩, .inr ⟨c, _, by rw [hcons]; rfl, hc⟩⟩ (by simp) (by simp)
      ?_ ?_
    · have hzeros := natOf_append_zeros ds ((e + 1 - ds.length).toNat + 1)
      rw [List.replicate_succ', ← List.append_assoc] at hzeros
      exact hzeros
    · rw [List.length_singleton]
      push_cast
      omega
  · -- the point among the digits
    rw [if_neg hlong]
    have hwhole : Whole (ds.take (e + 1).toNat) := by
      refine ⟨fun d hd => hdigits d (List.mem_of_mem_take hd), .inr ?_⟩
      obtain ⟨k, hk⟩ : ∃ k, (e + 1).toNat = k + 1 := ⟨e.toNat, by omega⟩
      exact ⟨c, rest.take k, by rw [hk, hcons]; rfl, hc⟩
    refine unsigned?_point (t := 0) h hv negative hwhole (fun d hd => hdigits d (List.mem_of_mem_drop hd)) ?_ ?_ ?_
    · rw [Ne, List.drop_eq_nil_iff]
      omega
    · rw [List.take_append_drop, pow_zero, Nat.mul_one]
    · rw [List.length_drop]
      omega

end

/-! ### Numbers that are read -/

def IsRead : Double → Prop
  | .finite v => v = 0 ∨ Double.IsFormat v ∨ Double.IsFormat (-v)
  | _ => True

theorem isRead_neg (h : IsRead d) : IsRead d.neg := by
  cases d with
  | finite v =>
    rw [Double.neg]
    split_ifs with hzero
    · trivial
    · rcases h with h | h | h
      · exact absurd h hzero
      · exact .inr (.inr (by rwa [neg_neg]))
      · exact .inr (.inl h)
  | negZero => exact .inl rfl
  | infinite n => trivial
  | undefined => trivial

theorem isRead_ofNonneg {q : Rat} (h : 0 ≤ q) : IsRead (.ofNonneg q) := by
  rcases Double.ofNonneg_cases h with hq | hq | ⟨v, hv, hq⟩
  · rw [hq]
    exact .inl rfl
  · rw [hq]
    trivial
  · rw [hq]
    exact .inr (.inl hv)

theorem isRead_ofRat (q : Rat) : IsRead (.ofRat q) := by
  unfold Double.ofRat
  split_ifs with hneg
  · exact isRead_neg (isRead_ofNonneg (neg_nonneg.mpr hneg.le))
  · exact isRead_ofNonneg (not_lt.mp hneg)

/-- **What a decimal is rounded to** is a number of the format, a zero or an infinity. -/
theorem isRead_ofDecimal (negative : Bool) (n : Nat) (s : Int) : IsRead (.ofDecimal negative n s) := by
  have hround : IsRead (.ofNonneg ((n : Rat) * Double.pow10 s)) := by
    apply isRead_ofNonneg
    rw [Double.pow10_eq]
    have := Double.ten_zpow_pos s
    positivity
  have hmagnitude : IsRead (if n = 0 then .finite 0
      else if 400 < ((Nat.toDigits 10 n).length : Int) + s then .infinite false
      else if ((Nat.toDigits 10 n).length : Int) + s < -400 then .finite 0
      else .ofNonneg ((n : Rat) * Double.pow10 s)) := by
    split_ifs
    · exact .inl rfl
    · trivial
    · exact .inl rfl
    · exact hround
  unfold Double.ofDecimal
  dsimp only
  cases negative with
  | true => exact isRead_neg hmagnitude
  | false => exact hmagnitude

theorem scalar_positiveText {v : Rat} (hv : Double.IsFormat v) :
    scalar (Double.positiveText v).toList = .ok (.real (.finite v), []) ∧
      scalar ('-' :: (Double.positiveText v).toList) = .ok (.real (.finite (-v)), []) := by
  have hread := unsigned?_decimalChars (written_shortest hv) hv.pos.ne'
  rw [← positiveText_eq] at hread
  generalize (Double.positiveText v).toList = cs at hread ⊢
  constructor
  · obtain ⟨c, rest, hc, hcons⟩ := head_of_unsigned? (hread false)
    have hsign : sign cs = (false, cs) := by
      apply sign_of_ne
      rw [hcons]
      intro h
      rw [Option.some.inj h] at hc
      exact absurd hc (by decide)
    apply scalar_number
    rw [number?_eq, hsign]
    exact hread false
  · exact scalar_number (hread true)

theorem ofDecimal_zero (negative : Bool) (s : Int) :
    Double.ofDecimal negative 0 s = if negative then .negZero else .finite 0 := by
  unfold Double.ofDecimal
  dsimp only
  rw [if_pos rfl, Double.neg, if_pos rfl]

theorem unsigned?_zero (negative : Bool) :
    unsigned? negative ['0', '.', '0'] = some (.real (if negative then .negZero else .finite 0), []) := by
  have hzero : ∀ c ∈ ['0'], c.isDigit = true := by simp
  have hparts := unsigned?_parts negative ⟨hzero, .inl rfl⟩ hzero breaks_nil (by simp) rfl (.inl (by simp))
  have hvalue : natOf (['0'] ++ ['0']) = 0 := rfl
  rw [hvalue, ofDecimal_zero] at hparts
  exact hparts

/-- **A number that was read is read back from its text.** -/
theorem readsBack_of_isRead (h : IsRead d) : (Value.real d).ReadsBack := by
  have hword : ∀ w ∈ wordValues, scalar w.1 = .ok (w.2, []) := fun w hw => by
    have hread := scalar_word w hw []
    rwa [List.append_nil] at hread
  unfold Value.ReadsBack Double.text
  cases d with
  | finite v =>
    dsimp only
    rcases h with rfl | h | h
    · rw [if_pos rfl]
      exact scalar_number (unsigned?_zero false)
    · have hpos := h.pos
      rw [if_neg hpos.ne', if_neg (not_lt.mpr hpos.le)]
      exact (scalar_positiveText h).1
    · have hneg : v < 0 := neg_pos.mp h.pos
      have hread := (scalar_positiveText h).2
      rw [neg_neg] at hread
      rw [if_neg hneg.ne, if_pos hneg, String.toList_append]
      exact hread
  | negZero => exact scalar_number (unsigned?_zero true)
  | infinite n =>
    cases n with
    | true => exact hword ("-Infinity".toList, _) (by simp [wordValues])
    | false => exact hword ("Infinity".toList, _) (by simp [wordValues])
  | undefined => exact hword ("NaN".toList, _) (by simp [wordValues])

theorem readsBack_scalar {cs : List Char} {v : Value} (h : scalar cs = .ok (v, rest)) : v.Exact := by
  rcases scalar_cases h with ⟨w, hw, rfl⟩ | ⟨i, rfl⟩ | ⟨negative, n, s, rfl⟩
  · rw [wordValues_eq] at hw
    simp only [List.mem_cons, List.not_mem_nil, or_false] at hw
    rcases hw with rfl | rfl | rfl | rfl | rfl | rfl
    · trivial
    · trivial
    · trivial
    all_goals exact readsBack_of_isRead trivial
  · trivial
  · exact readsBack_of_isRead (isRead_ofDecimal negative n s)

theorem isRead_of_readsBack (h : (Value.real d).ReadsBack) : IsRead d := by
  rcases scalar_cases h with ⟨w, hw, hd⟩ | ⟨i, hd⟩ | ⟨negative, n, s, hd⟩
  · rw [wordValues_eq] at hw
    simp only [List.mem_cons, List.not_mem_nil, or_false] at hw
    rcases hw with rfl | rfl | rfl | rfl | rfl | rfl
    · cases hd
    · cases hd
    · cases hd
    all_goals
      rw [Value.real.inj hd]
      trivial
  · cases hd
  · rw [Value.real.inj hd]
    exact isRead_ofDecimal negative n s

/-- **What is read can be written and read back.** -/
theorem legible_of_read {s : String} {v : Value} (h : read s = .ok v) : v.Legible where
  distinct := distinct_of_read h
  reads := throughout_of_read ⟨readsBack_scalar, fun _ => trivial, fun _ => trivial, fun _ _ => trivial⟩ h

end SourceAudit.Json
