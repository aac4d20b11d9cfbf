/-
# Decoding what was encoded

The bytes of a character are read back as that character, whatever bytes follow
(`next_encodeChar`): each number of bytes has its own first bytes, and the bounds on the
second byte leave out what a shorter form could write and what is no character.
-/
import Mathlib.Tactic.Common
import SourceAudit.Text.Utf8

namespace SourceAudit.Utf8

/-! ### The bytes of a character -/

theorem lead_toUInt8 : ∀ n < 256, lead n.toUInt8 =
    if n < 0x80 then some (0, 0, 0)
    else if n < 0xc2 then none
    else if n < 0xe0 then some (1, 0x80, 0xbf)
    else if n = 0xe0 then some (2, 0xa0, 0xbf)
    else if n = 0xed then some (2, 0x80, 0x9f)
    else if n < 0xf0 then some (2, 0x80, 0xbf)
    else if n = 0xf0 then some (3, 0x90, 0xbf)
    else if n < 0xf4 then some (3, 0x80, 0xbf)
    else if n = 0xf4 then some (3, 0x80, 0x8f)
    else none := by
  decide +kernel

theorem toNat_toUInt8 {n : Nat} (h : n < 256) : n.toUInt8.toNat = n := by
  simp [Nat.toUInt8, Nat.mod_eq_of_lt h]

theorem tails_cons {code x n taken : Nat} {lo hi : UInt8} {bs : List UInt8} (hx : x < 64)
    (hlo : lo.toNat ≤ 0x80 + x) (hhi : 0x80 + x ≤ hi.toNat) :
    tails code lo hi (n + 1) taken ((0x80 + x).toUInt8 :: bs) =
      tails (code * 64 + x) 0x80 0xbf n (taken + 1) bs := by
  have hb : (0x80 + x).toUInt8.toNat = 0x80 + x := toNat_toUInt8 (by omega)
  have hle : lo ≤ (0x80 + x).toUInt8 := by rw [UInt8.le_iff_toNat_le, hb]; exact hlo
  have hge : (0x80 + x).toUInt8 ≤ hi := by rw [UInt8.le_iff_toNat_le, hb]; exact hhi
  have hwithin : (decide (lo ≤ (0x80 + x).toUInt8) && decide ((0x80 + x).toUInt8 ≤ hi)) = true := by
    rw [decide_eq_true hle, decide_eq_true hge, Bool.and_self]
  rw [tails, if_pos hwithin, hb, Nat.add_sub_cancel_left]

theorem valid_toNat (c : Char) : c.toNat < 0xd800 ∨ (0xdfff < c.toNat ∧ c.toNat < 0x110000) := c.valid

theorem encodeChar_eq (c : Char) : encodeChar c =
    if c.toNat < 0x80 then [c.toNat.toUInt8]
    else if c.toNat < 0x800 then [(0xc0 + c.toNat / 64).toUInt8, (0x80 + c.toNat % 64).toUInt8]
    else if c.toNat < 0x10000 then
      [(0xe0 + c.toNat / 4096).toUInt8, (0x80 + c.toNat / 64 % 64).toUInt8, (0x80 + c.toNat % 64).toUInt8]
    else [(0xf0 + c.toNat / 262144).toUInt8, (0x80 + c.toNat / 4096 % 64).toUInt8,
      (0x80 + c.toNat / 64 % 64).toUInt8, (0x80 + c.toNat % 64).toUInt8] := by
  simp [encodeChar]

/-- The first character of some bytes, where their first byte asks for `n` more that are there. -/
theorem next_of_tails {b : UInt8} {bs : List UInt8} {n code : Nat} {lo hi : UInt8} (hb : lead b = some (n, lo, hi))
    (hn : n ≠ 0)
    (ht : tails (b.toNat - (if n = 1 then 0xc0 else if n = 2 then 0xe0 else 0xf0)) lo hi n 0 bs = .ok code) :
    next b bs = (some (Char.ofNat code), n) := by
  cases n with
  | zero => exact absurd rfl hn
  | succ n => simp only [next, hb, ht]

variable {n : Nat} (rest : List UInt8)

theorem next_one (h : n < 0x80) : next n.toUInt8 rest = (some (Char.ofNat n), 0) := by
  have hlead : lead n.toUInt8 = some (0, 0, 0) := by rw [lead_toUInt8 n (by omega), if_pos h]
  have hn : n.toUInt8.toNat = n := toNat_toUInt8 (by omega)
  simp only [next, hlead, hn]

theorem next_two (h : 0x80 ≤ n) (h' : n < 0x800) :
    next (0xc0 + n / 64).toUInt8 ((0x80 + n % 64).toUInt8 :: rest) = (some (Char.ofNat n), 1) := by
  have hlead : lead (0xc0 + n / 64).toUInt8 = some (1, 0x80, 0xbf) := by
    rw [lead_toUInt8 _ (by omega), if_neg (by omega), if_neg (by omega), if_pos (by omega)]
  have hstart : (0xc0 + n / 64).toUInt8.toNat - 0xc0 = n / 64 := by
    rw [toNat_toUInt8 (by omega)]
    omega
  have hcode : n / 64 * 64 + n % 64 = n := by omega
  refine next_of_tails hlead (by decide) ?_
  rw [if_pos rfl, hstart, tails_cons (by omega) (by simp) (by simp; omega), tails, hcode]

/-- The second of three bytes is bounded below after the least first byte, and above before the code
points that are no characters. -/
theorem lead_three (h : 0x800 ≤ n) (h' : n < 0x10000) (hv : n < 0xd800 ∨ 0xdfff < n) :
    ∃ lo hi : UInt8, lead (0xe0 + n / 4096).toUInt8 = some (2, lo, hi) ∧
      lo.toNat ≤ 0x80 + n / 64 % 64 ∧ 0x80 + n / 64 % 64 ≤ hi.toNat := by
  rw [lead_toUInt8 _ (by omega), if_neg (by omega), if_neg (by omega), if_neg (by omega)]
  by_cases he0 : 0xe0 + n / 4096 = 0xe0
  · exact ⟨0xa0, 0xbf, by rw [if_pos he0], by simp; omega, by simp; omega⟩
  rw [if_neg he0]
  by_cases hed : 0xe0 + n / 4096 = 0xed
  · exact ⟨0x80, 0x9f, by rw [if_pos hed], by simp, by simp; omega⟩
  · exact ⟨0x80, 0xbf, by rw [if_neg hed, if_pos (by omega)], by simp, by simp; omega⟩

theorem next_three (h : 0x800 ≤ n) (h' : n < 0x10000) (hv : n < 0xd800 ∨ 0xdfff < n) :
    next (0xe0 + n / 4096).toUInt8 ((0x80 + n / 64 % 64).toUInt8 :: (0x80 + n % 64).toUInt8 :: rest) =
      (some (Char.ofNat n), 2) := by
  obtain ⟨lo, hi, hlead, hlo, hhi⟩ := lead_three h h' hv
  have hstart : (0xe0 + n / 4096).toUInt8.toNat - 0xe0 = n / 4096 := by
    rw [toNat_toUInt8 (by omega)]
    omega
  have hcode : (n / 4096 * 64 + n / 64 % 64) * 64 + n % 64 = n := by omega
  refine next_of_tails hlead (by decide) ?_
  rw [if_neg (by decide), if_pos rfl, hstart, tails_cons (by omega) hlo hhi,
    tails_cons (by omega) (by simp) (by simp; omega), tails, hcode]

/-- The second of four bytes is bounded below after the least first byte, and above after the
greatest. -/
theorem lead_four (h : 0x10000 ≤ n) (h' : n < 0x110000) :
    ∃ lo hi : UInt8, lead (0xf0 + n / 262144).toUInt8 = some (3, lo, hi) ∧
      lo.toNat ≤ 0x80 + n / 4096 % 64 ∧ 0x80 + n / 4096 % 64 ≤ hi.toNat := by
  rw [lead_toUInt8 _ (by omega), if_neg (by omega), if_neg (by omega), if_neg (by omega), if_neg (by omega),
    if_neg (by omega), if_neg (by omega)]
  by_cases hf0 : 0xf0 + n / 262144 = 0xf0
  · exact ⟨0x90, 0xbf, by rw [if_pos hf0], by simp; omega, by simp; omega⟩
  rw [if_neg hf0]
  by_cases hf4 : 0xf0 + n / 262144 < 0xf4
  · exact ⟨0x80, 0xbf, by rw [if_pos hf4], by simp, by simp; omega⟩
  · exact ⟨0x80, 0x8f, by rw [if_neg hf4, if_pos (by omega)], by simp, by simp; omega⟩

theorem next_four (h : 0x10000 ≤ n) (h' : n < 0x110000) :
    next (0xf0 + n / 262144).toUInt8 ((0x80 + n / 4096 % 64).toUInt8 :: (0x80 + n / 64 % 64).toUInt8 ::
      (0x80 + n % 64).toUInt8 :: rest) = (some (Char.ofNat n), 3) := by
  obtain ⟨lo, hi, hlead, hlo, hhi⟩ := lead_four h h'
  have hstart : (0xf0 + n / 262144).toUInt8.toNat - 0xf0 = n / 262144 := by
    rw [toNat_toUInt8 (by omega)]
    omega
  have hcode : ((n / 262144 * 64 + n / 4096 % 64) * 64 + n / 64 % 64) * 64 + n % 64 = n := by omega
  refine next_of_tails hlead (by decide) ?_
  rw [if_neg (by decide), if_neg (by decide), hstart, tails_cons (by omega) hlo hhi,
    tails_cons (by omega) (by simp) (by simp; omega), tails_cons (by omega) (by simp) (by simp; omega), tails, hcode]

/-- **A character is read back from its bytes.** -/
theorem next_encodeChar (c : Char) (rest : List UInt8) :
    ∃ b tail, encodeChar c = b :: tail ∧ next b (tail ++ rest) = (some c, tail.length) := by
  have hc : Char.ofNat c.toNat = c := Char.ofNat_toNat c
  have hvalid := valid_toNat c
  rw [encodeChar_eq]
  by_cases h1 : c.toNat < 0x80
  · refine ⟨_, _, if_pos h1, ?_⟩
    exact (next_one rest h1).trans (by rw [hc]; rfl)
  rw [if_neg h1]
  by_cases h2 : c.toNat < 0x800
  · refine ⟨_, _, if_pos h2, ?_⟩
    exact (next_two rest (by omega) h2).trans (by rw [hc]; rfl)
  rw [if_neg h2]
  by_cases h3 : c.toNat < 0x10000
  · refine ⟨_, _, if_pos h3, ?_⟩
    exact (next_three rest (by omega) h3 (by omega)).trans (by rw [hc]; rfl)
  · refine ⟨_, _, if_neg h3, ?_⟩
    exact (next_four rest (by omega) (by omega)).trans (by rw [hc]; rfl)

/-! ### The bytes of a text -/

theorem piecesFrom_eq : ∀ (bs : List UInt8) (done : List (Option Char)) (skip : Nat),
    piecesFrom done skip bs = done.reverse ++ pieces (bs.drop skip)
  | [], _, _ => by simp [piecesFrom, pieces]
  | _ :: bs, done, skip + 1 => piecesFrom_eq bs done skip
  | b :: bs, done, 0 => by
    rw [List.drop_zero, pieces, piecesFrom, piecesFrom]
    dsimp only
    rw [piecesFrom_eq bs (_ :: done), piecesFrom_eq bs [_]]
    simp

theorem pieces_cons (b : UInt8) (bs : List UInt8) :
    pieces (b :: bs) = (next b bs).1 :: pieces (bs.drop (next b bs).2) := by
  rw [pieces, piecesFrom]
  exact piecesFrom_eq bs _ _

theorem pieces_encode : ∀ cs : List Char, pieces (cs.flatMap encodeChar) = cs.map some
  | [] => rfl
  | c :: cs => by
    obtain ⟨b, tail, hbytes, hnext⟩ := next_encodeChar c (cs.flatMap encodeChar)
    rw [List.flatMap_cons, hbytes, List.cons_append, pieces_cons, hnext]
    dsimp only
    rw [List.drop_left, pieces_encode cs, List.map_cons]

theorem decode_flatMap (cs : List Char) : decode (cs.flatMap encodeChar) = String.ofList cs := by
  simp [decode, pieces_encode, Function.comp_def]

theorem decode?_encode (s : String) : decode? (encode s) = some s := by
  simp [decode?, encode, pieces_encode, List.filterMap_map]

theorem decodeValid_encode (s : String) : decodeValid (encode s) = s := by
  simp [decodeValid, encode, pieces_encode, List.filterMap_map]

end SourceAudit.Utf8
