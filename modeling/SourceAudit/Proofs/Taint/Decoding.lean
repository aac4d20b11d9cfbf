/-
# Literals behind an encoding are found

A text that is written in Base64, in hexadecimal digits, with percent escapes or with
rotated letters stands among the texts that the analysis takes the literal for, in
whatever way the encoding allows it to be written: a Base64 text may hold characters
that are none of its digits, and may lack its padding (`Base64.Writes`); hexadecimal
digits come in either case; behind a percent sign stands a byte, and a plain character
stands for itself (`PercentWritten`).

Each decoder keeps what it has read so far, so its lemma speaks of the rest of a text
behind anything already read.
-/
import SourceAudit.Proofs.Syntax.Bare
import SourceAudit.Proofs.Text.Utf8

namespace SourceAudit

theorem not_le_of_ascii {c d : Char} (hc : ¬c.toNat < 128) (hd : d.toNat < 128) : ¬c ≤ d := by
  intro h
  have hle : c.toNat ≤ d.toNat := UInt32.le_iff_toNat_le.mp h
  omega

/-! ### Base64 -/

namespace Base64

variable {w x y z : Nat} {c : Char} {bs : List UInt8}

theorem value?_digit : ∀ n < 64, value? (digit n) = some n := by decide +kernel

theorem digit_facts (n : Nat) : digit n ≠ '=' ∧ (digit n).toNat < 128 := by
  have hdigits : ∀ n < 64, digit n ≠ '=' ∧ (digit n).toNat < 128 := by decide +kernel
  by_cases h : n < 64
  · exact hdigits n h
  · have hnone : alphabet[n]? = none := List.getElem?_eq_none (Nat.le_of_not_lt h)
    rw [digit, List.getD_eq_getElem?_getD, hnone]
    decide

theorem decodeFrom_group (hw : w < 64) (hx : x < 64) (hy : y < 64) (hz : z < 64) (done : List UInt8)
    (cs : List Char) :
    decodeFrom done 0 0 0 (digit w :: digit x :: digit y :: digit z :: cs) =
      decodeFrom ((y % 4 * 64 + z).toUInt8 :: (x % 16 * 16 + y / 4).toUInt8 :: (w * 4 + x / 16).toUInt8 :: done)
        0 0 0 cs := by
  simp [decodeFrom, value?_digit, digit_facts, hw, hx, hy, hz]

theorem decodeFrom_onePad (hw : w < 64) (hx : x < 64) (hy : y < 64) (done : List UInt8) :
    decodeFrom done 0 0 0 [digit w, digit x, digit y, '='] =
      some (done.reverse ++ [(w * 4 + x / 16).toUInt8, (x % 16 * 16 + y / 4).toUInt8]) := by
  simp [decodeFrom, value?_digit, digit_facts, hw, hx, hy]

theorem decodeFrom_twoPads (hw : w < 64) (hx : x < 64) (done : List UInt8) :
    decodeFrom done 0 0 0 [digit w, digit x, '=', '='] = some (done.reverse ++ [(w * 4 + x / 16).toUInt8]) := by
  simp [decodeFrom, value?_digit, digit_facts, hw, hx]

theorem toUInt8_eq {n : Nat} {b : UInt8} (h : n = b.toNat) : n.toUInt8 = b := by
  rw [h]
  exact UInt8.ofNat_toNat

theorem decodeFrom_encode (bs done : List UInt8) : decodeFrom done 0 0 0 (encode bs) = some (done.reverse ++ bs) := by
  fun_induction encode bs generalizing done with
  | case1 a b c rest n ih =>
    have ha := a.toNat_lt
    have hb := b.toNat_lt
    have hc := c.toNat_lt
    have hfirst : n / 262144 * 4 + n / 4096 % 64 / 16 = a.toNat := by omega
    have hsecond : n / 4096 % 64 % 16 * 16 + n / 64 % 64 / 4 = b.toNat := by omega
    have hthird : n / 64 % 64 % 4 * 64 + n % 64 = c.toNat := by omega
    rw [decodeFrom_group (by omega) (by omega) (by omega) (by omega), ih, toUInt8_eq hfirst, toUInt8_eq hsecond,
      toUInt8_eq hthird]
    simp
  | case2 a b n =>
    have ha := a.toNat_lt
    have hb := b.toNat_lt
    have hfirst : n / 4096 * 4 + n / 64 % 64 / 16 = a.toNat := by omega
    have hsecond : n / 64 % 64 % 16 * 16 + n % 64 / 4 = b.toNat := by omega
    rw [decodeFrom_onePad (by omega) (by omega) (by omega), toUInt8_eq hfirst, toUInt8_eq hsecond]
  | case3 a n =>
    have ha := a.toNat_lt
    have hfirst : n / 64 * 4 + n % 64 / 16 = a.toNat := by omega
    rw [decodeFrom_twoPads (by omega) (by omega), toUInt8_eq hfirst]
  | case4 => simp [decodeFrom]

theorem encode_ascii (bs : List UInt8) : ∀ c ∈ encode bs, c.toNat < 128 := by
  fun_induction encode bs with
  | case1 a b c rest n ih => simpa [digit_facts] using ih
  | case2 a b n => simp [digit_facts]
  | case3 a n => simp [digit_facts]
  | case4 => simp

theorem decode?_encode (bs : List UInt8) : decode? (encode bs) = some bs := by
  have hascii : (encode bs).all (·.toNat < 128) = true :=
    List.all_eq_true.mpr fun c hc => decide_eq_true (encode_ascii bs c hc)
  rw [decode?, if_pos hascii, decodeFrom_encode]
  rfl

theorem padded_group (a b c d : Char) (cs : List Char) :
    padded (a :: b :: c :: d :: cs) = a :: b :: c :: d :: padded cs := by
  have hlength : (a :: b :: c :: d :: cs).length % 4 = cs.length % 4 := by
    simp only [List.length_cons]
    omega
  rw [padded, hlength]
  rfl

/-- Padding fills up the last group, whether the text comes with its padding or without. -/
theorem padded_encode (bs : List UInt8) :
    padded (encode bs) = encode bs ∧ padded ((encode bs).filter (· != '=')) = encode bs := by
  fun_induction encode bs with
  | case1 a b c rest n ih => simp [digit_facts, padded_group, ih]
  | case2 a b n => simp [padded, digit_facts]
  | case3 a n => simp [padded, digit_facts]
  | case4 => simp [padded]

/-- Apart from characters that are neither digits nor padding, the text is the encoding of the bytes,
with or without the padding. -/
def Writes (bs : List UInt8) (cs : List Char) : Prop :=
  let kept := cs.filter fun c => alphabet.contains c || c == '='
  kept = encode bs ∨ kept = (encode bs).filter (· != '=')

theorem isSome_value? (c : Char) : (value? c).isSome = alphabet.contains c := by
  have hascii : ∀ n < 128, (value? (Char.ofNat n)).isSome = alphabet.contains (Char.ofNat n) := by decide +kernel
  have hall : (alphabet.all fun c => decide (c.toNat < 128)) = true := by decide +kernel
  have hdigits : ∀ c ∈ alphabet, c.toNat < 128 := fun c hc => of_decide_eq_true (List.all_eq_true.mp hall c hc)
  by_cases hc : c.toNat < 128
  · have h := hascii c.toNat hc
    rwa [Char.ofNat_toNat] at h
  · have hnone : value? c = none := by
      have hplus : c ≠ '+' := fun h => hc (by rw [h]; decide)
      have hslash : c ≠ '/' := fun h => hc (by rw [h]; decide)
      have hle : ∀ d : Char, d.toNat < 128 → ¬c ≤ d := fun d hd => not_le_of_ascii hc hd
      simp [value?, hle 'Z' (by decide), hle 'z' (by decide), hle '9' (by decide), hplus, hslash]
    have hnot : alphabet.contains c = false := by
      simpa using fun h => hc (hdigits c h)
    rw [hnone, hnot]
    rfl

end Base64

namespace Codec

variable {n : Nat} {c : Char} {bs : List UInt8} {cs : List Char}

/-! ### Hexadecimal digits -/

/-- The character writes a number below 16, in either case. -/
def HexDigit (n : Nat) (c : Char) : Prop :=
  c = Nat.digitChar n ∨ c = (Nat.digitChar n).toUpper

instance (n : Nat) (c : Char) : Decidable (HexDigit n c) := inferInstanceAs (Decidable (_ ∨ _))

theorem hexDigit_facts (hn : n < 16) (h : HexDigit n c) :
    Json.hexValue? c = some n ∧ c.toNat < 128 ∧ 32 < c.toNat := by
  have hlower : ∀ n < 16, Json.hexValue? (Nat.digitChar n) = some n ∧ (Nat.digitChar n).toNat < 128 ∧
      32 < (Nat.digitChar n).toNat := by decide
  have hupper : ∀ n < 16, Json.hexValue? (Nat.digitChar n).toUpper = some n ∧
      (Nat.digitChar n).toUpper.toNat < 128 ∧ 32 < (Nat.digitChar n).toUpper.toNat := by decide
  rcases h with rfl | rfl
  · exact hlower n hn
  · exact hupper n hn

def HexPair (b : UInt8) (x y : Char) : Prop :=
  HexDigit (b.toNat / 16) x ∧ HexDigit (b.toNat % 16) y

instance (b : UInt8) (x y : Char) : Decidable (HexPair b x y) := inferInstanceAs (Decidable (_ ∧ _))

theorem hexByte?_of_pair {b : UInt8} {x y : Char} (h : HexPair b x y) : hexByte? x y = some b := by
  have hb := b.toNat_lt
  have hsum : b.toNat / 16 * 16 + b.toNat % 16 = b.toNat := by omega
  have hx := (hexDigit_facts (by omega) h.1).1
  have hy := (hexDigit_facts (by omega) h.2).1
  simp only [hexByte?, hx, hy, hsum]
  rw [Base64.toUInt8_eq rfl]

/-- Each byte is written by two digits. -/
inductive HexWritten : List UInt8 → List Char → Prop where
  | nil : HexWritten [] []
  | cons {b : UInt8} {x y : Char} {bs : List UInt8} {cs : List Char} :
      HexPair b x y → HexWritten bs cs → HexWritten (b :: bs) (x :: y :: cs)

theorem hexFrom_of_written (h : HexWritten bs cs) (done : List UInt8) :
    hexFrom done cs = some (done.reverse ++ bs) := by
  induction h generalizing done with
  | nil => simp [hexFrom]
  | @cons b x y bs cs hpair _ ih =>
    have hx := (hexDigit_facts (by have := b.toNat_lt; omega) hpair.1).2.2
    have hblank : ¬(x == ' ' || (9 ≤ x.toNat && x.toNat ≤ 13)) = true := by
      have hspace : x ≠ ' ' := fun h => absurd hx (by rw [h]; decide)
      simp [hspace]
      omega
    rw [hexFrom, if_neg hblank, hexByte?_of_pair hpair]
    simp [ih]

theorem hexDecode?_of_written (h : HexWritten bs cs) : hexDecode? cs = some bs := hexFrom_of_written h []

/-! ### Percent escapes -/

/-- Each byte is written as an escape, or as the ASCII character that it is, other than the percent
sign. -/
inductive PercentWritten : List UInt8 → List Char → Prop where
  | nil : PercentWritten [] []
  | escape {b : UInt8} {x y : Char} {bs : List UInt8} {cs : List Char} :
      HexPair b x y → PercentWritten bs cs → PercentWritten (b :: bs) ('%' :: x :: y :: cs)
  | plain {c : Char} {bs : List UInt8} {cs : List Char} :
      c.toNat < 128 → c ≠ '%' → PercentWritten bs cs → PercentWritten (c.toNat.toUInt8 :: bs) (c :: cs)

theorem percentBytes_plain (h : c ≠ '%') (done : List UInt8) (cs : List Char) :
    percentBytes done (c :: cs) = percentBytes (c.toNat.toUInt8 :: done) cs := by
  rw [percentBytes]
  exact fun _ _ _ hc => absurd hc h

theorem percentBytes_of_written (h : PercentWritten bs cs) (done : List UInt8) :
    percentBytes done cs = done.reverse ++ bs := by
  induction h generalizing done with
  | nil => simp [percentBytes]
  | escape hpair _ ih =>
    rw [percentBytes, hexByte?_of_pair hpair]
    simp [ih]
  | plain _ hc _ ih =>
    rw [percentBytes_plain hc, ih]
    simp

theorem ascii_of_written (h : PercentWritten bs cs) : ∀ c ∈ cs, c.toNat < 128 := by
  induction h with
  | nil => simp
  | @escape b x y bs cs hpair _ ih =>
    have hb := b.toNat_lt
    have hx := (hexDigit_facts (by omega) hpair.1).2.1
    have hy := (hexDigit_facts (by omega) hpair.2).2.1
    simp only [List.forall_mem_cons]
    exact ⟨by decide, hx, hy, ih⟩
  | plain hc _ _ ih => exact List.forall_mem_cons.mpr ⟨hc, ih⟩

theorem percentFrom_ascii (h : ∀ c ∈ cs, c.toNat < 128) (run : List Char) :
    percentFrom run [] cs = (Utf8.decode (percentBytes [] (run.reverse ++ cs))).toList := by
  induction cs generalizing run with
  | nil => simp [percentFrom]
  | cons c cs ih =>
    obtain ⟨hc, hcs⟩ := List.forall_mem_cons.mp h
    rw [percentFrom, if_pos hc, ih hcs]
    simp

theorem percentDecode_of_written {s text : String} (h : PercentWritten (Utf8.encode s) text.toList) :
    percentDecode text = s := by
  rw [percentDecode, percentFrom_ascii (ascii_of_written h), List.reverse_nil, List.nil_append,
    percentBytes_of_written h, List.reverse_nil, List.nil_append, Utf8.encode, Utf8.decode_flatMap]
  simp

/-! ### Rotated letters -/

/-- The letter 13 places further, with the first letter behind the last. -/
def rot13 (c : Char) : Char :=
  if 'a' ≤ c ∧ c ≤ 'z' then Char.ofNat (97 + (c.toNat - 97 + 13) % 26)
  else if 'A' ≤ c ∧ c ≤ 'Z' then Char.ofNat (65 + (c.toNat - 65 + 13) % 26)
  else c

theorem rotateChar_rot13 (c : Char) : rotateChar (rot13 c) = c := by
  have hascii : ∀ n < 128, rotateChar (rot13 (Char.ofNat n)) = Char.ofNat n := by decide +kernel
  by_cases hc : c.toNat < 128
  · have h := hascii c.toNat hc
    rwa [Char.ofNat_toNat] at h
  · have hle : ∀ d : Char, d.toNat < 128 → ¬c ≤ d := fun d hd => not_le_of_ascii hc hd
    have hrot : rot13 c = c := by simp [rot13, hle 'z' (by decide), hle 'Z' (by decide)]
    rw [hrot]
    simp [rotateChar, hle 'm' (by decide), hle 'M' (by decide), hle 'z' (by decide), hle 'Z' (by decide)]

theorem rotate_map_rot13 (s : String) : rotate (s.map rot13) = s := by
  have hback : rotateChar ∘ rot13 = id := funext rotateChar_rot13
  apply String.toList_injective
  simp [rotate, hback]

end Codec

end SourceAudit

namespace SourceAudit.Taint

open Tree

variable {α : Type} [HasPart α] {n : Tree α} {text s decoder : String}

theorem eq_empty_of_mem_decodings (h : s ∈ decodings decoder "") : s = "" := by
  have hbase64 : base64Texts "" = [""] := by decide +kernel
  have hrotated : [Codec.rotate ""] = [""] := by decide +kernel
  have hescaped : [Codec.percentDecode ""] = [""] := by decide +kernel
  have hdigits : ((Codec.hexDecode? "".toList).map Utf8.decodeValid).toList = [""] := by decide +kernel
  rw [decodings, hbase64, hrotated, hescaped, hdigits] at h
  split_ifs at h
  iterate 4
    · exact List.mem_singleton.mp h
  · exact absurd h List.not_mem_nil

theorem mem_decodedLiterals_of_decodings (hn : literal? n = some text) (hs : s ≠ "") (h : s ∈ decodings decoder text) :
    s ∈ decodedLiterals decoder n := by
  have htext : text ≠ "" := fun he => hs (eq_empty_of_mem_decodings (he ▸ h))
  simp [decodedLiterals, hn, htext, hs, h]

/-! ### Base64 -/

theorem filter_isBase64Char (cs : List Char) :
    cs.filter isBase64Char = cs.filter fun c => Base64.alphabet.contains c || c == '=' := by
  congr 1
  funext c
  rw [isBase64Char, Base64.isSome_value?]

/-- The literal without the characters that are passed over is always tried. -/
theorem base64Text?_of_writes {cs : List Char} (h : Base64.Writes (Utf8.encode s) cs) :
    base64Text? (cs.filter isBase64Char) = some s := by
  have hpadded : Base64.padded (cs.filter isBase64Char) = Base64.encode (Utf8.encode s) := by
    rw [filter_isBase64Char]
    rcases h with h | h
    · rw [h, (Base64.padded_encode _).1]
    · rw [h, (Base64.padded_encode _).2]
  rw [base64Text?, hpadded, Base64.decode?_encode, Option.map_some, Utf8.decodeValid_encode]

theorem mem_base64Texts_of_writes (h : Base64.Writes (Utf8.encode s) text.toList) : s ∈ base64Texts text := by
  have hclean := base64Text?_of_writes h
  unfold base64Texts
  refine List.mem_filterMap.mpr ⟨_, ?_, hclean⟩
  split
  · rename_i heq
    rw [eq_of_beq heq]
    exact List.mem_cons_self
  · simp

/-! ### All encodings -/

/-- **Decoders undo the encoders.** A text that is not empty is among those that a literal may stand
for if the literal writes it in one of the encodings. -/
theorem decoders_undo_encoders (hn : literal? n = some text) (hs : s ≠ "") :
    (Base64.Writes (Utf8.encode s) text.toList → s ∈ decodedLiterals "base64_decode" n) ∧
    (Codec.HexWritten (Utf8.encode s) text.toList → s ∈ decodedLiterals "hex2bin" n) ∧
    (Codec.PercentWritten (Utf8.encode s) text.toList →
      s ∈ decodedLiterals "urldecode" n ∧ s ∈ decodedLiterals "rawurldecode" n) ∧
    (text = s.map Codec.rot13 → s ∈ decodedLiterals "str_rot13" n) := by
  have hmem : ∀ {decoder}, s ∈ decodings decoder text → s ∈ decodedLiterals decoder n :=
    mem_decodedLiterals_of_decodings hn hs
  refine ⟨fun h => hmem (mem_base64Texts_of_writes h), fun h => hmem ?_, fun h => ?_, fun h => hmem ?_⟩
  · simp [decodings, Codec.hexDecode?_of_written h, Utf8.decodeValid_encode]
  · have hdecoded := Codec.percentDecode_of_written h
    exact ⟨hmem (by simp [decodings, hdecoded]), hmem (by simp [decodings, hdecoded])⟩
  · simp [decodings, h, Codec.rotate_map_rot13]

def inQuotes (content : String) : Tree Part :=
  plain "string" ("'" ++ content ++ "'") [plain "string_content" content []]

theorem literal?_inQuotes (content : String) : literal? (inQuotes content) = some content := by
  have hstring : isString (inQuotes content) = true := rfl
  have hcontent : stringContent (inQuotes content) = content := by
    show String.join [content] = content
    simp [String.join]
  rw [literal?_eq, hstring, if_pos rfl, hcontent]

/-- The bytes of `é` are `c3` and `a9`; the Base64 text has no padding and a foreign character. -/
theorem decoders_undo_encoders_accent :
    "é" ∈ decodedLiterals "base64_decode" (inQuotes "w*6k") ∧ "é" ∈ decodedLiterals "hex2bin" (inQuotes "c3A9") ∧
      "aé" ∈ decodedLiterals "urldecode" (inQuotes "a%C3%a9") ∧ "system" ∈ decodedLiterals "str_rot13" (inQuotes "flfgrz") := by
  have hbytes : Utf8.encode "é" = [0xc3, 0xa9] := by decide +kernel
  have hmore : Utf8.encode "aé" = 'a'.toNat.toUInt8 :: [0xc3, 0xa9] := by decide +kernel
  refine ⟨(decoders_undo_encoders (literal?_inQuotes _) (by decide)).1 ?_,
    (decoders_undo_encoders (literal?_inQuotes _) (by decide)).2.1 ?_,
    ((decoders_undo_encoders (literal?_inQuotes _) (by decide)).2.2.1 ?_).1,
    (decoders_undo_encoders (literal?_inQuotes _) (by decide)).2.2.2 (by decide +kernel)⟩
  · rw [hbytes]
    exact Or.inr (by decide +kernel)
  · rw [hbytes]
    exact .cons (by decide) (.cons (by decide) .nil)
  · rw [hmore]
    exact .plain (by decide) (by decide) (.escape (by decide) (.escape (by decide) .nil))

end SourceAudit.Taint
