/-
# Reading written strings, numbers and words

The reader takes a value from the front of a text and stops where the value
ends. A string ends at its closing quote (`stringFrom_writeString`). A number
ends where no digit, point or exponent follows (`Closed`), and up to there it is
read alike whatever follows (`number?_append`).
-/
import SourceAudit.Proofs.Value.Parts
import SourceAudit.Value.JsonWrite

namespace SourceAudit.Json

variable {c : Char} {body : List Char}

/-! ### Strings -/

theorem hex_control : ∀ n < 32, ∃ a b, Text.hex 4 n = ['0', '0', a, b] ∧ hexUnit? '0' '0' a b = some n := by
  intro n hn
  have hall : ∀ n < 32, Text.hex 4 n = ['0', '0', Nat.digitChar (n / 16), Nat.digitChar (n % 16)] ∧
      hexUnit? '0' '0' (Nat.digitChar (n / 16)) (Nat.digitChar (n % 16)) = some n := by decide
  exact ⟨_, _, hall n hn⟩

theorem unitChar_control : ∀ n < 32, unitChar n = Char.ofNat n := by decide

theorem unicodeEscape_control {n : Nat} (hn : n < 32) {a b d : Char} {rest : List Char}
    (h : hexUnit? '0' '0' a b = some n) :
    unicodeEscape ('0' :: '0' :: a :: b :: d :: rest) = .ok (Char.ofNat n, 4) := by
  have hlow : (decide (0xd800 ≤ n) && decide (n ≤ 0xdbff)) = false := by
    rw [decide_eq_false (by omega), Bool.false_and]
  rw [← unitChar_control n hn]
  simp only [unicodeEscape, h, hlow]
  simp

theorem unitEscape_of_control (hc : c.toNat < 32) : unitEscape c = '\\' :: 'u' :: Text.hex 4 c.toNat := by
  have hplane : c.toNat < 0x10000 := by omega
  simp only [unitEscape, if_pos hplane]

theorem unitEscape_control (hc : c.toNat < 32) :
    ∃ a b, unitEscape c = ['\\', 'u', '0', '0', a, b] ∧ hexUnit? '0' '0' a b = some c.toNat := by
  obtain ⟨a, b, hhex, hunit⟩ := hex_control c.toNat hc
  exact ⟨a, b, by rw [unitEscape_of_control hc, hhex], hunit⟩

theorem stringFrom_control (hc : c.toNat < 32) (start : Nat) (done : List Char) (d : Char) (rest : List Char) :
    stringFrom start done 0 (unitEscape c ++ d :: rest) = stringFrom start (c :: done) 0 (d :: rest) := by
  obtain ⟨a, b, hescape, hunit⟩ := unitEscape_control hc
  rw [hescape]
  simp [stringFrom, unicodeEscape_control hc hunit, Char.ofNat_toNat]

theorem stringFrom_simple {e : Char} (h : simpleEscape? e = some c) (start : Nat) (done rest : List Char) :
    stringFrom start done 0 ('\\' :: e :: rest) = stringFrom start (c :: done) 0 rest := by
  have hu : e ≠ 'u' := by
    rintro rfl
    exact absurd h (by simp [simpleEscape?])
  rw [stringFrom]
  · simp [h, stringFrom]
  · exact hu

theorem stringFrom_stringChar (start : Nat) (done : List Char) (c d : Char) (rest : List Char) :
    stringFrom start done 0 (stringChar false c ++ d :: rest) = stringFrom start (c :: done) 0 (d :: rest) := by
  unfold stringChar
  split_ifs with hself hline hreturn htab hback hfeed hcontrol
  · rcases Bool.or_eq_true_iff.mp hself with h | h
    · rw [eq_of_beq h]
      exact stringFrom_simple rfl ..
    · rw [eq_of_beq h]
      exact stringFrom_simple rfl ..
  · rw [eq_of_beq hline]
    exact stringFrom_simple rfl ..
  · rw [eq_of_beq hreturn]
    exact stringFrom_simple rfl ..
  · rw [eq_of_beq htab]
    exact stringFrom_simple rfl ..
  · rw [eq_of_beq hback]
    exact stringFrom_simple rfl ..
  · rw [eq_of_beq hfeed]
    exact stringFrom_simple rfl ..
  · exact stringFrom_control (by simpa using hcontrol) ..
  · have hquote : (c == '"') = false := by simp_all
    have hslash : (c == '\\') = false := by simp_all
    have hc : ¬c.toNat < 32 := by simpa using hcontrol
    simp [stringFrom, hquote, hslash, hc]

theorem stringFrom_chars (start : Nat) (rest : List Char) : ∀ (cs done : List Char),
    stringFrom start done 0 (cs.flatMap (stringChar false) ++ '"' :: rest) =
      .ok (String.ofList (done.reverse ++ cs), rest)
  | [], done => by simp [stringFrom]
  | c :: cs, done => by
    have hmore : ∃ d more, cs.flatMap (stringChar false) ++ '"' :: rest = d :: more := by
      cases h : cs.flatMap (stringChar false) with
      | nil => exact ⟨'"', rest, rfl⟩
      | cons d more => exact ⟨d, more ++ '"' :: rest, rfl⟩
    obtain ⟨d, more, hmore⟩ := hmore
    rw [List.flatMap_cons, List.append_assoc, hmore, stringFrom_stringChar, ← hmore, stringFrom_chars start rest cs]
    simp

theorem stringFrom_writeString (start : Nat) (s : String) (rest : List Char) :
    stringFrom start [] 0 (s.toList.flatMap (stringChar false) ++ '"' :: rest) = .ok (s, rest) := by
  rw [stringFrom_chars]
  simp

theorem toList_writeString (s : String) :
    (writeString false s).toList = '"' :: (s.toList.flatMap (stringChar false) ++ ['"']) := by
  rw [writeString, String.toList_ofList]
  rfl

/-! ### Numbers -/

/-- A character that can stand inside a number or go on with one. -/
def isNumeral (c : Char) : Bool :=
  c.isDigit || c == '.' || c == 'e' || c == 'E' || c == '+' || c == '-'

def Closed (rest : List Char) : Prop :=
  ∀ c ∈ rest.head?, isNumeral c = false

theorem closed_cons (cs : List Char) (h : isNumeral c = false) : Closed (c :: cs) := by
  intro d hd
  rw [List.head?_cons, Option.mem_some_iff] at hd
  exact hd ▸ h

theorem ne_of_not_isNumeral (h : isNumeral c = false) :
    c.isDigit = false ∧ c ≠ '.' ∧ c ≠ 'e' ∧ c ≠ 'E' ∧ c ≠ '+' ∧ c ≠ '-' := by
  simpa [isNumeral, and_assoc] using h

/-- The sign of an exponent, and what follows it. -/
def powerSign (xs : List Char) : Bool × List Char :=
  match xs with
  | '-' :: r => (true, r)
  | '+' :: r => (false, r)
  | r => (false, r)

theorem exponent_cons (hc : (c == 'e' || c == 'E') = true) (xs : List Char) :
    exponent (c :: xs) = if ((powerSign xs).2.takeWhile Char.isDigit).isEmpty then (none, c :: xs)
      else (some (if (powerSign xs).1 then -(natOf ((powerSign xs).2.takeWhile Char.isDigit) : Int)
        else natOf ((powerSign xs).2.takeWhile Char.isDigit)), (powerSign xs).2.dropWhile Char.isDigit) := by
  unfold exponent
  dsimp only
  rw [if_pos hc]
  rfl

section

variable (xs : List Char) {rest : List Char} (h : Closed rest)

include h

theorem takeWhile_closed : rest.takeWhile Char.isDigit = [] := by
  cases rest with
  | nil => rfl
  | cons c cs => simp [(ne_of_not_isNumeral (h c rfl)).1]

theorem takeWhile_append : (xs ++ rest).takeWhile Char.isDigit = xs.takeWhile Char.isDigit := by
  induction xs with
  | nil => exact takeWhile_closed h
  | cons x xs ih =>
    by_cases hx : x.isDigit = true
    · simp [hx, ih]
    · simp [hx]

theorem dropWhile_append : (xs ++ rest).dropWhile Char.isDigit = xs.dropWhile Char.isDigit ++ rest := by
  have hsplit := List.takeWhile_append_dropWhile (p := Char.isDigit) (l := xs ++ rest)
  rw [takeWhile_append xs h] at hsplit
  refine List.append_cancel_left (hsplit.trans ?_)
  rw [← List.append_assoc, List.takeWhile_append_dropWhile]

theorem fraction_append : fraction (xs ++ rest) = ((fraction xs).1, (fraction xs).2 ++ rest) := by
  cases xs with
  | nil =>
    cases rest with
    | nil => rfl
    | cons c cs =>
      have hc := (ne_of_not_isNumeral (h c rfl)).2.1
      simp [fraction, hc]
  | cons x xs =>
    by_cases hx : x = '.'
    · rw [hx]
      simp only [fraction, List.cons_append, takeWhile_append xs h, dropWhile_append xs h]
      split <;> rfl
    · simp [fraction, hx]

theorem powerSign_append : powerSign (xs ++ rest) = ((powerSign xs).1, (powerSign xs).2 ++ rest) := by
  cases xs with
  | nil =>
    cases rest with
    | nil => rfl
    | cons c cs =>
      obtain ⟨_, _, _, _, hplus, hminus⟩ := ne_of_not_isNumeral (h c rfl)
      simp [powerSign, hplus, hminus]
  | cons x xs =>
    by_cases hminus : x = '-'
    · rw [hminus]
      rfl
    · by_cases hplus : x = '+'
      · rw [hplus]
        rfl
      · simp [powerSign, hminus, hplus]

theorem exponent_append : exponent (xs ++ rest) = ((exponent xs).1, (exponent xs).2 ++ rest) := by
  cases xs with
  | nil =>
    cases rest with
    | nil => rfl
    | cons c cs =>
      obtain ⟨_, _, he, hE, _, _⟩ := ne_of_not_isNumeral (h c rfl)
      simp [exponent, he, hE]
  | cons x xs =>
    by_cases hx : (x == 'e' || x == 'E') = true
    · rw [List.cons_append, exponent_cons hx, exponent_cons hx, powerSign_append xs h, takeWhile_append _ h,
        dropWhile_append _ h]
      split <;> rfl
    · simp only [exponent, List.cons_append, if_neg hx]

end

theorem natOf_eq (ds : List Char) : natOf ds = Nat.ofDigitChars 10 ds 0 := by
  rw [natOf, Nat.ofDigitChars]
  congr 1
  funext n c
  rw [Nat.mul_comm]
  rfl

theorem natOf_toDigits (n : Nat) : natOf (Nat.toDigits 10 n) = n := by
  rw [natOf_eq, Nat.ofDigitChars_ten_toDigits]

theorem isDigit_toDigits (n : Nat) : ∀ c ∈ Nat.toDigits 10 n, c.isDigit = true := fun _ h =>
  Nat.isDigit_of_mem_toDigits (by decide) (by decide) h

theorem head?_toDigits {n : Nat} (h : (Nat.toDigits 10 n).head? = some '0') : n = 0 := by
  induction n using Nat.strongRecOn with
  | _ n ih =>
    by_cases hn : n < 10
    · rw [Nat.toDigits_of_lt_base hn] at h
      have hall : ∀ n < 10, [n.digitChar].head? = some '0' → n = 0 := by decide
      exact hall n hn h
    · rw [Nat.toDigits_of_base_le (by decide) (by omega)] at h
      have hfirst : (Nat.toDigits 10 (n / 10)).head? = some '0' := by
        cases hd : Nat.toDigits 10 (n / 10) with
        | nil => exact absurd hd Nat.toDigits_ne_nil
        | cons c cs => rw [hd] at h; simpa using h
      have hzero := ih (n / 10) (by omega) hfirst
      omega

/-- The sign of a number, and what follows it. -/
def sign : List Char → Bool × List Char
  | '-' :: rest => (true, rest)
  | rest => (false, rest)

/-- The digits in front of a number: one if it is a zero. -/
def leading (body : List Char) : List Char :=
  match body with
  | '0' :: _ => ['0']
  | _ => body.takeWhile Char.isDigit

def unsigned? (negative : Bool) (body : List Char) : Option (Value × List Char) :=
  if (leading body).isEmpty then none
  else
    let decimals := fraction (body.drop (leading body).length)
    let power := exponent decimals.2
    if decimals.1.isEmpty && power.1.isNone then
      some (.int (if negative then -(natOf (leading body) : Int) else natOf (leading body)), power.2)
    else
      let scale : Int := power.1.getD 0 - (decimals.1.length : Int)
      some (.real (.ofDecimal negative (natOf (leading body ++ decimals.1)) scale), power.2)

theorem number?_eq (cs : List Char) : number? cs = unsigned? (sign cs).1 (sign cs).2 := rfl

theorem sign_of_ne {cs : List Char} (h : cs.head? ≠ some '-') : sign cs = (false, cs) := by
  unfold sign
  split
  · exact absurd rfl h
  · rfl

theorem sign_append {cs : List Char} (hcs : cs ≠ []) (rest : List Char) :
    sign (cs ++ rest) = ((sign cs).1, (sign cs).2 ++ rest) := by
  cases cs with
  | nil => exact absurd rfl hcs
  | cons c cs =>
    by_cases hc : c = '-'
    · rw [hc]
      rfl
    · have hne : ∀ xs : List Char, (c :: xs).head? ≠ some '-' := fun xs => by simpa using hc
      rw [sign_of_ne (hne cs), List.cons_append, sign_of_ne (hne _)]

theorem leading_append (hbody : leading body ≠ []) {rest : List Char} (h : Closed rest) :
    leading (body ++ rest) = leading body := by
  cases body with
  | nil => exact absurd rfl hbody
  | cons c cs =>
    by_cases hc : c = '0'
    · rw [hc]
      rfl
    · have hne : ∀ xs : List Char, leading (c :: xs) = (c :: xs).takeWhile Char.isDigit := fun xs => by
        simp [leading, hc]
      rw [hne, List.cons_append, hne, ← List.cons_append, takeWhile_append _ h]

theorem length_leading_le (body : List Char) : (leading body).length ≤ body.length := by
  unfold leading
  split
  · simp
  · exact (List.takeWhile_sublist _).length_le

theorem unsigned?_append {negative : Bool} {rest : List Char} {v : Value}
    (hv : unsigned? negative body = some (v, [])) (h : Closed rest) :
    unsigned? negative (body ++ rest) = some (v, rest) := by
  have hbody : (leading body).isEmpty = false := by
    by_contra hempty
    rw [unsigned?, if_pos (by simpa using hempty)] at hv
    cases hv
  have hleading := leading_append (by simpa using hbody) h
  rw [unsigned?, if_neg (by rw [hbody]; decide)] at hv
  rw [unsigned?, hleading, if_neg (by rw [hbody]; decide), List.drop_append_of_le_length (length_leading_le body),
    fraction_append _ h]
  dsimp only at hv ⊢
  rw [exponent_append _ h]
  dsimp only at hv ⊢
  split at hv
  · rename_i hwhole
    rw [if_pos hwhole]
    have hpair := Prod.mk.inj (Option.some.inj hv)
    rw [hpair.1, hpair.2, List.nil_append]
  · rename_i hwhole
    rw [if_neg hwhole]
    have hpair := Prod.mk.inj (Option.some.inj hv)
    rw [hpair.1, hpair.2, List.nil_append]

/-- A number is read alike, whatever follows that does not go on with it. -/
theorem number?_append {cs rest : List Char} {v : Value} (hv : number? cs = some (v, [])) (h : Closed rest) :
    number? (cs ++ rest) = some (v, rest) := by
  have hcs : cs ≠ [] := by
    rintro rfl
    exact absurd hv (by simp [number?])
  rw [number?_eq] at hv ⊢
  rw [sign_append hcs]
  exact unsigned?_append hv h

theorem leading_toDigits (n : Nat) : leading (Nat.toDigits 10 n) = Nat.toDigits 10 n := by
  cases hd : Nat.toDigits 10 n with
  | nil => exact absurd hd Nat.toDigits_ne_nil
  | cons c cs =>
    have hall := isDigit_toDigits n
    rw [hd] at hall
    by_cases hc : c = '0'
    · have hn : n = 0 := head?_toDigits (by rw [hd, hc]; rfl)
      rw [← hd, hn]
      rfl
    · have hself : (c :: cs).takeWhile Char.isDigit = c :: cs := by
        have hdone : (c :: cs ++ []).takeWhile Char.isDigit = c :: cs ++ [].takeWhile Char.isDigit :=
          List.takeWhile_append_of_pos hall
        simpa using hdone
      simp [leading, hc, hself]

theorem unsigned?_toDigits (negative : Bool) (n : Nat) :
    unsigned? negative (Nat.toDigits 10 n) = some (.int (if negative then -(n : Int) else n), []) := by
  have hne : (Nat.toDigits 10 n).isEmpty = false := by simp [Nat.toDigits_ne_nil]
  rw [unsigned?, leading_toDigits, hne, List.drop_length, natOf_toDigits]
  rfl

theorem toList_toString_int (i : Int) :
    (toString i).toList = (if i < 0 then ['-'] else []) ++ Nat.toDigits 10 i.natAbs := by
  rw [Int.toString_eq_repr]
  cases i with
  | ofNat m =>
    have hm : ¬Int.ofNat m < 0 := by simp
    rw [if_neg hm]
    simp [Int.repr, Nat.toList_repr]
  | negSucc m =>
    have hm : Int.negSucc m < 0 := Int.negSucc_lt_zero m
    rw [if_pos hm]
    simp [Int.repr, Nat.toList_repr]

theorem number?_toString (i : Int) : number? (toString i).toList = some (.int i, []) := by
  rw [toList_toString_int, number?_eq]
  by_cases hi : i < 0
  · have habs : -(i.natAbs : Int) = i := by omega
    rw [if_pos hi, List.singleton_append, sign, unsigned?_toDigits, if_pos rfl, habs]
  · have hminus : (Nat.toDigits 10 i.natAbs).head? ≠ some '-' := by
      intro h
      have hdigit := isDigit_toDigits i.natAbs '-' (List.mem_of_head? h)
      exact absurd hdigit (by decide)
    have habs : (i.natAbs : Int) = i := by omega
    rw [if_neg hi, List.nil_append, sign_of_ne hminus, unsigned?_toDigits, if_neg Bool.false_ne_true, habs]

/-! ### Words and numbers -/

variable {cs rest : List Char} {v : Value} {r : Value × List Char}

theorem head_of_unsigned? {negative : Bool} (h : unsigned? negative body = some r) :
    ∃ c rest, c.isDigit = true ∧ body = c :: rest := by
  cases body with
  | nil => exact absurd h (by simp [unsigned?, leading])
  | cons c rest =>
    by_cases hc : c.isDigit = true
    · exact ⟨c, rest, hc, rfl⟩
    · have hzero : c ≠ '0' := by
        rintro rfl
        exact hc rfl
      exact absurd h (by simp [unsigned?, leading, hc, hzero])

theorem head_of_number? (h : number? cs = some r) :
    ∃ c rest, c.isDigit = true ∧ (cs = c :: rest ∨ cs = '-' :: c :: rest) := by
  rw [number?_eq] at h
  obtain ⟨c, rest, hc, hbody⟩ := head_of_unsigned? h
  refine ⟨c, rest, hc, ?_⟩
  cases cs with
  | nil => exact absurd hbody (by simp [sign])
  | cons x xs =>
    by_cases hx : x = '-'
    · rw [hx] at hbody ⊢
      exact Or.inr (congrArg _ hbody)
    · rw [sign_of_ne (by simpa using hx)] at hbody
      exact Or.inl hbody

theorem scalar_number (h : number? cs = some r) : scalar cs = .ok r := by
  have hnone : wordValues.find? (fun w => w.1.isPrefixOf cs) = none := by
    obtain ⟨c, rest, hc, rfl | rfl⟩ := head_of_number? h
    · have hne : ∀ d : Char, d.isDigit = false → (d == c) = false := fun d hd => by
        rw [beq_eq_false_iff_ne]
        rintro rfl
        rw [hd] at hc
        exact absurd hc (by decide)
      simp [wordValues, List.isPrefixOf, hne]
    · have hne : ('I' == c) = false := by
        rw [beq_eq_false_iff_ne]
        rintro rfl
        exact absurd hc (by decide)
      simp [wordValues, List.isPrefixOf, hne]
  rw [scalar, hnone, h]

theorem wordValues_eq : wordValues = [(['n', 'u', 'l', 'l'], .null), (['t', 'r', 'u', 'e'], .bool true),
    (['f', 'a', 'l', 's', 'e'], .bool false), (['N', 'a', 'N'], .real .undefined),
    (['I', 'n', 'f', 'i', 'n', 'i', 't', 'y'], .real (.infinite false)),
    (['-', 'I', 'n', 'f', 'i', 'n', 'i', 't', 'y'], .real (.infinite true))] := by
  simp [wordValues]

theorem scalar_word : ∀ w ∈ wordValues, ∀ rest : List Char, scalar (w.1 ++ rest) = .ok (w.2, rest) := by
  intro w hw rest
  rw [wordValues_eq] at hw
  rw [scalar, wordValues_eq]
  simp only [List.mem_cons, List.not_mem_nil, or_false] at hw
  rcases hw with rfl | rfl | rfl | rfl | rfl | rfl <;> rfl

/-- A word or a number is read alike, whatever follows that does not go on with it. -/
theorem scalar_append (hv : scalar cs = .ok (v, [])) (h : Closed rest) : scalar (cs ++ rest) = .ok (v, rest) := by
  unfold scalar at hv
  split at hv
  · rename_i word w hword
    have hmem := List.mem_of_find?_eq_some hword
    have hfront : word <+: cs := by simpa using List.find?_some hword
    obtain ⟨tail, rfl⟩ := hfront
    have hpair := Prod.mk.inj (Except.ok.inj hv)
    rw [List.drop_left] at hpair
    rw [hpair.2, List.append_nil, ← hpair.1]
    exact scalar_word _ hmem rest
  · split at hv
    · rename_i r hr
      rw [Except.ok.inj hv] at hr
      exact scalar_number (number?_append hr h)
    · cases hv

/-- What a value can start with: no blank, no closing bracket and no mark of the byte order. -/
def Starts (cs : List Char) : Prop :=
  ∃ c rest, cs = c :: rest ∧ isSpace c = false ∧ c ≠ ']' ∧ c ≠ '\x7d' ∧ c ≠ '\ufeff'

theorem head_of_word : ∀ w ∈ wordValues, ∃ c ∈ ['-', 'n', 't', 'f', 'N', 'I'], w.1.head? = some c := by
  simp [wordValues]

theorem head_of_scalar (h : scalar cs = .ok r) :
    ∃ c rest, cs = c :: rest ∧ (c.isDigit = true ∨ c ∈ ['-', 'n', 't', 'f', 'N', 'I']) := by
  unfold scalar at h
  split at h
  · rename_i word w hword
    have hmem := List.mem_of_find?_eq_some hword
    have hfront : word <+: cs := by simpa using List.find?_some hword
    obtain ⟨tail, rfl⟩ := hfront
    obtain ⟨c, hc, hhead⟩ := head_of_word _ hmem
    obtain ⟨rest, rfl⟩ := List.head?_eq_some_iff.mp hhead
    exact ⟨c, rest ++ tail, rfl, Or.inr hc⟩
  · split at h
    · rename_i s hs
      obtain ⟨c, rest, hc, rfl | rfl⟩ := head_of_number? hs
      · exact ⟨c, rest, rfl, Or.inl hc⟩
      · exact ⟨'-', c :: rest, rfl, Or.inr (by simp)⟩
    · cases h

theorem starts_of_scalar (h : scalar cs = .ok r) : Starts cs := by
  obtain ⟨c, rest, rfl, hc⟩ := head_of_scalar h
  refine ⟨c, rest, rfl, ?_⟩
  rcases hc with hc | hc
  · have hne : ∀ d : Char, d.isDigit = false → c ≠ d := by
      rintro d hd rfl
      rw [hd] at hc
      exact absurd hc (by decide)
    simp [isSpace, hne]
  · have hall : (['-', 'n', 't', 'f', 'N', 'I'].all fun c =>
        !isSpace c && c != ']' && c != '\x7d' && c != '\ufeff') = true := by decide
    simpa [and_assoc] using List.all_eq_true.mp hall c hc

theorem value_scalar (h : scalar cs = .ok r) (fuel : Nat) : value (fuel + 1) cs = .ok r := by
  obtain ⟨c, rest, rfl, hc⟩ := head_of_scalar h
  have hne : c ≠ '"' ∧ c ≠ '[' ∧ c ≠ '\x7b' := by
    rcases hc with hc | hc
    · refine ⟨?_, ?_, ?_⟩ <;> (rintro rfl; exact absurd hc (by decide))
    · have hall : (['-', 'n', 't', 'f', 'N', 'I'].all fun c => c != '"' && c != '[' && c != '\x7b') = true := by
        decide
      simpa [and_assoc] using List.all_eq_true.mp hall c hc
  unfold value
  split
  · rename_i heq
    exact absurd (List.cons.inj heq).1 hne.1
  · rename_i heq
    exact absurd (List.cons.inj heq).1 hne.2.1
  · rename_i heq
    exact absurd (List.cons.inj heq).1 hne.2.2
  · exact h

end SourceAudit.Json
