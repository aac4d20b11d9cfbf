/-
# What reading in chunks gives

A character at the start of some bytes stays one when more bytes follow, and so does a
fault; only what is cut off may still become either (`Encoding.first_append`). So bytes
can be decoded in parts, each after what the part before has left over
(`Encoding.decodePart?_append`).

A file that is being read has at each moment given out a start of its text
(`Chunked.Reading`): its bytes are decoded block by block, and line ends are joined so as
well, as long as a carriage return waits for what follows it (`Text.feeds_append`). A
block more keeps this, and so does a piece more; a fault shows that the bytes are not in
the encoding. The pieces of a file therefore make up its text (`Chunked.given_ofBytes`),
unless some are given out as UTF-8 before a fault makes the file start again as GBK.
-/
import SourceAudit.Files.Chunks
import SourceAudit.Proofs.Outcome
import SourceAudit.Proofs.Text.Utf8

namespace SourceAudit

variable {wanted : Nat} {s : String} {xs cs : List Char}

/-! ### One character after another -/

namespace Utf8

theorem tails_ok (cs : List UInt8) : ∀ {n code taken found : Nat} {lo hi : UInt8} {bs : List UInt8},
    tails code lo hi n taken bs = .ok found → n ≤ bs.length ∧ tails code lo hi n taken (bs ++ cs) = .ok found
  | 0, _, _, _, _, _, _, h => ⟨Nat.zero_le _, h⟩
  | _ + 1, _, _, _, _, _, [], h => absurd h (by simp [tails])
  | n + 1, _, _, _, _, _, b :: bs, h => by
    rw [tails] at h
    rw [List.cons_append, tails]
    split_ifs at h with hb
    obtain ⟨hlength, hmore⟩ := tails_ok cs h
    rw [if_pos hb, List.length_cons]
    exact ⟨by omega, hmore⟩

theorem tails_error (cs : List UInt8) : ∀ {n code taken stop : Nat} {lo hi : UInt8} {bs : List UInt8},
    tails code lo hi n taken bs = .error stop → stop ≠ taken + bs.length →
      tails code lo hi n taken (bs ++ cs) = .error stop ∧ stop ≠ taken + (bs ++ cs).length
  | 0, _, _, _, _, _, _, h, _ => absurd h (by simp [tails])
  | n + 1, _, _, _, _, _, [], h, hstop => absurd (Except.error.inj h) (fun h => hstop h.symm)
  | n + 1, _, taken, _, _, _, b :: bs, h, hstop => by
    rw [tails] at h
    rw [List.cons_append, tails]
    rw [List.length_cons] at hstop ⊢
    split_ifs at h with hb
    · rw [if_pos hb]
      obtain ⟨hmore, hne⟩ := tails_error cs h (by omega)
      exact ⟨hmore, by omega⟩
    · rw [if_neg hb]
      exact ⟨h, by rw [← Except.error.inj h]; omega⟩

theorem next_some {b : UInt8} {bs : List UInt8} {c : Char} {more : Nat} (cs : List UInt8)
    (h : next b bs = (some c, more)) : more ≤ bs.length ∧ next b (bs ++ cs) = (some c, more) := by
  unfold next at h ⊢
  split at h
  · cases h
  · obtain ⟨-, rfl⟩ := Prod.mk.inj h
    exact ⟨Nat.zero_le _, h⟩
  · rename_i n lo hi hn hlead
    dsimp only at h ⊢
    split at h
    · rename_i code htails
      obtain ⟨hlength, hmore⟩ := tails_ok cs htails
      obtain ⟨-, rfl⟩ := Prod.mk.inj h
      rw [hmore]
      exact ⟨hlength, h⟩
    · cases h

/-- What is not the start of a character is none whatever follows, unless it ends too soon. -/
theorem next_none {b : UInt8} {bs : List UInt8} {taken : Nat} (cs : List UInt8) (h : next b bs = (none, taken))
    (hstop : ¬((lead b).isSome && taken = bs.length) = true) :
    next b (bs ++ cs) = (none, taken) ∧ ¬((lead b).isSome && taken = (bs ++ cs).length) = true := by
  unfold next at h ⊢
  split at h
  · rename_i hlead
    simpa [hlead] using h
  · cases h
  · rename_i n lo hi hn hlead
    dsimp only at h ⊢
    rw [hlead] at hstop ⊢
    split at h
    · cases h
    · rename_i stop htails
      obtain ⟨-, rfl⟩ := Prod.mk.inj h
      obtain ⟨hmore, hne⟩ := tails_error cs htails (by simpa using hstop)
      rw [hmore]
      exact ⟨rfl, by simpa using hne⟩

theorem partialFrom_eq : ∀ (bs : List UInt8) (done : List Char) (skip : Nat),
    partialFrom done skip bs = (partialFrom [] 0 (bs.drop skip)).map fun r => (done.reverse ++ r.1, r.2)
  | [], _, _ => by simp [partialFrom]
  | _ :: bs, done, skip + 1 => partialFrom_eq bs done skip
  | b :: bs, done, 0 => by
    rw [List.drop_zero, partialFrom, partialFrom]
    rcases next b bs with ⟨_ | c, more⟩ <;> dsimp only
    · split_ifs <;> simp
    · rw [partialFrom_eq bs (c :: done) more, partialFrom_eq bs [c] more, Option.map_map]
      simp [Function.comp_def]

theorem decode?_eq_some {bs : List UInt8} : decode? bs = some s ↔ pieces bs = s.toList.map some := by
  have hwhole : ∀ ps : List (Option Char), ps.all Option.isSome = true → ps = (ps.filterMap id).map some := by
    intro ps
    induction ps with
    | nil => exact fun _ => rfl
    | cons p ps ih =>
      intro h
      obtain ⟨hp, hps⟩ := Bool.and_eq_true_iff.mp ((List.all_cons ..).symm.trans h)
      obtain ⟨c, rfl⟩ := Option.isSome_iff_exists.mp hp
      simpa using ih hps
  unfold decode?
  dsimp only
  constructor
  · intro h
    split_ifs at h with hall
    rw [← Option.some.inj h, String.toList_ofList]
    exact hwhole _ hall
  · intro h
    simp [h, List.filterMap_map]

end Utf8

/-- What some bytes start with. -/
inductive First where
  /-- A character, and the bytes after it. -/
  | char (c : Char) (rest : List UInt8)
  /-- Nothing, or a character that is not complete. -/
  | cut
  /-- Bytes of no character. -/
  | bad

/-- The same with more bytes behind. -/
def First.append (cs : List UInt8) : First → First
  | .char c rest => .char c (rest ++ cs)
  | .cut => .cut
  | .bad => .bad

/-- The characters of some bytes that start like this, and the bytes at the end that are a part of a
further one. -/
def First.parts (after : List UInt8 → Option (List Char × List UInt8)) (bs : List UInt8) :
    First → Option (List Char × List UInt8)
  | .char c rest => (after rest).map fun r => (c :: r.1, r.2)
  | .cut => some ([], bs)
  | .bad => none

theorem Gbk.decodeFrom_of_lt {a : UInt8} (h : a < 0x80) (done : List Char) (bs : List UInt8) :
    decodeFrom done (a :: bs) = decodeFrom (Char.ofNat a.toNat :: done) bs := by
  cases bs with
  | nil => rw [decodeFrom, decodeFrom, if_pos h]
  | cons b bs => rw [decodeFrom, if_pos h]

theorem Gbk.decodeFrom_eq : ∀ (done : List Char) (bs : List UInt8),
    decodeFrom done bs = (decodeFrom [] bs).map fun r => (done.reverse ++ r.1, r.2)
  | done, [] => by simp [decodeFrom]
  | done, [a] => by
    rw [decodeFrom, decodeFrom]
    split_ifs <;> simp
  | done, a :: b :: bs => by
    rw [decodeFrom, decodeFrom]
    split_ifs with ha
    · rw [decodeFrom_eq (_ :: done), decodeFrom_eq [_], Option.map_map]
      simp [Function.comp_def]
    · cases char? a b with
      | none => rfl
      | some c =>
        dsimp only
        rw [decodeFrom_eq (_ :: done), decodeFrom_eq [_], Option.map_map]
        simp [Function.comp_def]

namespace Encoding

def first : Encoding → List UInt8 → First
  | _, [] => .cut
  | .utf8, b :: bs =>
    match Utf8.next b bs with
    | (some c, more) => .char c (bs.drop more)
    | (none, taken) => if (Utf8.lead b).isSome && taken = bs.length then .cut else .bad
  | .gbk, a :: bs =>
    if a < 0x80 then .char (Char.ofNat a.toNat) bs
    else
      match bs with
      | [] => .cut
      | b :: bs =>
        match Gbk.char? a b with
        | some c => .char c bs
        | none => .bad
  | .latin1, b :: bs => .char (Char.ofNat b.toNat) bs

variable {enc : Encoding} {bs rest : List UInt8} {c : Char}

theorem length_lt_of_first (h : enc.first bs = .char c rest) : rest.length < bs.length := by
  cases bs with
  | nil => exact absurd h (by simp [first])
  | cons b bs =>
    have hle : rest.length ≤ bs.length := by
      cases enc with
      | utf8 =>
        simp only [first] at h
        split at h
        · simp [← (First.char.inj h).2]
        · split_ifs at h
      | gbk =>
        simp only [first] at h
        split_ifs at h
        · simp [← (First.char.inj h).2]
        · split at h
          · cases h
          · split at h
            · simp [← (First.char.inj h).2]
            · cases h
      | latin1 => simp [← (First.char.inj h).2]
    exact Nat.lt_succ_of_le hle

/-- What some bytes start with, they start with whatever follows, if it is complete. -/
theorem first_append (h : enc.first bs ≠ .cut) (cs : List UInt8) :
    enc.first (bs ++ cs) = (enc.first bs).append cs := by
  cases bs with
  | nil => exact absurd rfl h
  | cons b bs =>
    rw [List.cons_append]
    cases enc with
    | utf8 =>
      simp only [first] at h ⊢
      rcases hnext : Utf8.next b bs with ⟨_ | c, more⟩ <;> simp only [hnext] at h ⊢
      · have hstop : ¬((Utf8.lead b).isSome && more = bs.length) = true := fun hstop => h (if_pos hstop)
        obtain ⟨hmore, hne⟩ := Utf8.next_none cs hnext hstop
        rw [hmore]
        dsimp only
        rw [if_neg hstop, if_neg hne, First.append]
      · obtain ⟨hlength, hmore⟩ := Utf8.next_some cs hnext
        rw [hmore]
        dsimp only
        rw [List.drop_append_of_le_length hlength, First.append]
    | gbk =>
      simp only [first] at h ⊢
      split_ifs at h ⊢ with ha
      · rfl
      · cases bs with
        | nil => exact absurd rfl h
        | cons b' bs =>
          rw [List.cons_append]
          dsimp only
          cases Gbk.char? b b' <;> rfl
    | latin1 => rfl

theorem decodePart?_eq (enc : Encoding) (bs : List UInt8) :
    enc.decodePart? bs = (enc.first bs).parts enc.decodePart? bs := by
  cases bs with
  | nil => cases enc <;> rfl
  | cons b bs =>
    cases enc with
    | utf8 =>
      simp only [decodePart?, first]
      rw [Utf8.partialFrom]
      rcases Utf8.next b bs with ⟨_ | c, more⟩ <;> dsimp only
      · split_ifs <;> rfl
      · rw [Utf8.partialFrom_eq]
        rfl
    | gbk =>
      simp only [decodePart?, first]
      split_ifs with ha
      · rw [Gbk.decodeFrom_of_lt ha, Gbk.decodeFrom_eq]
        rfl
      · cases bs with
        | nil => simp [Gbk.decodeFrom, ha, First.parts]
        | cons b' bs =>
          simp only [Gbk.decodeFrom, if_neg ha]
          cases Gbk.char? b b' <;> dsimp only
          · rfl
          · rw [Gbk.decodeFrom_eq]
            rfl
    | latin1 => rfl

/-- What holds of bytes if it holds of those after their first character, holds of any bytes. -/
theorem induction_first (enc : Encoding) {P : List UInt8 → Prop}
    (h : ∀ bs, (∀ c rest, enc.first bs = .char c rest → P rest) → P bs) : ∀ bs, P bs := by
  intro bs
  induction hn : bs.length using Nat.strongRecOn generalizing bs with
  | ind n ih => exact h bs fun c rest hfirst => ih rest.length (hn ▸ length_lt_of_first hfirst) rest rfl

/-- **Bytes in two parts.** The second part is decoded after what the first leaves. -/
theorem decodePart?_append (enc : Encoding) (bs cs : List UInt8) : enc.decodePart? (bs ++ cs) =
    (enc.decodePart? bs).bind fun r => (enc.decodePart? (r.2 ++ cs)).map fun r' => (r.1 ++ r'.1, r'.2) := by
  induction bs using induction_first enc with
  | h bs ih =>
    rw [decodePart?_eq enc bs]
    cases hfirst : enc.first bs with
    | char c rest =>
      have happend := first_append (by simp [hfirst] : enc.first bs ≠ .cut) cs
      rw [decodePart?_eq enc (bs ++ cs), happend, hfirst]
      simp only [First.append, First.parts]
      rw [ih c rest hfirst]
      cases enc.decodePart? rest <;> simp [Function.comp_def]
    | cut => simp [First.parts]
    | bad =>
      have happend := first_append (by simp [hfirst] : enc.first bs ≠ .cut) cs
      rw [decodePart?_eq enc (bs ++ cs), happend, hfirst]
      rfl

/-- The bytes at the end start no character. -/
theorem decodePart?_cut {cut : List UInt8} (h : enc.decodePart? bs = some (xs, cut)) :
    enc.decodePart? cut = some ([], cut) := by
  have hnil := decodePart?_append enc bs []
  rw [List.append_nil, h, Option.bind_some, List.append_nil] at hnil
  obtain ⟨p, hcut, hp⟩ := Option.map_eq_some_iff.mp hnil.symm
  obtain ⟨hxs, hp⟩ := Prod.mk.inj hp
  have hnone : p.1 = [] := by simpa using hxs
  rw [hcut, ← hnone, ← hp]

/-- Each character has at least one byte. -/
theorem length_decodePart? : ∀ (bs : List UInt8) {xs : List Char} {cut : List UInt8},
    enc.decodePart? bs = some (xs, cut) → xs.length + cut.length ≤ bs.length := by
  intro bs
  induction bs using induction_first enc with
  | h bs ih =>
    intro xs cut h
    rw [decodePart?_eq] at h
    cases hfirst : enc.first bs with
    | char c rest =>
      rw [hfirst] at h
      obtain ⟨⟨ys, cut⟩, hrest, hr⟩ := Option.map_eq_some_iff.mp h
      dsimp only at hr
      obtain ⟨rfl, rfl⟩ := Prod.mk.inj hr
      have hlt := length_lt_of_first hfirst
      have hle := ih c rest hfirst hrest
      rw [List.length_cons]
      omega
    | cut =>
      rw [hfirst] at h
      obtain ⟨rfl, rfl⟩ := Prod.mk.inj (Option.some.inj h)
      simp
    | bad =>
      rw [hfirst] at h
      exact absurd h (by simp [First.parts])

theorem pieces_eq_iff (bs : List UInt8) : ∀ {xs : List Char},
    Utf8.pieces bs = xs.map some ↔ utf8.decodePart? bs = some (xs, []) := by
  induction bs using induction_first utf8 with
  | h bs ih =>
    intro xs
    cases bs with
    | nil =>
      have hempty : utf8.decodePart? [] = some ([], []) := rfl
      rw [hempty, Utf8.pieces, Utf8.piecesFrom]
      cases xs <;> simp
    | cons b bs =>
      rw [decodePart?_eq, Utf8.pieces_cons]
      simp only [first] at ih ⊢
      rcases hnext : Utf8.next b bs with ⟨_ | c, more⟩ <;> simp only [hnext] at ih ⊢
      · -- a piece that is no character leaves something over, or is a fault
        split_ifs <;> cases xs <;> simp [First.parts]
      · cases xs with
        | nil => simp [First.parts]
        | cons x xs =>
          rw [List.map_cons, List.cons.injEq, Option.some.injEq, ih c _ rfl, First.parts, Option.map_eq_some_iff]
          simp [and_comm]

/-- The text of some bytes is what they are decoded to without a rest. -/
theorem decode?_eq_some : enc.decode? bs = some s ↔ enc.decodePart? bs = some (s.toList, []) := by
  cases enc with
  | utf8 => exact Utf8.decode?_eq_some.trans (pieces_eq_iff bs)
  | gbk =>
    simp only [decode?, decodePart?, Gbk.decode?]
    split
    · rename_i cs hcs
      rw [hcs]
      simp [String.ext_iff]
    · rename_i hcs
      simp only [reduceCtorEq, false_iff]
      exact fun h => hcs _ h
  | latin1 => simp [decode?, decodePart?, String.ext_iff]

end Encoding

/-! ### Line ends -/

namespace Text

/-- Characters with one line feed for each line end, after a carriage return or not. -/
def feeds : (returned : Bool) → List Char → List Char
  | _, [] => []
  | returned, c :: cs =>
    if returned && c = '\n' then feeds false cs
    else (if c = '\r' then '\n' else c) :: feeds (c = '\r') cs

theorem feeds_of_head_ne (h : cs.head? ≠ some '\n') (returned : Bool) : feeds returned cs = feeds false cs := by
  cases cs with
  | nil => cases returned <;> rfl
  | cons c cs =>
    have hc : c ≠ '\n' := by simpa using h
    simp [feeds, hc]

theorem joinNewlinesFrom_eq (done cs : List Char) : joinNewlinesFrom done cs = done.reverse ++ feeds false cs := by
  fun_induction joinNewlinesFrom done cs with
  | case1 => simp [feeds]
  | case2 done cs ih => simp [ih, feeds]
  | case3 done cs hcs ih =>
    have hhead : cs.head? ≠ some '\n' := by
      cases cs with
      | nil => simp
      | cons c cs => simpa using fun hc : c = '\n' => hcs cs (hc ▸ rfl)
    rw [ih, feeds, feeds_of_head_ne hhead (decide _)]
    simp
  | case4 done c cs hc hc' ih =>
    have hne : c ≠ '\r' := hc'
    simp [ih, feeds, hne]

theorem feeds_append_eq (returned : Bool) (xs ys : List Char) : feeds returned (xs ++ ys) =
    feeds returned xs ++ feeds (xs.foldl (fun _ c => decide (c = '\r')) returned) ys := by
  induction xs generalizing returned with
  | nil => rfl
  | cons c xs ih =>
    rw [List.cons_append, feeds, feeds, List.foldl_cons]
    by_cases hc : (returned && decide (c = '\n')) = true
    · have hne : decide (c = '\r') = false := by
        obtain ⟨-, rfl⟩ : returned = true ∧ c = '\n' := by simpa using hc
        rfl
      rw [if_pos hc, if_pos hc, ih, hne]
    · rw [if_neg hc, if_neg hc, ih, List.cons_append]

/-- **Line ends in two parts**, if no line end is cut in two. -/
theorem feeds_append {ys : List Char} (h : xs.getLast? ≠ some '\r' ∨ ys.head? ≠ some '\n') :
    feeds false (xs ++ ys) = feeds false xs ++ feeds false ys := by
  rw [feeds_append_eq]
  rcases h with h | h
  · rcases List.eq_nil_or_concat xs with rfl | ⟨xs, c, rfl⟩
    · rfl
    · have hc : c ≠ '\r' := by simpa using h
      simp [hc]
  · rw [feeds_of_head_ne h]

theorem length_feeds_le (returned : Bool) (cs : List Char) : (feeds returned cs).length ≤ cs.length := by
  fun_induction feeds returned cs with
  | case1 => simp
  | case2 returned c cs hc ih => exact Nat.le_succ_of_le ih
  | case3 returned c cs hc ih => simpa using ih

theorem feeds_of_notMem (h : '\r' ∉ cs) : feeds false cs = cs := by
  induction cs with
  | nil => rfl
  | cons c cs ih =>
    rw [List.mem_cons, not_or] at h
    simp [feeds, Ne.symm h.1, ih h.2]

theorem toList_joinNewlines (s : String) : (joinNewlines s).toList = feeds false s.toList := by
  unfold joinNewlines
  split_ifs with h
  · rw [joinNewlinesFrom_eq]
    simp
  · exact (feeds_of_notMem (by simpa using h)).symm

end Text

/-! ### A block more -/

namespace Chunked

open Text

/-- The carriage return that waits, if one does. -/
def pending (waiting : Bool) : List Char := if waiting then ['\r'] else []

/-- The characters of a block with the carriage return that waits before them: some are given out, with
one line feed for each line end, and a carriage return after them may wait in turn. -/
theorem exists_joinLineEnds (waiting final : Bool) (cs : List Char) : ∃ zs,
    pending waiting ++ cs = zs ++ pending (joinLineEnds waiting final cs).2 ∧
      (joinLineEnds waiting final cs).1 = feeds false zs ∧ (waiting = true → zs.head? ≠ some '\n') ∧
      ((joinLineEnds waiting final cs).2 = false → final = true ∨ zs.getLast? ≠ some '\r') := by
  have hhead : waiting = true → (pending waiting ++ cs).head? ≠ some '\n' := by
    rintro rfl
    simp [pending]
  by_cases hnone : final = false ∧ cs = []
  · -- a block that completes no character lets the carriage return wait on
    obtain ⟨rfl, rfl⟩ := hnone
    have hrun : joinLineEnds waiting false [] = ([], waiting) := by cases waiting <;> rfl
    rw [hrun]
    exact ⟨[], by simp, rfl, by simp, by simp⟩
  have hrun : joinLineEnds waiting final cs =
      if (!final && (pending waiting ++ cs).getLast? == some '\r') = true
      then (feeds false (pending waiting ++ cs).dropLast, true) else (feeds false (pending waiting ++ cs), false) := by
    unfold joinLineEnds
    simp only [joinNewlinesFrom_eq, List.reverse_nil, List.nil_append]
    cases cs with
    | nil =>
      obtain rfl : final = true := by simpa using hnone
      cases waiting <;> rfl
    | cons c cs => cases waiting <;> cases final <;> simp [pending]
  rw [hrun]
  split_ifs with hlast
  · obtain ⟨hfinal, hlast⟩ : final = false ∧ (pending waiting ++ cs).getLast? = some '\r' := by simpa using hlast
    have hsplit := List.dropLast_append_getLast? _ hlast
    refine ⟨(pending waiting ++ cs).dropLast, hsplit.symm, rfl, ?_, by simp⟩
    rintro rfl
    have hcs : cs ≠ [] := fun hcs => hnone ⟨hfinal, hcs⟩
    rw [pending, if_pos rfl, List.singleton_append, List.dropLast_cons_of_ne_nil hcs]
    simp
  · refine ⟨pending waiting ++ cs, by simp [pending], rfl, hhead, fun _ => ?_⟩
    cases final with
    | true => exact .inl rfl
    | false => exact .inr (by simpa using hlast)

variable {enc : Encoding} {bs : List UInt8} {out : List Char} {r : Chunked}

/-- A reader of some bytes that has given out some characters: it has decoded a part of the bytes, and
given out the text of this part but for what is ready or waits. -/
structure Reading (enc : Encoding) (bs : List UInt8) (out : List Char) (r : Chunked) : Prop where
  exists_parts : ∃ front xs, bs = front ++ r.rest ∧ enc.decodePart? front = some (xs ++ pending r.carriage, r.cut) ∧
    feeds false xs = out ++ r.ready ∧ (r.carriage = false → r.rest = [] ∨ xs.getLast? ≠ some '\r')

/-- The reader has nothing left to give. -/
structure Exhausted (r : Chunked) : Prop where
  rest : r.rest = []
  cut : r.cut = []
  carriage : r.carriage = false
  ready : r.ready = []

/-- The number of bytes in the next block. -/
def block (wanted : Nat) (r : Chunked) : Nat :=
  max blockSize (scaled (if r.width < 1 then 1 else r.width) wanted)

theorem block_pos (wanted : Nat) (r : Chunked) : 0 < r.block wanted :=
  Nat.lt_of_lt_of_le (by decide) (Nat.le_max_left blockSize _)

/-- A bound for the number of blocks left. -/
def left (r : Chunked) : Nat :=
  if r.rest = [] then (if r.carriage then 2 else 1) else r.rest.length + 2

theorem isEmpty_take_block (wanted : Nat) (r : Chunked) : (r.rest.take (r.block wanted)).isEmpty = r.rest.isEmpty := by
  have hne : r.block wanted ≠ 0 := Nat.ne_of_gt (block_pos wanted r)
  rw [Bool.eq_iff_iff, List.isEmpty_iff, List.isEmpty_iff, List.take_eq_nil_iff]
  simp [hne]

/-- **What a block can do.** Its bytes are no characters, or the file ends within one; or its characters
are ready to be given out, with the carriage return that waited before them. -/
theorem refill_cases (enc : Encoding) (wanted : Nat) (r : Chunked) :
    (refill enc wanted r = none ∧ (enc.decodePart? (r.cut ++ r.rest.take (r.block wanted)) = none ∨
      ∃ cs cut, enc.decodePart? (r.cut ++ r.rest.take (r.block wanted)) = some (cs, cut) ∧ r.rest = [] ∧ cut ≠ [])) ∨
    ∃ cs cut width, enc.decodePart? (r.cut ++ r.rest.take (r.block wanted)) = some (cs, cut) ∧
      (r.rest = [] → cut = []) ∧ refill enc wanted r =
        some (⟨r.rest.drop (r.block wanted), cut, (joinLineEnds r.carriage r.rest.isEmpty cs).2,
          (joinLineEnds r.carriage r.rest.isEmpty cs).1, width⟩,
          !r.rest.isEmpty || !(joinLineEnds r.carriage r.rest.isEmpty cs).1.isEmpty) := by
  have hempty := isEmpty_take_block wanted r
  unfold refill
  dsimp only
  rw [← block, hempty]
  cases enc.decodePart? (r.cut ++ r.rest.take (r.block wanted)) with
  | none => exact .inl ⟨rfl, .inl rfl⟩
  | some p =>
    dsimp only
    by_cases hend : (r.rest.isEmpty && !p.2.isEmpty) = true
    · rw [if_pos hend]
      exact .inl ⟨rfl, .inr ⟨p.1, p.2, rfl, by simpa using hend⟩⟩
    · rw [if_neg hend]
      exact .inr ⟨p.1, p.2, _, rfl, by simpa using hend, rfl⟩

namespace Reading

theorem start (enc : Encoding) (bs : List UInt8) : Reading enc bs [] { rest := bs } :=
  ⟨[], [], rfl, by cases enc <;> rfl, rfl, fun _ => .inr (by simp)⟩

/-- What was given out is the text of the bytes once nothing is left. -/
theorem decode?_of_exhausted (h : Reading enc bs out r) (hr : Exhausted r) :
    ∃ s, enc.decode? bs = some s ∧ (joinNewlines s).toList = out := by
  obtain ⟨front, xs, hbs, hdecode, hout, -⟩ := h.exists_parts
  rw [hr.rest, List.append_nil] at hbs
  rw [hr.carriage, hr.cut] at hdecode
  rw [hr.ready, List.append_nil] at hout
  refine ⟨String.ofList xs, ?_, ?_⟩
  · rw [Encoding.decode?_eq_some, hbs, hdecode]
    simp [pending]
  · rw [toList_joinNewlines, String.toList_ofList, hout]

theorem length_le (h : Reading enc bs out r) : out.length ≤ bs.length := by
  obtain ⟨front, xs, hbs, hdecode, hout, -⟩ := h.exists_parts
  have hlength := Encoding.length_decodePart? front hdecode
  have hfeeds := length_feeds_le false xs
  rw [hout, List.length_append] at hfeeds
  rw [List.length_append] at hlength
  rw [hbs, List.length_append]
  omega

/-- Bytes whose start cannot be decoded have no text. -/
theorem decode?_eq_none {front : List UInt8} (h : enc.decodePart? front = none) (rest : List UInt8) :
    enc.decode? (front ++ rest) = none := by
  by_contra hne
  obtain ⟨s, hs⟩ := Option.ne_none_iff_exists'.mp hne
  rw [Encoding.decode?_eq_some, Encoding.decodePart?_append, h] at hs
  cases hs

/-- What the next block gives, after the bytes that were decoded. -/
theorem decodePart?_block {front : List UInt8} (h : enc.decodePart? front = some (xs, r.cut)) (wanted : Nat) :
    enc.decodePart? (front ++ r.rest.take (r.block wanted)) =
      (enc.decodePart? (r.cut ++ r.rest.take (r.block wanted))).map fun p => (xs ++ p.1, p.2) := by
  rw [Encoding.decodePart?_append, h]
  rfl

/-- **A block that cannot be decoded** shows that the bytes have no text. -/
theorem decode?_of_refill (h : Reading enc bs out r) (hrefill : refill enc wanted r = none) :
    enc.decode? bs = none := by
  obtain ⟨front, xs, hbs, hdecode, -, -⟩ := h.exists_parts
  rcases refill_cases enc wanted r with ⟨-, hblock⟩ | ⟨cs, cut, width, -, -, hrefill'⟩
  · have hparts := decodePart?_block hdecode wanted
    rcases hblock with hblock | ⟨cs, cut, hblock, hrest, hcut⟩
    · have hsplit : bs = front ++ r.rest.take (r.block wanted) ++ r.rest.drop (r.block wanted) := by
        rw [List.append_assoc, List.take_append_drop, hbs]
      rw [hsplit]
      exact decode?_eq_none (by rw [hparts, hblock, Option.map_none]) _
    · -- the bytes end within a character
      have hall : front ++ r.rest.take (r.block wanted) = bs := by rw [hbs, hrest, List.take_nil]
      rw [hall, hblock, Option.map_some] at hparts
      by_contra hne
      obtain ⟨s, hs⟩ := Option.ne_none_iff_exists'.mp hne
      rw [Encoding.decode?_eq_some, hparts] at hs
      exact hcut (Prod.mk.inj (Option.some.inj hs)).2
  · exact absurd (hrefill.symm.trans hrefill') (by simp)

/-- At the end of the file a block brings no character. -/
theorem eq_nil_of_rest (h : Reading enc bs out r) (hrest : r.rest = [])
    {cut : List UInt8} (hblock : enc.decodePart? (r.cut ++ r.rest.take (r.block wanted)) = some (cs, cut)) : cs = [] := by
  obtain ⟨front, xs, -, hdecode, -, -⟩ := h.exists_parts
  rw [hrest, List.take_nil, List.append_nil, Encoding.decodePart?_cut hdecode] at hblock
  exact (Prod.mk.inj (Option.some.inj hblock)).1.symm

/-- **A block more** keeps what was given out a start of the text. -/
theorem refill (h : Reading enc bs out r) (hready : r.ready = []) {r' : Chunked} {more : Bool}
    (hrefill : Chunked.refill enc wanted r = some (r', more)) : Reading enc bs out r' := by
  obtain ⟨front, xs, hbs, hdecode, hout, hlast⟩ := h.exists_parts
  rcases refill_cases enc wanted r with ⟨hnone, -⟩ | ⟨cs, cut, width, hblock, hcut, hsome⟩
  · cases hnone.symm.trans hrefill
  obtain ⟨rfl, rfl⟩ := Prod.mk.inj (Option.some.inj (hsome.symm.trans hrefill))
  have hparts := decodePart?_block hdecode wanted
  obtain ⟨zs, hzs, hgiven, hhead, hend⟩ := exists_joinLineEnds r.carriage r.rest.isEmpty cs
  rw [hblock, Option.map_some, List.append_assoc, hzs] at hparts
  -- no line end is cut in two: a carriage return at the end of a block waits, except at the end of the file
  have hjoin : xs.getLast? ≠ some '\r' ∨ zs.head? ≠ some '\n' := by
    cases hcarriage : r.carriage with
    | true => exact .inr (hhead hcarriage)
    | false =>
      rcases hlast hcarriage with hrest | hlast
      · rw [hcarriage, h.eq_nil_of_rest hrest hblock] at hzs
        have hnil : zs = [] := (List.append_eq_nil_iff.mp hzs.symm).1
        exact .inr (by simp [hnil])
      · exact .inl hlast
  refine ⟨⟨front ++ r.rest.take (r.block wanted), xs ++ zs, ?_, ?_, ?_, fun hcarriage => ?_⟩⟩ <;> dsimp only at *
  · rw [List.append_assoc, List.take_append_drop, hbs]
  · rw [hparts, List.append_assoc]
  · rw [feeds_append hjoin, hout, hready, List.append_nil, hgiven]
  · rcases hend hcarriage with hrest | hzs'
    · exact .inl (by simp [List.isEmpty_iff.mp hrest])
    rcases List.eq_nil_or_concat zs with rfl | ⟨zs, z, rfl⟩
    · rw [hcarriage] at hzs
      have hnone : r.carriage = false := by
        cases hwait : r.carriage with
        | false => rfl
        | true => exact absurd hzs (by simp [hwait, pending])
      rw [List.append_nil]
      exact (hlast hnone).imp (fun hrest => by simp [hrest]) id
    · exact .inr (by simpa using hzs')

/-- Each block brings the reader nearer to the end, where nothing is left. -/
theorem left_refill (h : Reading enc bs out r) {r' : Chunked} {more : Bool}
    (hrefill : Chunked.refill enc wanted r = some (r', more)) :
    (more = true → r'.left < r.left) ∧ (more = false → r'.Exhausted) := by
  rcases refill_cases enc wanted r with ⟨hnone, -⟩ | ⟨cs, cut, width, hblock, hcut, hsome⟩
  · cases hnone.symm.trans hrefill
  obtain ⟨rfl, rfl⟩ := Prod.mk.inj (Option.some.inj (hsome.symm.trans hrefill))
  by_cases hrest : r.rest = []
  · -- at the end only the carriage return that waited is still given out
    obtain rfl := h.eq_nil_of_rest hrest hblock
    have hrun : joinLineEnds r.carriage true [] = (if r.carriage then ['\n'] else [], false) := by
      cases r.carriage <;> rfl
    have hfinal : r.rest.isEmpty = true := by simp [hrest]
    rw [hfinal, hrun, hcut hrest, hrest]
    unfold left
    cases hcarriage : r.carriage with
    | true => exact ⟨fun _ => by simp [hrest], fun hmore => absurd hmore (by simp)⟩
    | false => exact ⟨fun hmore => absurd hmore (by simp), fun _ => ⟨by simp, rfl, rfl, rfl⟩⟩
  · have hmore : (!r.rest.isEmpty || !(joinLineEnds r.carriage r.rest.isEmpty cs).1.isEmpty) = true := by simp [hrest]
    rw [hmore]
    refine ⟨fun _ => ?_, fun h => absurd h (by simp)⟩
    have hpos := block_pos wanted r
    have hlength : 0 < r.rest.length := List.length_pos_iff.mpr hrest
    have hdrop : (r.rest.drop (r.block wanted)).length < r.rest.length := by
      rw [List.length_drop]
      omega
    unfold left
    rw [if_neg hrest]
    dsimp only
    split_ifs <;> omega

/-! ### A piece more -/

/-- What a piece of up to `wanted` characters leaves. -/
structure Piece (enc : Encoding) (bs : List UInt8) (out : List Char) (wanted : Nat) (got : List Char) (r : Chunked) :
    Prop where
  reading : Reading enc bs (out ++ got) r
  length : got.length ≤ wanted
  exhausted : got.length < wanted → r.Exhausted

/-- What was given out first belongs to the piece. -/
theorem Piece.prepend {first got : List Char} (hle : first.length ≤ wanted)
    (h : Piece enc bs (out ++ first) (wanted - first.length) got r) : Piece enc bs out wanted (first ++ got) r where
  reading := by
    rw [← List.append_assoc]
    exact h.reading
  length := by
    have hgot := h.length
    rw [List.length_append]
    omega
  exhausted hlt := by
    rw [List.length_append] at hlt
    exact h.exhausted (by omega)

theorem give (h : Reading enc bs out r) (n : Nat) :
    Reading enc bs (out ++ r.ready.take n) { r with ready := r.ready.drop n } := by
  obtain ⟨front, xs, hbs, hdecode, hout, hlast⟩ := h.exists_parts
  exact ⟨front, xs, hbs, hdecode, by rw [List.append_assoc, List.take_append_drop, hout], hlast⟩

/-- **A piece** is read block by block. -/
theorem take : ∀ {fuel : Nat} (wanted : Nat) {out : List Char} {r : Chunked} (done : List Char), Reading enc bs out r →
    r.left ≤ fuel →
      (Chunked.take enc fuel wanted done r = none → enc.decode? bs = none) ∧
      ∀ cs r', Chunked.take enc fuel wanted done r = some (cs, r') →
        ∃ got, cs = done.reverse ++ got ∧ Piece enc bs out wanted got r'
  | 0, _, _, r, _, _, hfuel => by
    have hpos : 0 < r.left := by
      unfold left
      split_ifs <;> omega
    omega
  | fuel + 1, wanted, out, r, done, h, hfuel => by
    have hgiven := h.give wanted
    have hle : (r.ready.take wanted).length ≤ wanted := List.length_take_le _ _
    have hdone : ((r.ready.take wanted).reverse ++ done).reverse = done.reverse ++ r.ready.take wanted := by simp
    rw [Chunked.take]
    by_cases hfull : wanted - (r.ready.take wanted).length = 0
    · rw [if_pos hfull, hdone]
      refine ⟨by simp, fun cs r' hsome => ?_⟩
      obtain ⟨rfl, rfl⟩ := Prod.mk.inj (Option.some.inj hsome)
      exact ⟨_, rfl, hgiven, hle, by omega⟩
    rw [if_neg hfull]
    have hready : r.ready.drop wanted = [] := by
      rw [List.length_take] at hfull
      exact List.drop_eq_nil_of_le (by omega)
    cases hrefill : Chunked.refill enc (wanted - (r.ready.take wanted).length) { r with ready := r.ready.drop wanted } with
    | none => exact ⟨fun _ => hgiven.decode?_of_refill hrefill, by simp⟩
    | some p =>
      obtain ⟨r', more⟩ := p
      have hreading := hgiven.refill hready hrefill
      obtain ⟨hleft, hend⟩ := hgiven.left_refill hrefill
      dsimp only
      cases more with
      | true =>
        rw [if_pos rfl]
        obtain ⟨hnone, hsome⟩ := take (wanted - (r.ready.take wanted).length)
          ((r.ready.take wanted).reverse ++ done) hreading (Nat.le_of_lt_succ (Nat.lt_of_lt_of_le (hleft rfl) hfuel))
        refine ⟨hnone, fun cs r'' hrun => ?_⟩
        obtain ⟨got, rfl, hpiece⟩ := hsome cs r'' hrun
        exact ⟨_, by rw [hdone, List.append_assoc], hpiece.prepend hle⟩
      | false =>
        rw [if_neg Bool.false_ne_true, hdone]
        refine ⟨by simp, fun cs r'' hsome => ?_⟩
        obtain ⟨rfl, rfl⟩ := Prod.mk.inj (Option.some.inj hsome)
        exact ⟨_, rfl, hreading, hle, fun _ => hend rfl⟩

theorem left_le (h : Reading enc bs out r) : r.left ≤ bs.length + 2 := by
  obtain ⟨front, xs, hbs, -, -, -⟩ := h.exists_parts
  have hlength : r.rest.length ≤ bs.length := by
    rw [hbs, List.length_append]
    omega
  unfold left
  split_ifs <;> omega

end Reading

/-- What becomes of a file that is given out in pieces: the file is read to its end just if it has a
text, and the pieces are then this text; otherwise all pieces that were given out are full. -/
structure Given (enc : Encoding) (bs : List UInt8) (size : Nat) (given : List String × Bool) : Prop where
  ended : given.2 = (enc.decode? bs).isSome
  join : ∀ s, enc.decode? bs = some s → String.join given.1 = joinNewlines s
  full : enc.decode? bs = none → ∀ p ∈ given.1, p.length = size
  reading : ∃ r, Reading enc bs (String.join given.1).toList r

/-- **All pieces**, one after another. -/
theorem given_pieces {size : Nat} (hsize : 0 < size) : ∀ {fuel : Nat} {done : List String} {r : Chunked},
    Reading enc bs (String.join done.reverse).toList r →
    (enc.decode? bs = none → ∀ p ∈ done, p.length = size) →
    bs.length + 2 ≤ fuel + (String.join done.reverse).length →
      Given enc bs size (pieces enc size (bs.length + 2) fuel done r)
  | 0, _, _, h, _, hfuel => by
    have hlength := h.length_le
    rw [String.length_toList] at hlength
    omega
  | fuel + 1, done, r, h, hfull, hfuel => by
    obtain ⟨hnone, hsome⟩ := h.take size [] h.left_le
    rw [pieces]
    rcases htake : Chunked.take enc (bs.length + 2) size [] r with _ | ⟨cs, r'⟩
    · have hbad := hnone htake
      exact ⟨by rw [hbad]; rfl, by simp [hbad], fun hbad => by simpa using hfull hbad, r, h⟩
    obtain ⟨_, rfl, hpiece⟩ := hsome cs r' htake
    cases cs with
    | nil =>
      have hend := hpiece.reading.decode?_of_exhausted (hpiece.exhausted hsize)
      rw [List.append_nil] at hend
      obtain ⟨s, hs, hout⟩ := hend
      refine ⟨by rw [hs]; rfl, fun s' hs' => ?_, by simp [hs], r, h⟩
      rw [hs] at hs'
      exact String.toList_injective (by rw [← Option.some.inj hs', hout])
    | cons c cs =>
      have hjoin : String.join (String.ofList (c :: cs) :: done).reverse =
          String.join done.reverse ++ String.ofList (c :: cs) := by simp
      refine given_pieces hsize ?_ (fun hbad => List.forall_mem_cons.mpr ⟨?_, hfull hbad⟩) ?_
      · rw [hjoin, String.toList_append, String.toList_ofList]
        exact hpiece.reading
      · -- a piece that is not full ends the file, which then has a text
        by_contra hlength
        rw [String.length_ofList] at hlength
        obtain ⟨s, hs, -⟩ :=
          hpiece.reading.decode?_of_exhausted (hpiece.exhausted (Nat.lt_of_le_of_ne hpiece.length hlength))
        cases hbad.symm.trans hs
      · rw [hjoin, String.length_append, String.length_ofList, List.length_cons]
        omega

/-- **The pieces of a file.** -/
theorem given_ofBytes (enc : Encoding) {size : Int} (hsize : 1 ≤ size) (bs : List UInt8) :
    Given enc bs size.toNat (ofBytes enc size bs) := by
  unfold ofBytes
  rw [if_neg (by omega)]
  exact given_pieces (by omega) (Reading.start enc bs) (by simp) (by simp)

/-! ### Pieces before a fault -/

/-- A fault in the first block is seen before anything is given out. -/
theorem ofBytes_of_fault {size : Int} (hsize : 1 ≤ size) (h : enc.decodePart? (bs.take blockSize) = none) :
    (ofBytes enc size bs).1 = [] := by
  have hrefill (wanted : Nat) : refill enc wanted { rest := bs } = none := by
    have hle : blockSize ≤ block wanted { rest := bs } := Nat.le_max_left _ _
    rcases refill_cases enc wanted { rest := bs } with ⟨hnone, -⟩ | ⟨cs, cut, width, hblock, -⟩
    · exact hnone
    · rw [List.nil_append, ← List.take_append_drop blockSize (bs.take _), List.take_take, Nat.min_eq_left hle,
        Encoding.decodePart?_append, h] at hblock
      cases hblock
  rw [ofBytes, if_neg (by omega), pieces, take]
  dsimp only
  rw [List.take_nil, List.length_nil, if_neg (by omega), List.drop_nil, hrefill]
  rfl

/-- The pieces that are given out as UTF-8 of a file that is none: they are full, and a start of the
text of some first bytes of the file that are UTF-8. -/
structure Early (bs : List UInt8) (size : Nat) (early : List String) : Prop where
  full : ∀ p ∈ early, p.length = size
  start : ∃ front rest xs cut, bs = front ++ rest ∧ Encoding.utf8.decodePart? front = some (xs, cut) ∧
    (String.join early).toList <+: feeds false xs

theorem early_ofBytes {size : Int} (hsize : 1 ≤ size) (h : Encoding.utf8.decode? bs = none) :
    Early bs size.toNat (ofBytes .utf8 size bs).1 where
  full := (given_ofBytes .utf8 hsize bs).full h
  start := by
    obtain ⟨r, hreading⟩ := (given_ofBytes .utf8 hsize bs).reading
    obtain ⟨front, xs, hbs, hdecode, hout, -⟩ := hreading.exists_parts
    refine ⟨front, r.rest, _, r.cut, hbs, hdecode, ?_⟩
    rw [feeds_append_eq, hout, List.append_assoc]
    exact List.prefix_append _ _

theorem Early.join_eq_empty_iff {size : Nat} {early : List String} (h : Early bs size early) (hsize : 0 < size) :
    String.join early = "" ↔ early = [] := by
  cases early with
  | nil => simp
  | cons piece early =>
    have hlength := h.full piece List.mem_cons_self
    refine ⟨fun hjoin => ?_, by simp⟩
    have hnone := congrArg String.length hjoin
    rw [String.join_cons, String.length_append, String.length_empty] at hnone
    omega

end Chunked

/-! ### Both ways of reading -/

section

variable {d : Disk} {p : Path} {bs : List UInt8} (hbytes : d.bytes p = .ok bs)

include hbytes

theorem readText_eq (h : decodeFirst? sourceEncodings bs = some s) :
    d.readText sourceEncodings p = .ok (Text.joinNewlines s) := by
  unfold Disk.readText
  rw [hbytes]
  dsimp only
  rw [h]

variable {size : Int} (hsize : 1 ≤ size)

include hsize

/-- The pieces of a file that is no UTF-8 are those as GBK, after what was given out already. -/
theorem readChunks_eq_ite : d.readChunks p size =
    if (Encoding.utf8.decode? bs).isSome then .ok (Chunked.ofBytes .utf8 size bs).1
    else if (Encoding.gbk.decode? bs).isSome then
      .ok ((Chunked.ofBytes .utf8 size bs).1 ++ (Chunked.ofBytes .gbk size bs).1)
    else .error .undecodable := by
  have hparts (enc : Encoding) : Chunked.ofBytes enc size bs =
      ((Chunked.ofBytes enc size bs).1, (enc.decode? bs).isSome) :=
    Prod.ext rfl (Chunked.given_ofBytes enc hsize bs).ended
  unfold Disk.readChunks
  rw [hbytes]
  dsimp only
  rw [hparts .utf8, hparts .gbk]
  cases (Encoding.utf8.decode? bs).isSome <;> cases (Encoding.gbk.decode? bs).isSome <;> rfl

theorem readChunks_of_utf8 (h : (Encoding.utf8.decode? bs).isSome) : ∃ chunks text,
    d.readChunks p size = .ok chunks ∧ d.readText sourceEncodings p = .ok text ∧ String.join chunks = text := by
  obtain ⟨s, hs⟩ := Option.isSome_iff_exists.mp h
  have hfirst : decodeFirst? sourceEncodings bs = some s := by simp [decodeFirst?, sourceEncodings, hs]
  have hchunks := readChunks_eq_ite hbytes hsize
  rw [if_pos h] at hchunks
  exact ⟨_, _, hchunks, readText_eq hbytes hfirst, (Chunked.given_ofBytes .utf8 hsize bs).join s hs⟩

theorem readChunks_of_gbk (hutf8 : Encoding.utf8.decode? bs = none) (h : (Encoding.gbk.decode? bs).isSome) :
    ∃ chunks text, d.readChunks p size = .ok chunks ∧ d.readText sourceEncodings p = .ok text ∧
      String.join chunks = String.join (Chunked.ofBytes .utf8 size bs).1 ++ text ∧
      (String.join chunks = text ↔ (Chunked.ofBytes .utf8 size bs).1 = []) := by
  obtain ⟨s, hs⟩ := Option.isSome_iff_exists.mp h
  have hfirst : decodeFirst? sourceEncodings bs = some s := by simp [decodeFirst?, sourceEncodings, hutf8, hs]
  have hchunks := readChunks_eq_ite hbytes hsize
  rw [hutf8, if_neg (by simp), if_pos h] at hchunks
  have hjoin := (Chunked.given_ofBytes .gbk hsize bs).join s hs
  have hcancel (early text : String) : early ++ text = text ↔ early = "" := by
    rw [← String.toList_inj, String.toList_append]
    simp
  refine ⟨_, _, hchunks, readText_eq hbytes hfirst, by rw [String.join_append, hjoin], ?_⟩
  rw [String.join_append, hjoin, hcancel, (Chunked.early_ofBytes hsize hutf8).join_eq_empty_iff (by omega)]

end

/-- **Reading in chunks against reading at once.** A file that is UTF-8 is given out piece by piece. One
that is GBK is given out so after the pieces of its start as UTF-8, so that the pieces make up its text
just if there are none; a fault in the first block allows none. Any other file cannot be given out. -/
theorem readChunks_against_readText {d : Disk} {p : Path} {bs : List UInt8} (hbytes : d.bytes p = .ok bs)
    {size : Int} (hsize : 1 ≤ size) :
    let early := (Chunked.ofBytes .utf8 size bs).1
    ((Encoding.utf8.decode? bs).isSome → ∃ chunks text, d.readChunks p size = .ok chunks ∧
      d.readText sourceEncodings p = .ok text ∧ String.join chunks = text) ∧
    (Encoding.utf8.decode? bs = none → Chunked.Early bs size.toNat early ∧
      (Encoding.utf8.decodePart? (bs.take Chunked.blockSize) = none → early = []) ∧
      ((Encoding.gbk.decode? bs).isSome → ∃ chunks text, d.readChunks p size = .ok chunks ∧
        d.readText sourceEncodings p = .ok text ∧ String.join chunks = String.join early ++ text ∧
        (String.join chunks = text ↔ early = [])) ∧
      (Encoding.gbk.decode? bs = none → d.readChunks p size = .error .undecodable)) := by
  intro early
  refine ⟨readChunks_of_utf8 hbytes hsize, fun hutf8 => ?_⟩
  refine ⟨Chunked.early_ofBytes hsize hutf8, Chunked.ofBytes_of_fault hsize, readChunks_of_gbk hbytes hsize hutf8,
    fun hgbk => ?_⟩
  rw [readChunks_eq_ite hbytes hsize, hutf8, hgbk, if_neg (by simp), if_neg (by simp)]

/-- Two lines on a disk, with a line end of two characters. -/
def twoLines : Disk := ⟨.dir [("a.txt", .file [0x61, 0x0d, 0x0a, 0x62])], []⟩

theorem readChunks_twoLines : ∃ chunks, twoLines.readChunks ⟨"/", ["a.txt"]⟩ 1 = .ok chunks ∧
    String.join chunks = "a\nb" := by
  have hbytes : twoLines.bytes ⟨"/", ["a.txt"]⟩ = .ok [0x61, 0x0d, 0x0a, 0x62] := ok_of_orNothing (by decide +kernel)
  have htext : twoLines.readText sourceEncodings ⟨"/", ["a.txt"]⟩ = .ok "a\nb" := ok_of_orNothing (by decide +kernel)
  obtain ⟨hutf8, -⟩ := readChunks_against_readText hbytes (by decide : (1 : Int) ≤ 1)
  obtain ⟨chunks, text, hchunks, htext', hjoin⟩ := hutf8 (by decide +kernel)
  exact ⟨chunks, hchunks, hjoin.trans (Except.ok.inj (htext'.symm.trans htext))⟩

/-- A letter, and a character that as UTF-8 lacks a byte. -/
def letterAndPart : Disk := ⟨.dir [("a.txt", .file [0x61, 0xef, 0xa1])], []⟩

/-- The letter is given out as UTF-8, and then again as GBK. -/
theorem readChunks_twice : letterAndPart.readChunks ⟨"/", ["a.txt"]⟩ 1 = .ok ["a", "a", "铩"] ∧
    letterAndPart.readText sourceEncodings ⟨"/", ["a.txt"]⟩ = .ok "a铩" :=
  ⟨ok_of_orNothing (by decide +kernel), ok_of_orNothing (by decide +kernel)⟩

end SourceAudit
