/-
# Which texts are kept of a text in pieces

When a piece is put behind a text, the analysis keeps the texts known before, the piece,
and each text known before with the piece behind it. Without a limit these are all
selections of the pieces, each once, and the text of all pieces is the last of them
(`textsOf_eq_append`). The analysis keeps no more than about `maxLiterals` of them.

The text of all pieces is kept if and only if it `Fits`: there are at most `maxLiterals`
selections, or one more and the last piece has filled the list before anything is put
together with it. A text that is lost is never found again: the selections of the pieces
so far already give another new text, which takes the place (`exists_new_selection`).
-/
import Mathlib.Data.List.Induction
import SourceAudit.Proofs.Taint.Limits
import SourceAudit.Proofs.Text.Selections

namespace SourceAudit.Taint

open Text

/-! ### Without a limit -/

def addPiece (known : List String) (s : String) : List String :=
  unite (unite known [s]) (known.map (· ++ s))

/-- All selections of the pieces, in the order in which they arise. -/
def textsOf (pieces : List String) : List String :=
  pieces.foldl addPiece []

def Solid (pieces : List String) : Prop := ∀ p ∈ pieces, p ≠ ""

variable {ps : List String} {s x : String}

theorem solid_concat : Solid (ps ++ [s]) ↔ Solid ps ∧ s ≠ "" := by
  simp [Solid, or_imp, forall_and]

theorem textsOf_concat (ps : List String) (s : String) : textsOf (ps ++ [s]) = addPiece (textsOf ps) s := by
  simp [textsOf]

theorem join_concat (ps : List String) (s : String) : String.join (ps ++ [s]) = String.join ps ++ s := by
  simp [String.join_cons]

theorem append_mem_map {ls : List String} : x ++ s ∈ ls.map (· ++ s) ↔ x ∈ ls := by
  simp [String.append_left_inj]

theorem mem_textsOf (h : Solid ps) : x ∈ textsOf ps ↔ x ∈ selections ps := by
  induction ps using List.reverseRecOn generalizing x with
  | nil => simp [textsOf]
  | append_singleton ps s ih =>
    obtain ⟨hps, hs⟩ := solid_concat.mp h
    simp only [textsOf_concat, addPiece, mem_unite, List.mem_singleton, List.mem_map, ih hps,
      mem_selections_concat hs, or_assoc, eq_comm]

theorem nodup_textsOf (ps : List String) : (textsOf ps).Nodup := by
  induction ps using List.reverseRecOn with
  | nil => exact List.nodup_nil
  | append_singleton ps s ih =>
    rw [textsOf_concat]
    exact nodup_unite (nodup_unite ih [s]) _

theorem length_textsOf (h : Solid ps) : (textsOf ps).length = (selections ps).card := by
  rw [← List.toFinset_card_of_nodup (nodup_textsOf ps)]
  congr 1
  ext x
  rw [List.mem_toFinset, mem_textsOf h]

/-- The texts with the further piece, before anything is put together with it. -/
theorem length_unite_singleton (h : Solid ps) (s : String) :
    (unite (textsOf ps) [s]).length = (insert s (selections ps)).card := by
  rw [← List.toFinset_card_of_nodup (nodup_unite (nodup_textsOf ps) [s])]
  congr 1
  ext x
  rw [List.mem_toFinset, mem_unite, mem_textsOf h, List.mem_singleton, Finset.mem_insert, or_comm]

theorem join_append_not_mem (h : Solid ps) (hs : s ≠ "") : String.join ps ++ s ∉ selections ps := by
  intro hmem
  have hpos := length_pos_of_ne_empty hs
  have hlt := length_lt_of_mem_selections h hmem fun heq => by
    have := congrArg String.length heq
    rw [String.length_append] at this
    omega
  rw [String.length_append] at hlt
  omega

theorem join_append_ne (h : Solid ps) (hne : ps ≠ []) (s : String) : String.join ps ++ s ≠ s := by
  intro heq
  have hpos := length_pos_of_ne_empty (join_ne_empty h hne)
  have := congrArg String.length heq
  rw [String.length_append] at this
  omega

theorem not_mem_front {front : List String} (h : textsOf ps = front ++ [x]) : x ∉ front := by
  intro hmem
  have hnodup := nodup_textsOf ps
  rw [h, List.nodup_append] at hnodup
  exact hnodup.2.2 x hmem x (List.mem_singleton.mpr rfl) rfl

theorem map_of_eq_append {ls front : List String} (h : ls = front ++ [x]) (s : String) :
    ls.map (· ++ s) = front.map (· ++ s) ++ [x ++ s] := by
  rw [h, List.map_append, List.map_singleton]

theorem textsOf_eq_append (h : Solid ps) (hne : ps ≠ []) : ∃ front, textsOf ps = front ++ [String.join ps] := by
  induction ps using List.reverseRecOn with
  | nil => exact absurd rfl hne
  | append_singleton ps s ih =>
    obtain ⟨hps, hs⟩ := solid_concat.mp h
    by_cases hnil : ps = []
    · subst hnil
      exact ⟨[], by simp [textsOf, addPiece, unite, String.join_cons]⟩
    · obtain ⟨front, hfront⟩ := ih hps hnil
      have hnew : String.join ps ++ s ∉ unite (unite (textsOf ps) [s]) (front.map (· ++ s)) := by
        rw [mem_unite, mem_unite, mem_textsOf hps, List.mem_singleton, not_or, not_or]
        refine ⟨⟨join_append_not_mem hps hs, join_append_ne hps hnil s⟩, fun hmem => ?_⟩
        exact not_mem_front hfront (append_mem_map.mp hmem)
      refine ⟨unite (unite (textsOf ps) [s]) (front.map (· ++ s)), ?_⟩
      rw [textsOf_concat, addPiece, join_concat, map_of_eq_append hfront, unite_concat_of_not_mem hnew]

/-- A front of the texts has the text of all pieces only if it has all of them. -/
theorem join_mem_take_textsOf (h : Solid ps) (hne : ps ≠ []) (n : Nat) :
    String.join ps ∈ (textsOf ps).take n ↔ (selections ps).card ≤ n := by
  obtain ⟨front, hfront⟩ := textsOf_eq_append h hne
  have hfresh := not_mem_front hfront
  rw [← length_textsOf h, hfront, List.length_append, List.length_singleton]
  constructor
  · intro hmem
    by_contra hlt
    rw [List.take_append_of_le_length (by omega)] at hmem
    exact hfresh (List.mem_of_mem_take hmem)
  · intro hle
    rw [List.take_of_length_le (by simpa using hle)]
    simp

/-! ### Within the limit -/

def keepPiece (known : List String) (s : String) : List String :=
  mergeLimited (mergeLimited known [s] maxLiterals) (concatenations known [s]) maxLiterals

def keptOf (pieces : List String) : List String :=
  pieces.foldl keepPiece []

/-- The text of all pieces finds a place among the texts that are kept. -/
def Fits (pieces : List String) : Prop :=
  (selections pieces).card ≤ maxLiterals ∨
    (selections pieces).card = maxLiterals + 1 ∧
      (insert (pieces.getLastD "") (selections pieces.dropLast)).card = maxLiterals

instance (pieces : List String) : Decidable (Fits pieces) :=
  inferInstanceAs (Decidable (_ ∨ _ ∧ _))

theorem keptOf_concat (ps : List String) (s : String) : keptOf (ps ++ [s]) = keepPiece (keptOf ps) s := by
  simp [keptOf]

theorem fits_concat (ps : List String) (s : String) :
    Fits (ps ++ [s]) ↔ (selections (ps ++ [s])).card ≤ maxLiterals ∨
      (selections (ps ++ [s])).card = maxLiterals + 1 ∧ (insert s (selections ps)).card = maxLiterals := by
  simp [Fits]

theorem concatenations_singleton (ls : List String) (s : String) :
    concatenations ls [s] = (ls.take maxLiterals).map (· ++ s) := by
  have hone : [s].take maxLiterals = [s] := rfl
  rw [concatenations, hone, ← List.flatMap_singleton' (List.map _ _), List.flatMap_map]
  rfl

theorem mem_of_mem_keepPiece {ls : List String} (h : x ∈ keepPiece ls s) :
    x ∈ ls ∨ x = s ∨ ∃ l ∈ ls.take maxLiterals, x = l ++ s := by
  rcases mem_of_mem_mergeLimited (by omega) h with h | h
  · rcases mem_of_mem_mergeLimited (by omega) h with h | h
    · exact Or.inl h
    · exact Or.inr (Or.inl (List.mem_singleton.mp h))
  · rw [concatenations_singleton] at h
    obtain ⟨l, hl, rfl⟩ := List.mem_map.mp h
    exact Or.inr (Or.inr ⟨l, hl, rfl⟩)

/-! The selections become more with a further piece. -/

theorem insert_subset_selections (ps : List String) (hs : s ≠ "") :
    insert s (selections ps) ⊆ selections (ps ++ [s]) := by
  intro x hx
  rw [mem_selections_concat hs]
  rcases Finset.mem_insert.mp hx with rfl | hx
  · exact Or.inr (Or.inl rfl)
  · exact Or.inl hx

theorem card_insert_lt (h : Solid ps) (hne : ps ≠ []) (hs : s ≠ "") :
    (insert s (selections ps)).card < (selections (ps ++ [s])).card := by
  refine Finset.card_lt_card ⟨insert_subset_selections ps hs, fun hsub => ?_⟩
  have hwhole : String.join ps ++ s ∈ selections (ps ++ [s]) := by
    rw [mem_selections_concat hs]
    exact Or.inr (Or.inr ⟨_, join_mem_selections h (List.Sublist.refl ps) hne, rfl⟩)
  rcases Finset.mem_insert.mp (hsub hwhole) with heq | hmem
  · exact join_append_ne h hne s heq
  · exact join_append_not_mem h hs hmem

/-- As long as the piece finds a place, nothing but the end of all texts is cut off. -/
theorem keepPiece_textsOf (h : Solid ps) (hroom : (insert s (selections ps)).card ≤ maxLiterals) :
    keepPiece (textsOf ps) s =
      (textsOf (ps ++ [s])).take (max maxLiterals ((insert s (selections ps)).card + 1)) := by
  have hunited := length_unite_singleton h s
  have hle : (textsOf ps).length ≤ (unite (textsOf ps) [s]).length := (prefix_unite _ _).length_le
  have hfirst : mergeLimited (textsOf ps) [s] maxLiterals = unite (textsOf ps) [s] :=
    mergeLimited_of_length_le (by omega)
  have hall : (textsOf ps).take maxLiterals = textsOf ps := List.take_of_length_le (by omega)
  have hfront : (unite (textsOf ps) [s]).take (maxLiterals : Int).toNat = unite (textsOf ps) [s] :=
    List.take_of_length_le (by omega)
  rw [keepPiece, hfirst, concatenations_singleton, hall, mergeLimited_eq_take (by omega), hfront, hunited,
    textsOf_concat, addPiece]
  rfl

/-- A full list of texts takes over the piece, which is cut off again, and then one further text. -/
theorem keepPiece_of_full {ls : List String} (h : ls.length = maxLiterals) (s : String) :
    keepPiece ls s = (unite ls (ls.map (· ++ s))).take (ls.length + 1) := by
  have hall : ls.take maxLiterals = ls := List.take_of_length_le (by omega)
  have hfirst : (mergeLimited ls [s] maxLiterals).take maxLiterals = ls := by
    rw [take_mergeLimited, take_unite_of_le (by omega), hall]
  rw [keepPiece, concatenations_singleton, hall, mergeLimited_eq_take (by omega), Int.toNat_natCast, hfirst, h,
    Nat.max_eq_right (by omega)]

theorem two_le_length_of_full (h : (selections ps).card = maxLiterals) : 2 ≤ ps.length := by
  by_contra hfew
  have hcard := card_selections_le ps
  have hpow : 2 ^ ps.length ≤ 2 ^ 1 := Nat.pow_le_pow_right (by decide) (by omega)
  rw [h, maxLiterals] at hcard
  omega

/-- The further text that a full list takes over is not the text of all pieces. -/
theorem join_not_mem_of_full (h : Solid ps) (hs : s ≠ "") (hfull : (selections ps).card = maxLiterals)
    (hnew : s ∉ selections ps) : String.join ps ++ s ∉ keepPiece (textsOf ps) s := by
  have htwo := two_le_length_of_full hfull
  have hne : ps ≠ [] := by
    rintro rfl
    simp at htwo
  obtain ⟨front, hfront⟩ := textsOf_eq_append h hne
  obtain ⟨l, hl, hproper, hlost⟩ := exists_new_selection h hs htwo hnew
  -- the texts with the piece behind them, apart from the text of all pieces
  have hwhole : String.join ps ++ s ∉ unite (textsOf ps) (front.map (· ++ s)) := by
    rw [mem_unite, mem_textsOf h, append_mem_map, not_or]
    exact ⟨join_append_not_mem h hs, not_mem_front hfront⟩
  have hmore : (textsOf ps).length < (unite (textsOf ps) (front.map (· ++ s))).length := by
    have hlfront : l ∈ front := by
      have hmem := (mem_textsOf h).mpr hl
      rw [hfront, List.mem_append, List.mem_singleton] at hmem
      exact hmem.resolve_right hproper
    exact length_lt_unite (append_mem_map.mpr hlfront) fun hmem => hlost ((mem_textsOf h).mp hmem)
  rw [keepPiece_of_full (by rw [length_textsOf h, hfull]), map_of_eq_append hfront,
    unite_concat_of_not_mem hwhole, List.take_append_of_le_length hmore]
  exact fun hmem => hwhole (List.mem_of_mem_take hmem)

/-- What is known of the texts that are kept. -/
structure KeptTexts (ps : List String) : Prop where
  possible : ∀ x ∈ keptOf ps, x ∈ selections ps
  all : (selections ps).card ≤ maxLiterals → keptOf ps = textsOf ps
  whole : String.join ps ∈ (keptOf ps).take maxLiterals → (selections ps).card ≤ maxLiterals

/-- The text of all pieces is not found where a shorter one has been lost. -/
theorem join_not_mem_keepPiece (h : Solid ps) (hne : ps ≠ []) (hs : s ≠ "") (hk : KeptTexts ps)
    (hlost : String.join ps ∉ (keptOf ps).take maxLiterals) : String.join ps ++ s ∉ keepPiece (keptOf ps) s := by
  intro hmem
  rcases mem_of_mem_keepPiece hmem with hmem | heq | ⟨l, hl, heq⟩
  · exact join_append_not_mem h hs (hk.possible _ hmem)
  · exact join_append_ne h hne s heq
  · exact hlost ((String.append_left_inj s).mp heq ▸ hl)

/-- Where the piece finds no place, the text of all pieces finds none. -/
theorem join_not_mem_of_lt (h : Solid ps) (hs : s ≠ "") (hk : KeptTexts ps)
    (hlt : maxLiterals < (insert s (selections ps)).card) : String.join ps ++ s ∉ keepPiece (keptOf ps) s := by
  have hne : ps ≠ [] := by
    rintro rfl
    simp [maxLiterals] at hlt
  by_cases hcard : (selections ps).card ≤ maxLiterals
  · have hnew : s ∉ selections ps := by
      intro hmem
      rw [Finset.insert_eq_of_mem hmem] at hlt
      omega
    rw [Finset.card_insert_of_notMem hnew] at hlt
    rw [hk.all hcard]
    exact join_not_mem_of_full h hs (by omega) hnew
  · exact join_not_mem_keepPiece h hne hs hk fun hmem => hcard (hk.whole hmem)

theorem KeptTexts.concat (hk : KeptTexts ps) (h : Solid ps) (hs : s ≠ "") : KeptTexts (ps ++ [s]) := by
  have hsub := Finset.card_le_card (insert_subset_selections ps hs)
  have hgrow := Finset.card_le_card (Finset.subset_insert s (selections ps))
  have hroom (hle : (insert s (selections ps)).card ≤ maxLiterals) := by
    have hkept := keepPiece_textsOf h hle
    rwa [← hk.all (by omega), ← keptOf_concat] at hkept
  have hsolid : Solid (ps ++ [s]) := solid_concat.mpr ⟨h, hs⟩
  have hlength := length_textsOf hsolid
  refine ⟨fun x hx => ?_, fun hle => ?_, fun hmem => ?_⟩
  · rw [keptOf_concat] at hx
    rw [mem_selections_concat hs]
    rcases mem_of_mem_keepPiece hx with hx | hx | ⟨l, hl, hx⟩
    · exact Or.inl (hk.possible x hx)
    · exact Or.inr (Or.inl hx)
    · exact Or.inr (Or.inr ⟨l, hk.possible l (List.mem_of_mem_take hl), hx⟩)
  · rw [hroom (by omega), List.take_of_length_le (by omega)]
  · by_cases hle : (insert s (selections ps)).card ≤ maxLiterals
    · rw [hroom hle, List.take_take, Nat.min_eq_left (by omega)] at hmem
      exact (join_mem_take_textsOf hsolid (by simp) maxLiterals).mp hmem
    · rw [keptOf_concat, join_concat] at hmem
      exact absurd (List.mem_of_mem_take hmem) (join_not_mem_of_lt h hs hk (by omega))

theorem keptTexts (h : Solid ps) : KeptTexts ps := by
  induction ps using List.reverseRecOn with
  | nil => exact ⟨fun _ hx => absurd hx (by simp [keptOf]), fun _ => rfl, fun hmem => absurd hmem (by simp [keptOf])⟩
  | append_singleton ps s ih =>
    obtain ⟨hps, hs⟩ := solid_concat.mp h
    exact (ih hps).concat hps hs

/-- **The text of all pieces is kept where it fits, and nowhere else.** -/
theorem join_mem_keptOf_iff (h : Solid ps) (hne : ps ≠ []) : String.join ps ∈ keptOf ps ↔ Fits ps := by
  obtain ⟨ps, s, rfl⟩ := (List.eq_nil_or_concat ps).resolve_left hne
  rw [List.concat_eq_append] at h hne ⊢
  obtain ⟨hps, hs⟩ := solid_concat.mp h
  have hk := keptTexts hps
  have hsub := Finset.card_le_card (insert_subset_selections ps hs)
  have hgrow := Finset.card_le_card (Finset.subset_insert s (selections ps))
  rw [fits_concat]
  by_cases hle : (insert s (selections ps)).card ≤ maxLiterals
  · rw [keptOf_concat, hk.all (by omega), keepPiece_textsOf hps hle, join_mem_take_textsOf h hne]
    by_cases hnil : ps = []
    · subst hnil
      have hone := card_selections_le ([] ++ [s])
      simp only [List.nil_append, List.length_singleton] at hone
      simp only [maxLiterals, List.nil_append]
      omega
    · have hlt := card_insert_lt hps hnil hs
      omega
  · rw [keptOf_concat, join_concat]
    refine iff_of_false (join_not_mem_of_lt hps hs hk (by omega)) ?_
    omega

theorem fits_of_length_le (h : ps.length ≤ 3) : Fits ps := by
  have hcard := card_selections_le ps
  have hpow : 2 ^ ps.length ≤ 2 ^ 3 := Nat.pow_le_pow_right (by decide) h
  refine Or.inl ?_
  rw [maxLiterals]
  omega

theorem length_le_card_selections (h : Solid ps) : ps.length ≤ (selections ps).card := by
  induction ps using List.reverseRecOn with
  | nil => exact Nat.zero_le _
  | append_singleton ps s ih =>
    obtain ⟨hps, hs⟩ := solid_concat.mp h
    have hlength := ih hps
    rw [List.length_append, List.length_singleton]
    by_cases hnil : ps = []
    · subst hnil
      exact Finset.card_pos.mpr ⟨s, mem_selections_of_mem h (by simp)⟩
    · have hlt := card_insert_lt hps hnil hs
      have hgrow := Finset.card_le_card (Finset.subset_insert s (selections ps))
      omega

/-- More than `maxLiterals + 1` pieces never fit. -/
theorem length_le_of_fits (h : Solid ps) (hf : Fits ps) : ps.length ≤ maxLiterals + 1 := by
  have hlength := length_le_card_selections h
  rcases hf with hle | ⟨heq, -⟩ <;> omega

end SourceAudit.Taint
