/-
# Texts in pieces

A text that is joined from several is its first piece and the rest
(`join_cons_cons`). A replacement goes through a text once, from left to right. It
leaves a piece at the start of a text alone if no occurrence can begin in it: it has
none inside, and it does not end in the beginning of one (`Clear`). A text that is put
together from clear pieces and from occurrences is therefore replaced piece by piece
(`replaced_flatten`).
-/
import Mathlib.Data.List.Infix
import SourceAudit.Text.Basic

namespace SourceAudit.Text

variable {s cs : List Char} {c : Char}

theorem join_nil (sep : String) : join sep [] = "" := rfl

theorem join_singleton (sep s : String) : join sep [s] = s := by
  rw [← String.toList_inj, join, String.toList_intercalate]
  simp [List.intercalate]

theorem join_cons_cons (sep s t : String) (rest : List String) :
    join sep (s :: t :: rest) = s ++ (sep ++ join sep (t :: rest)) := by
  rw [← String.toList_inj, join, join, String.toList_intercalate, String.toList_append, String.toList_append,
    String.toList_intercalate]
  simp [List.intercalate]

theorem notMem_ofList (h : c ∉ cs) : c ∉ (String.ofList cs).toList := by
  rwa [String.toList_ofList]

/-! ### Replacing -/

variable {old new : List Char}

/-- The text with every occurrence of `old` replaced by `new`. -/
def replaced (old new cs : List Char) : List Char :=
  replaceFrom old new [] 0 cs

theorem toList_replaceAll (s old new : String) :
    (replaceAll s old new).toList = replaced old.toList new.toList s.toList := by
  rw [replaceAll, String.toList_ofList, replaced]

theorem replaceFrom_eq : ∀ (cs done : List Char) (skip : Nat),
    replaceFrom old new done skip cs = done.reverse ++ replaced old new (cs.drop skip)
  | [], done, skip => by simp [replaceFrom, replaced]
  | c :: cs, done, skip + 1 => by
    rw [replaceFrom, List.drop_succ_cons]
    exact replaceFrom_eq cs done skip
  | c :: cs, done, 0 => by
    rw [List.drop_zero, replaced, replaceFrom, replaceFrom]
    split_ifs
    · rw [replaceFrom_eq cs, replaceFrom_eq cs (new.reverse ++ [])]
      simp
    · rw [replaceFrom_eq cs, replaceFrom_eq cs [c]]
      simp

theorem replaced_cons (c : Char) (cs : List Char) :
    replaced old new (c :: cs) =
      if old <+: c :: cs then new ++ replaced old new (cs.drop (old.length - 1)) else c :: replaced old new cs := by
  rw [replaced, replaceFrom]
  simp only [List.isPrefixOf_iff_prefix]
  split_ifs
  · rw [replaceFrom_eq]
    simp
  · rw [replaceFrom_eq]
    simp

theorem replaced_self_append (hold : old ≠ []) (rest : List Char) :
    replaced old new (old ++ rest) = new ++ replaced old new rest := by
  obtain ⟨c, cs, rfl⟩ := List.exists_cons_of_ne_nil hold
  rw [List.cons_append, replaced_cons, if_pos ⟨rest, rfl⟩, List.length_cons, Nat.add_sub_cancel, List.drop_left]

/-! ### Pieces in which nothing begins -/

/-- No occurrence of `s` begins in the text, whatever follows it: none stands in it, and it does not
end in the beginning of one. -/
def Clear (s : List Char) : List Char → Prop
  | [] => True
  | c :: cs => (¬s <+: c :: cs ∧ ¬c :: cs <+: s) ∧ Clear s cs

instance decidableClear (s : List Char) : ∀ cs : List Char, Decidable (Clear s cs)
  | [] => inferInstanceAs (Decidable True)
  | c :: cs =>
    have := decidableClear s cs
    inferInstanceAs (Decidable ((¬s <+: c :: cs ∧ ¬c :: cs <+: s) ∧ Clear s cs))

/-- Where a text stands, no other one stands that is clear of it. -/
theorem not_prefix_of_clear {t : List Char} (hs : s ≠ []) (h : Clear t s) (hcs : s <+: cs) : ¬t <+: cs := by
  obtain ⟨c, s, rfl⟩ := List.exists_cons_of_ne_nil hs
  intro ht
  rcases List.prefix_or_prefix_of_prefix ht hcs with hin | hout
  · exact h.1.1 hin
  · exact h.1.2 hout

theorem replaced_append_of_clear : ∀ {cs : List Char}, Clear old cs → ∀ rest : List Char,
    replaced old new (cs ++ rest) = cs ++ replaced old new rest
  | [], _, _ => rfl
  | c :: cs, h, rest => by
    have hfront : ¬old <+: (c :: cs) ++ rest :=
      not_prefix_of_clear (List.cons_ne_nil c cs) h (List.prefix_append (c :: cs) rest)
    rw [List.cons_append] at hfront ⊢
    rw [replaced_cons, if_neg hfront, replaced_append_of_clear h.2, List.cons_append]

theorem clear_append_of_notMem (h : Clear (c :: s) cs) : ∀ {t : List Char}, c ∉ t → Clear (c :: s) (t ++ cs)
  | [], _ => h
  | d :: t, ht => by
    rw [List.mem_cons, not_or] at ht
    refine ⟨⟨fun hfront => ?_, fun hfront => ?_⟩, clear_append_of_notMem h ht.2⟩
    · exact ht.1 (List.cons_prefix_cons.mp hfront).1
    · exact ht.1 (List.cons_prefix_cons.mp hfront).1.symm

theorem clear_of_notMem {t : List Char} (ht : c ∉ t) : Clear (c :: s) t := by
  have hnil : Clear (c :: s) [] := trivial
  have h := clear_append_of_notMem hnil ht
  rwa [List.append_nil] at h

theorem not_clear_self (hs : s ≠ []) : ¬Clear s s := by
  obtain ⟨c, cs, rfl⟩ := List.exists_cons_of_ne_nil hs
  exact fun h => h.1.1 (List.prefix_refl _)

/-- **A text is replaced piece by piece**, if each piece is what is replaced or is clear of it. -/
theorem replaced_flatten (hold : old ≠ []) : ∀ {pieces : List (List Char)},
    (∀ p ∈ pieces, p = old ∨ Clear old p) →
    replaced old new pieces.flatten = (pieces.map fun p => if p = old then new else p).flatten
  | [], _ => rfl
  | p :: pieces, h => by
    rw [List.forall_mem_cons] at h
    rw [List.flatten_cons, List.map_cons, List.flatten_cons, ← replaced_flatten hold h.2]
    rcases h.1 with rfl | hclear
    · rw [replaced_self_append hold, if_pos rfl]
    · have hne : p ≠ old := fun heq => not_clear_self hold (heq ▸ hclear)
      rw [replaced_append_of_clear hclear, if_neg hne]

end SourceAudit.Text
