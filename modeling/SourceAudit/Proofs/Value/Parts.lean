/-
# Parts of values

Fields that are set keep their place, and no other field changes. A property can
be asked of a value and of all its parts (`Value.Throughout`). A value is legible
if no object in it has two fields of one name and the text of each binary
fraction in it is read as that fraction (`Value.Legible`); these are the values
that can be written and read back.
-/
import Mathlib.Tactic.Common
import SourceAudit.Value.JsonRead

namespace SourceAudit

variable {name : String} {v : Value} {fields : Fields}

namespace Fields

theorem set_of_notMem : ∀ {fields : Fields}, name ∉ fields.map (·.1) → set name v fields = fields ++ [(name, v)]
  | [], _ => rfl
  | (n, w) :: rest, h => by
    rw [List.map_cons, List.mem_cons, not_or] at h
    have hn : (n == name) = false := beq_eq_false_iff_ne.mpr (Ne.symm h.1)
    rw [set, hn, set_of_notMem h.2]
    rfl

theorem map_fst_set (name : String) (v : Value) : ∀ fields : Fields,
    (set name v fields).map (·.1) = if name ∈ fields.map (·.1) then fields.map (·.1) else fields.map (·.1) ++ [name]
  | [] => by simp [set]
  | (n, w) :: rest => by
    by_cases hn : n = name
    · simp [set, hn]
    · have hne : name ≠ n := Ne.symm hn
      simp only [set, beq_iff_eq, hn, if_false, List.map_cons, map_fst_set name v rest, List.mem_cons, hne, false_or]
      split <;> simp

theorem nodup_set (h : (fields.map (·.1)).Nodup) : ((set name v fields).map (·.1)).Nodup := by
  rw [map_fst_set]
  split
  · exact h
  · rename_i hname
    refine List.nodup_append.mpr ⟨h, by simp, ?_⟩
    intro a ha b hb
    rw [List.mem_singleton.mp hb]
    rintro rfl
    exact hname ha

theorem mem_set : ∀ {fields : Fields} {f : String × Value}, f ∈ set name v fields → f.2 = v ∨ f ∈ fields
  | [], f, h => by
    rw [set, List.mem_singleton] at h
    exact Or.inl (by rw [h])
  | (n, w) :: rest, f, h => by
    rw [set] at h
    split at h
    · rcases List.mem_cons.mp h with rfl | h
      · exact Or.inl rfl
      · exact Or.inr (List.mem_cons_of_mem _ h)
    · rcases List.mem_cons.mp h with rfl | h
      · exact Or.inr List.mem_cons_self
      · rcases mem_set h with h | h
        · exact Or.inl h
        · exact Or.inr (List.mem_cons_of_mem _ h)

theorem get?_set_self (name : String) (v : Value) : ∀ fields : Fields, get? (set name v fields) name = some v
  | [] => by simp [get?, set]
  | (n, w) :: rest => by
    have hrest := get?_set_self name v rest
    by_cases hn : n = name
    · simp [get?, set, hn]
    · simpa [get?, set, hn] using hrest

theorem get?_set_of_ne {other : String} (hne : other ≠ name) (v : Value) : ∀ fields : Fields,
    get? (set name v fields) other = get? fields other
  | [] => by simp [get?, set, Ne.symm hne]
  | (n, w) :: rest => by
    have hrest := get?_set_of_ne hne v rest
    by_cases hn : n = name
    · have hname : (name == other) = false := beq_eq_false_iff_ne.mpr (Ne.symm hne)
      simp [get?, set, hn, hname]
    · by_cases hother : n = other
      · simp [get?, set, hother, hne]
      · simpa [get?, set, hn, hother] using hrest

end Fields

namespace Value

/-- Induction over a value and its parts. -/
theorem ind {P : Value → Prop} (null : P .null) (bool : ∀ b, P (.bool b)) (int : ∀ i, P (.int i))
    (real : ∀ d, P (.real d)) (str : ∀ s, P (.str s)) (list : ∀ items, (∀ v ∈ items, P v) → P (.list items))
    (object : ∀ fields : Fields, (∀ f ∈ fields, P f.2) → P (.object fields)) : ∀ v, P v :=
  @Value.rec P (fun items => ∀ v ∈ items, P v) (fun fields => ∀ f ∈ fields, P f.2) (fun f => P f.2)
    null bool int real str list object (List.forall_mem_nil _) (fun _ _ hv hitems => List.forall_mem_cons.mpr ⟨hv, hitems⟩)
    (List.forall_mem_nil _) (fun _ _ hf hfields => List.forall_mem_cons.mpr ⟨hf, hfields⟩) fun _ _ h => h

mutual

/-- A property holds of a value and of all its parts. -/
def Throughout (P : Value → Prop) : Value → Prop
  | .list items => P (.list items) ∧ ThroughoutItems P items
  | .object fields => P (.object fields) ∧ ThroughoutFields P fields
  | v => P v

def ThroughoutItems (P : Value → Prop) : List Value → Prop
  | [] => True
  | v :: rest => Throughout P v ∧ ThroughoutItems P rest

def ThroughoutFields (P : Value → Prop) : List (String × Value) → Prop
  | [] => True
  | (_, v) :: rest => Throughout P v ∧ ThroughoutFields P rest

end

variable {P : Value → Prop}

theorem throughoutItems_iff : ∀ {items : List Value}, ThroughoutItems P items ↔ ∀ v ∈ items, v.Throughout P
  | [] => by simp [ThroughoutItems]
  | v :: rest => by rw [ThroughoutItems, throughoutItems_iff, List.forall_mem_cons]

theorem throughoutFields_iff : ∀ {fields : Fields}, ThroughoutFields P fields ↔ ∀ f ∈ fields, f.2.Throughout P
  | [] => by simp [ThroughoutFields]
  | (_, v) :: rest => by rw [ThroughoutFields, throughoutFields_iff, List.forall_mem_cons]

theorem throughout_list {items : List Value} :
    (Value.list items).Throughout P ↔ P (.list items) ∧ ∀ v ∈ items, v.Throughout P := by
  rw [Throughout, throughoutItems_iff]

theorem throughout_object :
    (Value.object fields).Throughout P ↔ P (.object fields) ∧ ∀ f ∈ fields, f.2.Throughout P := by
  rw [Throughout, throughoutFields_iff]

def NamesDiffer : Value → Prop
  | .object fields => (fields.map (·.1)).Nodup
  | _ => True

/-- The text of a binary fraction is read as that fraction. -/
def ReadsBack : Value → Prop
  | .real d => Json.scalar (d.text "Infinity" "NaN").toList = .ok (.real d, [])
  | _ => True

def Distinct (v : Value) : Prop := v.Throughout NamesDiffer

def Exact (v : Value) : Prop := v.Throughout ReadsBack

/-- A value that can be written and read back. -/
structure Legible (v : Value) : Prop where
  distinct : v.Distinct
  reads : v.Exact

theorem legible_bool (b : Bool) : (Value.bool b).Legible := ⟨trivial, trivial⟩

theorem legible_int (i : Int) : (Value.int i).Legible := ⟨trivial, trivial⟩

theorem legible_str (s : String) : (Value.str s).Legible := ⟨trivial, trivial⟩

theorem legible_list {items : List Value} : (Value.list items).Legible ↔ ∀ v ∈ items, v.Legible := by
  constructor
  · rintro ⟨hdistinct, hreads⟩ v hv
    exact ⟨(throughout_list.mp hdistinct).2 v hv, (throughout_list.mp hreads).2 v hv⟩
  · intro h
    exact ⟨throughout_list.mpr ⟨trivial, fun v hv => (h v hv).distinct⟩,
      throughout_list.mpr ⟨trivial, fun v hv => (h v hv).reads⟩⟩

theorem legible_object : (Value.object fields).Legible ↔ (fields.map (·.1)).Nodup ∧ ∀ f ∈ fields, f.2.Legible := by
  constructor
  · rintro ⟨hdistinct, hreads⟩
    refine ⟨(throughout_object.mp hdistinct).1, fun f hf => ?_⟩
    exact ⟨(throughout_object.mp hdistinct).2 f hf, (throughout_object.mp hreads).2 f hf⟩
  · rintro ⟨hnodup, h⟩
    exact ⟨throughout_object.mpr ⟨hnodup, fun f hf => (h f hf).distinct⟩,
      throughout_object.mpr ⟨trivial, fun f hf => (h f hf).reads⟩⟩

theorem Legible.set (h : (Value.object fields).Legible) (hv : v.Legible) (name : String) :
    (Value.object (Fields.set name v fields)).Legible := by
  rw [legible_object] at h ⊢
  refine ⟨Fields.nodup_set h.1, fun f hf => ?_⟩
  rcases Fields.mem_set hf with hf | hf
  · rw [hf]
    exact hv
  · exact h.2 f hf

end Value

end SourceAudit
