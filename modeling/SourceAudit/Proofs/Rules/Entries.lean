/-
# Rules by their identifiers

On entries that are rules, objects whose identifier is a text (`IsRule`), no operation
of the editor fails, and each is an operation on lists (`hasId_eq`, `without_eq`,
`extract_eq`, `switch_eq`). What a changed entry has in common with the old one is said
by `Value.Becomes`: some fields are set, and all others are the same. Entries of any
kind can make the operations fail; where one succeeds, what it makes is told as well
(`sublist_of_without`, `exists_of_extract`, `exists_of_switch`).
-/
import SourceAudit.Proofs.Outcome
import SourceAudit.Proofs.Value.Parts
import SourceAudit.Rules.Editor

namespace SourceAudit

variable {e v : Value} {name : String}

namespace Value

/-- The second value is the first with some fields set. -/
structure Becomes (v w : Value) (changes : Fields) : Prop where
  sets : ∀ c ∈ changes, w.field? c.1 = some c.2
  keeps : ∀ name ∉ changes.map (·.1), w.field? name = v.field? name

end Value

namespace Fields

def setAll (changes fields : Fields) : Fields :=
  changes.foldl (fun fs p => set p.1 p.2 fs) fields

theorem get?_setAll_of_notMem : ∀ {changes : Fields} (fields : Fields), name ∉ changes.map (·.1) →
    get? (setAll changes fields) name = get? fields name
  | [], _, _ => rfl
  | c :: changes, fields, h => by
    rw [List.map_cons, List.mem_cons, not_or] at h
    have hrest := get?_setAll_of_notMem (set c.1 c.2 fields) h.2
    rw [get?_set_of_ne h.1] at hrest
    exact hrest

theorem get?_setAll {c : String × Value} : ∀ {changes : Fields} (fields : Fields), (changes.map (·.1)).Nodup →
    c ∈ changes → get? (setAll changes fields) c.1 = some c.2
  | c' :: changes, fields, hnodup, hc => by
    rw [List.map_cons, List.nodup_cons] at hnodup
    rcases List.mem_cons.mp hc with rfl | hc
    · have hlast := get?_setAll_of_notMem (set c.1 c.2 fields) hnodup.1
      rw [get?_set_self] at hlast
      exact hlast
    · exact get?_setAll (set c'.1 c'.2 fields) hnodup.2 hc

theorem becomes_setAll {changes : Fields} (fields : Fields) (h : (changes.map (·.1)).Nodup) :
    (Value.object fields).Becomes (.object (setAll changes fields)) changes :=
  ⟨fun _ hc => get?_setAll fields h hc, fun _ hname => get?_setAll_of_notMem fields hname⟩

theorem becomes_set (name : String) (v : Value) (fields : Fields) :
    (Value.object fields).Becomes (.object (set name v fields)) [(name, v)] := by
  have hnodup : (([(name, v)] : Fields).map (·.1)).Nodup := by simp
  exact becomes_setAll fields hnodup

theorem legible_setAll : ∀ {changes fields : Fields}, (Value.object fields).Legible →
    (∀ c ∈ changes, c.2.Legible) → (Value.object (setAll changes fields)).Legible
  | [], _, h, _ => h
  | c :: changes, fields, h, hchanges => by
    rw [List.forall_mem_cons] at hchanges
    show (Value.object (setAll changes (set c.1 c.2 fields))).Legible
    exact legible_setAll (h.set hchanges.1 c.1) hchanges.2

end Fields

namespace Rules

/-- An entry is an object with a text as its identifier. -/
def IsRule (e : Value) : Prop :=
  ∃ id, e.field? "id" = some (.str id)

def named (id : String) (e : Value) : Bool :=
  match e.field? "id" with
  | some (.str s) => s == id
  | _ => false

theorem IsRule.object (h : IsRule e) : e = .object e.fields := by
  obtain ⟨id, hid⟩ := h
  cases e with
  | object fields => rfl
  | _ => exact absurd hid (by simp [Value.field?])

theorem entryHasId_eq (h : IsRule e) (id : String) : entryHasId id e = .ok (named id e) := by
  have hobject : e.isObject = true := by
    rw [h.object]
    rfl
  obtain ⟨own, hown⟩ := h
  rw [entryHasId, if_pos hobject, named, Value.field, hown, Option.getD_some, Value.same]

/-! ### Lists of rules -/

section

variable {es : List Value} {id : String} {p : Value → Bool}

theorem hasId_of_forall (h : ∀ e ∈ es, entryHasId id e = .ok (p e)) : hasId id es = .ok (es.any p) := by
  unfold hasId
  induction es with
  | nil => rfl
  | cons e es ih =>
    rw [List.forall_mem_cons] at h
    rw [List.anyM, h.1, List.any_cons]
    cases hp : p e with
    | true => rfl
    | false => exact ih h.2

theorem without_of_forall (h : ∀ e ∈ es, entryHasId id e = .ok (p e)) :
    without id es = .ok (es.filter fun e => !p e) := by
  have haux : ∀ (es done : List Value), (∀ e ∈ es, entryHasId id e = .ok (p e)) →
      List.filterAuxM (fun e => return !(← entryHasId id e)) es done =
        (.ok ((es.filter fun e => !p e).reverse ++ done) : Except Fault (List Value)) := by
    intro es
    induction es with
    | nil => exact fun done _ => rfl
    | cons e es ih =>
      intro done h
      rw [List.forall_mem_cons] at h
      rw [List.filterAuxM, h.1]
      cases hp : p e with
      | true =>
        rw [List.filter_cons_of_neg (by simp [hp])]
        exact ih done h.2
      | false =>
        rw [List.filter_cons_of_pos (by simp [hp]), List.reverse_cons, List.append_assoc]
        exact ih (e :: done) h.2
  rw [without, List.filterM, haux es [] h]
  simp [bind, Except.bind, pure, Except.pure]

end

section

variable {es : List Value} (h : ∀ e ∈ es, IsRule e) (id : String)

include h

theorem hasId_eq : hasId id es = .ok (es.any (named id)) :=
  hasId_of_forall fun e he => entryHasId_eq (h e he) id

theorem without_eq : without id es = .ok (es.filter fun e => !named id e) :=
  without_of_forall fun e he => entryHasId_eq (h e he) id

theorem extract_eq : extract id es = .ok (es.find? (named id), es.eraseP (named id)) := by
  induction es with
  | nil => rfl
  | cons e es ih =>
    rw [List.forall_mem_cons] at h
    rw [extract, entryHasId_eq h.1, ih h.2]
    cases hnamed : named id e with
    | true => simp [bind, Except.bind, pure, Except.pure, hnamed]
    | false => simp [bind, Except.bind, pure, Except.pure, hnamed]

theorem switch_of_none (v : Value) (hnone : ∀ e ∈ es, named id e = false) : switch id v es = .ok none := by
  induction es with
  | nil => rfl
  | cons e es ih =>
    rw [List.forall_mem_cons] at h hnone
    rw [switch, entryHasId_eq h.1, hnone.1, ih h.2 hnone.2]
    rfl

end

theorem length_without_eq_iff {id : String} {es : List Value} :
    ((es.filter fun e => !named id e).length == es.length) = true ↔ ¬es.any (named id) = true := by
  rw [beq_iff_eq, List.length_filter_eq_length_iff, List.any_eq_true]
  simp

theorem switch_eq {post : List Value} {id : String} (v : Value) (he : IsRule e)
    (hnamed : named id e = true) : ∀ {pre : List Value}, (∀ x ∈ pre, IsRule x) → (∀ x ∈ pre, named id x = false) →
    switch id v (pre ++ e :: post) = .ok (some (pre ++ .object (Fields.set "enabled" v e.fields) :: post))
  | [], _, _ => by
    rw [List.nil_append, switch, entryHasId_eq he, hnamed]
    rfl
  | x :: pre, hpre, hnot => by
    rw [List.forall_mem_cons] at hpre hnot
    rw [List.cons_append, switch, entryHasId_eq hpre.1, hnot.1, switch_eq v he hnamed hpre.2 hnot.2]
    rfl

theorem exists_first {id : String} {es : List Value} (h : es.any (named id) = true) :
    ∃ pre e post, es = pre ++ e :: post ∧ (∀ x ∈ pre, named id x = false) ∧ named id e = true ∧
      es.find? (named id) = some e ∧ es.eraseP (named id) = pre ++ post := by
  obtain ⟨e, he, hnamed⟩ := List.any_eq_true.mp h
  obtain ⟨first, pre, post, hpre, hfirst, hes, herase⟩ := List.exists_of_eraseP he hnamed
  have hnot : ∀ x ∈ pre, named id x = false := fun x hx => by simpa using hpre x hx
  refine ⟨pre, first, post, hes, hnot, hfirst, ?_, herase⟩
  rw [hes, List.find?_append, List.find?_eq_none.mpr (by simpa using hnot), List.find?_cons, hfirst]
  rfl

/-! ### The entries that are made -/

theorem isRule_newEntry (language : String) (f : Form) : IsRule (newEntry language f) := by
  unfold newEntry
  dsimp only
  split_ifs <;> exact ⟨_, rfl⟩

theorem legible_ofStrings (xs : List String) : (Value.ofStrings xs).Legible := by
  rw [Value.ofStrings, Value.legible_list]
  intro v hv
  obtain ⟨s, _, rfl⟩ := List.mem_map.mp hv
  exact Value.legible_str s

theorem legible_newEntry (language : String) (f : Form) : (newEntry language f).Legible := by
  unfold newEntry
  dsimp only
  rw [Value.legible_object]
  split_ifs <;>
    simp [Value.legible_str, Value.legible_bool, legible_ofStrings]

theorem isRule_set (h : IsRule e) (hname : "id" ≠ name) : IsRule (.object (Fields.set name v e.fields)) := by
  rw [h.object] at h
  obtain ⟨id, hid⟩ := h
  exact ⟨id, (Fields.get?_set_of_ne hname v e.fields).trans hid⟩

def updates (language : String) (f : Form) (e : Value) : Fields :=
  [("id", .str f.id), ("name", .str (Text.strip f.name)), ("type", .str "REGEX"),
    ("pattern", .str f.pattern), ("severity", .str f.severityOr),
    ("description", .str (Text.strip f.description)),
    ("enabled", .bool ((e.field? "enabled").getD (.bool true)).truthy),
    ("flags", (e.field? "flags").getD (.list [])),
    ("skipContexts", (e.field? "skipContexts").getD (.ofStrings (usualContexts language)))]

theorem nodup_updates (language : String) (f : Form) (e : Value) : ((updates language f e).map (·.1)).Nodup := by
  simp [updates]

theorem updatedEntry_eq (language : String) (f : Form) (e : Value) :
    updatedEntry language f e = .object (Fields.setAll (updates language f e) e.fields) := rfl

theorem becomes_updatedEntry (language : String) (f : Form) (h : IsRule e) :
    e.Becomes (updatedEntry language f e) (updates language f e) := by
  have hbecomes := Fields.becomes_setAll e.fields (nodup_updates language f e)
  rwa [← h.object, ← updatedEntry_eq] at hbecomes

theorem isRule_updatedEntry (language : String) (f : Form) (h : IsRule e) : IsRule (updatedEntry language f e) :=
  ⟨f.id, (becomes_updatedEntry language f h).sets ("id", .str f.id) (by simp [updates])⟩

theorem legible_field (h : e.Legible) (hv : e.field? name = some v) : v.Legible := by
  cases e with
  | object fields =>
    obtain ⟨f, hf, rfl⟩ := Option.map_eq_some_iff.mp hv
    exact (Value.legible_object.mp h).2 f (List.mem_of_find?_eq_some hf)
  | _ => exact absurd hv (by simp [Value.field?])

theorem legible_getD {other : Value} (h : e.Legible) (hother : other.Legible) :
    ((e.field? name).getD other).Legible := by
  cases hv : e.field? name with
  | none => exact hother
  | some v => exact legible_field h hv

theorem legible_updatedEntry_of_object (language : String) (f : Form) (hobject : e = .object e.fields)
    (h : e.Legible) : (updatedEntry language f e).Legible := by
  rw [updatedEntry_eq]
  apply Fields.legible_setAll
  · rw [← hobject]
    exact h
  · have hempty : (Value.list []).Legible := Value.legible_list.mpr (by simp)
    simp [updates, Value.legible_str, Value.legible_bool, legible_getD h hempty,
      legible_getD h (legible_ofStrings (usualContexts language))]

theorem legible_updatedEntry (language : String) (f : Form) (hrule : IsRule e) (h : e.Legible) :
    (updatedEntry language f e).Legible :=
  legible_updatedEntry_of_object language f hrule.object h

/-! ### Entries of any kind -/

theorem eq_object_of_isObject (h : e.isObject = true) : e = .object e.fields := by
  cases e with
  | object fields => rfl
  | _ => exact absurd h (by simp [Value.isObject])

theorem entryHasId_eq_ok {id : String} {b : Bool} :
    entryHasId id e = .ok b ↔ e.isObject = true ∧ (e.field "id").same (.str id) = b := by
  unfold entryHasId
  split_ifs with h
  · simp [h]
  · simp [h]

theorem forall_of_hasId {id : String} : ∀ {es : List Value}, hasId id es = .ok false →
    ∀ e ∈ es, entryHasId id e = .ok false
  | [], _ => by simp
  | e :: es, h => by
    rw [hasId, List.anyM] at h
    obtain ⟨b, he, h⟩ := bind_eq_ok.mp h
    rw [List.forall_mem_cons]
    cases b with
    | true => exact absurd (Except.ok.inj h) (by simp)
    | false => exact ⟨he, forall_of_hasId h⟩

theorem sublist_of_without {id : String} {es kept : List Value} (h : without id es = .ok kept) : kept.Sublist es := by
  have haux : ∀ (es done out : List Value),
      List.filterAuxM (fun e => return !(← entryHasId id e)) es done = (.ok out : Except Fault _) →
      ∃ kept : List Value, out = kept.reverse ++ done ∧ kept.Sublist es := by
    intro es
    induction es with
    | nil =>
      intro done out h
      exact ⟨[], (Except.ok.inj h).symm, List.Sublist.refl []⟩
    | cons e es ih =>
      intro done out h
      rw [List.filterAuxM, bind_assoc] at h
      obtain ⟨b, he, h⟩ := bind_eq_ok.mp h
      cases b with
      | true =>
        obtain ⟨kept, hout, hsub⟩ := ih done out h
        exact ⟨kept, hout, hsub.cons e⟩
      | false =>
        obtain ⟨kept, hout, hsub⟩ := ih (e :: done) out h
        exact ⟨e :: kept, by rw [hout, List.reverse_cons, List.append_assoc]; rfl, hsub.cons_cons e⟩
  obtain ⟨out, hout, h⟩ := bind_eq_ok.mp h
  obtain ⟨xs, rfl, hsub⟩ := haux es [] out hout
  have hkept := Except.ok.inj h
  rw [List.append_nil, List.reverse_reverse] at hkept
  rwa [← hkept]

theorem exists_of_extract {id : String} {entry : Value} : ∀ {es others : List Value},
    extract id es = .ok (some entry, others) →
    entry.isObject = true ∧ ∃ pre post, es = pre ++ entry :: post ∧ others = pre ++ post
  | [], others, h => absurd (Except.ok.inj h) (by simp)
  | e :: rest, others, h => by
    rw [extract] at h
    obtain ⟨here, he, h⟩ := bind_eq_ok.mp h
    obtain ⟨found, hrest, h⟩ := bind_eq_ok.mp h
    cases here with
    | true =>
      obtain ⟨hentry, hothers⟩ := Prod.mk.inj (Except.ok.inj h)
      obtain rfl := Option.some.inj hentry
      exact ⟨(entryHasId_eq_ok.mp he).1, [], rest, rfl, hothers.symm⟩
    | false =>
      obtain ⟨hentry, hothers⟩ := Prod.mk.inj (Except.ok.inj h)
      obtain ⟨hobject, pre, post, rfl, hpost⟩ := exists_of_extract (hrest.trans (by rw [← hentry]))
      exact ⟨hobject, e :: pre, post, rfl, by rw [← hothers, hpost]; rfl⟩

theorem exists_of_switch {id : String} : ∀ {es changed : List Value},
    switch id v es = .ok (some changed) → ∃ pre e post, e.isObject = true ∧ es = pre ++ e :: post ∧
      changed = pre ++ .object (Fields.set "enabled" v e.fields) :: post
  | [], changed, h => absurd (Except.ok.inj h) (by simp)
  | e :: rest, changed, h => by
    rw [switch] at h
    obtain ⟨here, he, h⟩ := bind_eq_ok.mp h
    cases here with
    | true =>
      obtain rfl := Option.some.inj (Except.ok.inj h)
      exact ⟨[], e, rest, (entryHasId_eq_ok.mp he).1, rfl, rfl⟩
    | false =>
      obtain ⟨found, hrest, h⟩ := bind_eq_ok.mp h
      obtain ⟨xs, rfl, hxs⟩ := Option.map_eq_some_iff.mp (Except.ok.inj h)
      obtain ⟨pre, x, post, hobject, rfl, hchanged⟩ := exists_of_switch hrest
      exact ⟨e :: pre, x, post, hobject, rfl, by rw [← hxs, hchanged]; rfl⟩

end Rules

end SourceAudit
