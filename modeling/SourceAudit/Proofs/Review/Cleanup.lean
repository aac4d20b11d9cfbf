/-
# What a cleanup of kept analyses leaves

A stamp is a number in a kept document, and its age is a rounded difference of doubles.
The limit of a day is a number of the format, so rounding never takes an age over it
from below; nor does it from above, since times later than two days lie on a grid of
their own (`tells_of_late`).

A cleanup throws away what is older than a day: projects, items, and whatever has not
the shape of one. If the stamps are times, it works on the documents as a filter does
(`renewed?`, `renewal`), and stores the result only if something is missing from it
(`renewal_same_iff`). A project that stays is stamped with the latest time of its items,
which is recent, so a second cleanup finds nothing to do.
-/
import SourceAudit.Proofs.Review.Cache

namespace SourceAudit

variable {a b : Double} {x y : Rat}

theorem Fields.get?_eq_some_iff {name : String} {v : Value} : ∀ {fields : Fields}, (fields.map (·.1)).Nodup →
    (Fields.get? fields name = some v ↔ (name, v) ∈ fields)
  | [], _ => by simp [Fields.get?]
  | (other, w) :: rest, h => by
    rw [List.map_cons, List.nodup_cons] at h
    by_cases hname : other = name
    · have hrest : (name, v) ∉ rest := fun hv => h.1 (List.mem_map.mpr ⟨_, hv, hname.symm⟩)
      simp [Fields.get?, hname, hrest, eq_comm]
    · have hrest : Fields.get? rest name = some v ↔ (name, v) ∈ rest := get?_eq_some_iff h.2
      simpa [Fields.get?, hname, Ne.symm hname] using hrest

namespace Review.Cache

/-! ### Ages -/

def numberOf (stamp : Option Value) : Rat := (stamp.bind Value.rational?).getD 0

/-- The time of the last change, zero if there is none. -/
def stampOf (fields : Fields) : Rat :=
  let updated := numberOf (Fields.get? fields "updatedAt")
  if updated = 0 then numberOf (Fields.get? fields "createdAt") else updated

/-- The stamps are numbers in the range of the format, and the present is late enough, or their ages
are computed without rounding. -/
def Timed (now : Double) (n : Rat) (fields : Fields) : Prop :=
  ∀ name ∈ ["updatedAt", "createdAt"], ∀ stamp, Fields.get? fields name = some stamp →
    ∃ q t, stamp.rational? = some q ∧ stamp.toDouble = .ok t ∧
      (172800 < n ∧ n ≤ 2 ^ 53 ∨ (now.sub t).toRat? = some (n - q))

theorem ofInt_natCast {k : Nat} (h : k < 2 ^ 53) : Double.ofInt k = .finite k := by
  rw [Double.ofInt, Int.cast_natCast, Double.ofRat, if_neg (not_lt.mpr (Nat.cast_nonneg k)), Double.ofNonneg_natCast h]

theorem lifetime_eq : lifetime = .finite 86400 := ofInt_natCast (by norm_num : 86400 < 2 ^ 53)

theorem toRat?_lifetime : lifetime.toRat? = some 86400 := by
  rw [lifetime_eq]
  rfl

theorem isFormat_day {k : Nat} (hk : k ≤ 1) : Double.IsFormat ((86400 * 2 ^ 36 + k : Nat) * 2 ^ (-36 : Int)) := by
  refine ⟨_, -36, ⟨by omega, by omega, by norm_num, .inr (by omega), ?_⟩, rfl⟩
  have hm : ((86400 * 2 ^ 36 + k : Nat) : Rat) < 2 ^ 53 := by exact_mod_cast (by omega : 86400 * 2 ^ 36 + k < 2 ^ 53)
  calc ((86400 * 2 ^ 36 + k : Nat) : Rat) * 2 ^ (-36 : Int) ≤ (86400 * 2 ^ 36 + k : Nat) * 1 := by gcongr; norm_num
    _ < 2 ^ 53 := by rwa [mul_one]
    _ < 2 ^ (1024 : Int) := Double.two_pow_lt_limit

theorem lt_multiple {c k : Int} (h : (c : Rat) < k * 2 ^ (-36 : Int)) : (c : Rat) + 2 ^ (-36 : Int) ≤ k * 2 ^ (-36 : Int) := by
  norm_num at h ⊢
  have hlt : (c : Rat) * 68719476736 < k := by linarith
  have hint : c * 68719476736 + 1 ≤ k := by exact_mod_cast hlt
  have hcast : (c : Rat) * 68719476736 + 1 ≤ k := by exact_mod_cast hint
  linarith

theorem exists_multiple {d : Double} {v : Rat} (h : Json.IsRead d) (hv : d.toRat? = some v) (hlarge : 86400 ≤ v) :
    ∃ k : Int, v = k * 2 ^ (-36 : Int) := by
  cases d with
  | finite w =>
    obtain rfl : w = v := Option.some.inj hv
    have hformat : Double.IsFormat w := by
      rcases h with h | h | h
      · linarith
      · exact h
      · have := h.pos
        linarith
    exact hformat.exists_multiple (le_trans (by norm_num) hlarge)
  | negZero =>
    obtain rfl : 0 = v := Option.some.inj hv
    linarith
  | _ => exact absurd hv (by simp [Double.toRat?])

theorem sub_eq (ha : a.toRat? = some x) (hb : b.toRat? = some y) : a.sub b = .ofRat (x - y) := by
  cases a <;> cases b <;> simp_all [Double.toRat?, Double.sub]

/-- A computed age lies on the same side of the limit as the age. -/
def Tells (d : Double) (x : Rat) : Prop :=
  (x ≤ 86400 ∧ (d = .infinite true ∨ ∃ r, d.toRat? = some r ∧ r ≤ 86400)) ∨
    (86400 < x ∧ (d = .infinite false ∨ ∃ r, d.toRat? = some r ∧ 86400 < r))

section

variable {now t : Double} {n r q : Rat} {fields : Fields}

theorem lt_iff (ha : a.toRat? = some x) (hb : b.toRat? = some y) : a.lt b = true ↔ x < y := by
  have hlt : a.lt b = decide (a.toRat?.getD 0 < b.toRat?.getD 0) := by
    cases a <;> cases b <;> simp_all [Double.lt, Double.toRat?]
  rw [hlt, ha, hb]
  exact decide_eq_true_iff

theorem le_iff (ha : a.toRat? = some x) (hb : b.toRat? = some y) : (a.lt b || a.same b) = true ↔ x ≤ y := by
  have hsame : a.same b = true ↔ x = y := by
    cases a <;> cases b <;> simp_all [Double.same, Double.toRat?]
  rw [Bool.or_eq_true, lt_iff ha hb, hsame, le_iff_lt_or_eq]

theorem isStale_iff (h : Tells (now.sub t) q) :
    (isStale now t = true ↔ 86400 < q) ∧ (isFresh now t = true ↔ q ≤ 86400) := by
  unfold isStale isFresh
  dsimp only
  rcases h with ⟨hq, hd | ⟨r, hr, hle⟩⟩ | ⟨hq, hd | ⟨r, hr, hlt⟩⟩
  · rw [hd, lifetime_eq]
    simp [Double.lt, Double.same, hq]
  · rw [lt_iff toRat?_lifetime hr, le_iff hr toRat?_lifetime]
    exact ⟨iff_of_false (not_lt.mpr hle) (not_lt.mpr hq), iff_of_true hle hq⟩
  · rw [hd, lifetime_eq]
    simp [Double.lt, Double.same, hq]
  · rw [lt_iff toRat?_lifetime hr, le_iff hr toRat?_lifetime]
    exact ⟨iff_of_true hlt hq, iff_of_false (not_le.mpr hlt) (not_le.mpr hq)⟩

/-- Late enough, no rounding brings an age to the other side of the limit. -/
theorem tells_of_late (hnow : Json.IsRead now) (hn : now.toRat? = some n) (ht : Json.IsRead t) (hr : t.toRat? = some r)
    (hlate : 172800 < n) : Tells (now.sub t) (n - r) := by
  have hday : (86400 : Rat) = (86400 * 2 ^ 36 + 0 : Nat) * 2 ^ (-36 : Int) := by norm_num
  have hnext : (86400 : Rat) + 2 ^ (-36 : Int) = (86400 * 2 ^ 36 + 1 : Nat) * 2 ^ (-36 : Int) := by norm_num
  have hgap : (0 : Rat) < 2 ^ (-36 : Int) := by norm_num
  rw [sub_eq hn hr]
  rcases le_or_gt (n - r) 86400 with hx | hx
  · exact .inl ⟨hx, Double.ofRat_le (hday ▸ isFormat_day (by norm_num)) hx⟩
  · -- both times lie on a grid, or the stamp lies before its start
    have hbeyond : (86400 : Rat) + 2 ^ (-36 : Int) ≤ n - r := by
      obtain ⟨i, hi⟩ := exists_multiple hnow hn (by linarith)
      by_cases hstart : 86400 ≤ r
      · obtain ⟨j, hj⟩ := exists_multiple ht hr hstart
        have hsub : n - r = (i - j : Int) * 2 ^ (-36 : Int) := by
          rw [hi, hj]
          push_cast
          ring
        rw [hsub] at hx ⊢
        exact_mod_cast lt_multiple (by exact_mod_cast hx)
      · have hstep := lt_multiple (by rw [← hi]; exact_mod_cast hlate : ((172800 : Int) : Rat) < i * 2 ^ (-36 : Int))
        rw [← hi] at hstep
        push_cast at hstep
        linarith
    refine .inr ⟨hx, (Double.le_ofRat (hnext ▸ isFormat_day le_rfl) hbeyond).imp_right ?_⟩
    rintro ⟨x, hx, hle⟩
    exact ⟨x, hx, by linarith⟩

/-- The double of a number has its value, unless both are large. -/
theorem exists_value {stamp : Value} (hq : stamp.rational? = some q) (ht : stamp.toDouble = .ok t)
    (hlegible : stamp.Legible) : Json.IsRead t ∧ ∃ r, t.toRat? = some r ∧
      (r = q ∨ (2 ^ 53 ≤ q ∧ 2 ^ 53 ≤ r) ∨ (q ≤ -2 ^ 53 ∧ r ≤ -2 ^ 53)) := by
  cases stamp with
  | int i =>
    obtain rfl : (i : Rat) = q := Option.some.inj hq
    have hround : t = .ofInt i ∧ ∀ b, t ≠ .infinite b := by
      rw [Value.toDouble] at ht
      split at ht
      · cases ht
      · rename_i hfinite
        obtain rfl := Except.ok.inj ht
        exact ⟨rfl, hfinite⟩
    obtain ⟨rfl, hfinite⟩ := hround
    have hvalue : ∃ r, (Double.ofInt i).toRat? = some r := by
      rcases le_total (i : Rat) (2 ^ 53) with hle | hle
      · rcases Double.ofRat_le Double.isFormat_two_pow hle with hinf | ⟨r, hr, -⟩
        · exact absurd hinf (hfinite true)
        · exact ⟨r, hr⟩
      · rcases Double.le_ofRat Double.isFormat_two_pow hle with hinf | ⟨r, hr, -⟩
        · exact absurd hinf (hfinite false)
        · exact ⟨r, hr⟩
    obtain ⟨r, hr⟩ := hvalue
    exact ⟨Json.isRead_ofRat _, r, hr, Double.ofInt_cases hr⟩
  | bool b =>
    obtain rfl := Except.ok.inj ht
    refine ⟨Json.isRead_ofRat _, q, ?_, .inl rfl⟩
    have hdouble : Double.ofInt (if b then 1 else 0) = .finite (if b then 1 else 0) := by
      cases b with
      | true => exact ofInt_natCast (by norm_num : 1 < 2 ^ 53)
      | false => exact ofInt_natCast (by norm_num : 0 < 2 ^ 53)
    rw [hdouble]
    exact hq
  | real d =>
    obtain rfl := Except.ok.inj ht
    exact ⟨Json.isRead_of_readsBack hlegible.reads, q, hq, .inl rfl⟩
  | _ => exact absurd hq (by simp [Value.rational?])

/-- A time is used as the time `q`. -/
structure StandsFor (now t : Double) (n q : Rat) : Prop where
  isRead : Json.IsRead t
  zero : t.isZero = true ↔ q = 0
  tells : q ≠ 0 → Tells (now.sub t) (n - q)

theorem truthy_iff {v : Value} (hq : v.rational? = some q) : v.truthy = true ↔ q ≠ 0 := by
  cases v with
  | int i =>
    obtain rfl : (i : Rat) = q := Option.some.inj hq
    simp [Value.truthy]
  | bool b =>
    obtain rfl : (if b then 1 else 0) = q := Option.some.inj hq
    simp [Value.truthy]
  | real d =>
    have hd : d.toRat? = some q := hq
    simp [Value.truthy, Double.isZero, hd]
  | _ => exact absurd hq (by simp [Value.rational?])

variable (hnow : Json.IsRead now) (hn : now.toRat? = some n)

include hnow hn

theorem standsFor_of_number {stamp : Value} (hlegible : stamp.Legible) (hq : stamp.rational? = some q)
    (ht : stamp.toDouble = .ok t) (hclock : 172800 < n ∧ n ≤ 2 ^ 53 ∨ (now.sub t).toRat? = some (n - q)) :
    StandsFor now t n q := by
  obtain ⟨hread, r, hr, hnear⟩ := exists_value hq ht hlegible
  refine ⟨hread, ?_, fun _ => ?_⟩
  · have hzero : r = 0 ↔ q = 0 := by
      rcases hnear with rfl | ⟨hq, hr⟩ | ⟨hq, hr⟩
      · rfl
      · exact iff_of_false (by linarith) (by linarith)
      · exact iff_of_false (by linarith) (by linarith)
    simpa [Double.isZero, hr] using hzero
  · rcases hclock with ⟨hlate, hsoon⟩ | hexact
    · have htells := tells_of_late hnow hn hread hr hlate
      rcases hnear with rfl | ⟨hq, hr⟩ | ⟨hq, hr⟩
      · exact htells
      · exact .inl ⟨by linarith, (htells.resolve_right fun h => by linarith [h.1]).2⟩
      · exact .inr ⟨by linarith, (htells.resolve_left fun h => by linarith [h.1]).2⟩
    · rcases le_or_gt (n - q) 86400 with hx | hx
      · exact .inl ⟨hx, .inr ⟨_, hexact, hx⟩⟩
      · exact .inr ⟨hx, .inr ⟨_, hexact, hx⟩⟩

/-- **The time of the last change stands for the stamp.** -/
theorem exists_changedAt (hlegible : (Value.object fields).Legible) (h : Timed now n fields) :
    ∃ t, changedAt fields = .ok t ∧ StandsFor now t n (stampOf fields) := by
  have hstamp : ∀ name ∈ ["updatedAt", "createdAt"], ∀ v, (Fields.get? fields name).getD .null = v →
      (v.truthy = true ∧ numberOf (Fields.get? fields name) ≠ 0 ∧
        ∃ t, v.toDouble = .ok t ∧ StandsFor now t n (numberOf (Fields.get? fields name))) ∨
      (v.truthy = false ∧ numberOf (Fields.get? fields name) = 0) := by
    rintro name hname v rfl
    cases hget : Fields.get? fields name with
    | none => exact .inr ⟨rfl, rfl⟩
    | some stamp =>
      obtain ⟨q, t, hq, ht, hclock⟩ := h name hname stamp hget
      have hstands := standsFor_of_number hnow hn (hlegible.get? hget) hq ht hclock
      simp only [numberOf, Option.getD_some, Option.bind_some, hq]
      by_cases hzero : q = 0
      · exact .inr ⟨by simpa [hzero] using (truthy_iff hq).not, hzero⟩
      · exact .inl ⟨(truthy_iff hq).mpr hzero, hzero, t, ht, hstands⟩
  unfold changedAt stampOf
  dsimp only
  generalize hu : (Fields.get? fields "updatedAt").getD .null = updated
  generalize hc : (Fields.get? fields "createdAt").getD .null = created
  rcases hstamp "updatedAt" (by simp) _ hu with ⟨hu, hq, t, ht, hstands⟩ | ⟨hu, hq⟩
  · rw [Value.orElse, Value.orElse, if_pos hu, if_pos hu, if_neg hq]
    exact ⟨t, ht, hstands⟩
  · have hskip : updated.orElse created = created := by simp [Value.orElse, hu]
    rw [hskip, if_pos hq, Value.orElse]
    rcases hstamp "createdAt" (by simp) _ hc with ⟨hc, hq, t, ht, hstands⟩ | ⟨hc, hq⟩
    · rw [if_pos hc]
      exact ⟨t, ht, hstands⟩
    · rw [if_neg (by simp [hc]), hq]
      have hzero : (Value.int 0).toDouble = .ok (.finite 0) := by decide +kernel
      exact ⟨.finite 0, hzero, .inl rfl, by simp [Double.isZero, Double.toRat?], fun h => absurd rfl h⟩

end

end Review.Cache

end SourceAudit

namespace SourceAudit.Review.Cache

variable {key : String} {w : Fields}

/-! ### The cleanup as a filter -/

section

variable {now : Double} {v : Value} {items projects : Fields}

/-- An item is an object that was changed and is not too old. -/
def lasts (now : Double) (item : Value) : Bool :=
  item.isObject && match changedAt item.fields with
    | .ok time => !time.isZero && isFresh now time
    | .error _ => false

/-- Something kept was changed, too long ago. -/
def outlived (now : Double) (fields : Fields) : Bool :=
  match changedAt fields with
  | .ok time => !time.isZero && isStale now time
  | .error _ => false

def lasting (now : Double) (project : Value) : Fields :=
  (itemsOf project.fields).filter fun p => lasts now p.2

/-- A project with the items that last, if some do. -/
def renewed? (now : Double) (project : Value) : Option Fields :=
  if outlived now project.fields || (lasting now project).isEmpty then none
  else some (Fields.set "updatedAt" (.real ((latest (lasting now project)).toOption.getD .undefined))
    (Fields.set "items" (.object (lasting now project)) project.fields))

def renewal (now : Double) (projects : Fields) : Fields :=
  projects.filterMap fun p => (renewed? now p.2).map fun fields => (p.1, .object fields)

def Dated (fields : Fields) : Prop := ∃ time, changedAt fields = .ok time ∧ Json.IsRead time

theorem freshItems_eq (now : Double) : ∀ {items : Fields}, (∀ p ∈ items, Dated p.2.fields) →
    freshItems now items = .ok (items.filter fun p => lasts now p.2)
  | [], _ => rfl
  | (key, item) :: rest, h => by
    rw [List.forall_mem_cons] at h
    have hrest := freshItems_eq now h.2
    obtain ⟨time, htime, -⟩ := h.1
    cases item with
    | object fields =>
      have htime : changedAt fields = .ok time := htime
      have hlasts : lasts now (.object fields) = (!time.isZero && isFresh now time) := by
        simp [lasts, Value.isObject, Value.fields, htime]
      simp only [freshItems, htime, hrest, List.filter_cons, hlasts, bind, Except.bind, pure, Except.pure]
    | _ =>
      rw [List.filter_cons_of_neg (by simp [lasts, Value.isObject])]
      exact hrest

theorem latestFrom_mem : ∀ {items : Fields} (best : Double), (∀ p ∈ items, Dated p.2.fields) →
    latestFrom best items = .ok best ∨ ∃ p ∈ items, latestFrom best items = changedAt p.2.fields
  | [], best, _ => .inl rfl
  | item :: rest, best, h => by
    rw [List.forall_mem_cons] at h
    obtain ⟨time, htime, -⟩ := h.1
    have hstep : latestFrom best (item :: rest) = latestFrom (if best.lt time then time else best) rest := by
      rw [latestFrom, htime]
      rfl
    rw [hstep]
    rcases latestFrom_mem (if best.lt time then time else best) h.2 with hbest | ⟨p, hp, hlatest⟩
    · rw [hbest]
      split_ifs
      · exact .inr ⟨item, List.mem_cons_self, htime.symm⟩
      · exact .inl rfl
    · exact .inr ⟨p, List.mem_cons_of_mem _ hp, hlatest⟩

theorem exists_latest (hne : items ≠ []) (h : ∀ p ∈ items, Dated p.2.fields) :
    ∃ p ∈ items, latest items = changedAt p.2.fields := by
  cases items with
  | nil => exact absurd rfl hne
  | cons item rest =>
    rw [List.forall_mem_cons] at h
    obtain ⟨time, htime, -⟩ := h.1
    rw [latest, htime]
    rcases latestFrom_mem time h.2 with hbest | ⟨p, hp, hlatest⟩
    · exact ⟨item, List.mem_cons_self, hbest.trans htime.symm⟩
    · exact ⟨p, List.mem_cons_of_mem _ hp, hlatest⟩

/-- All times in a project can be read. -/
structure AllDated (project : Value) : Prop where
  own : Dated project.fields
  items : ∀ p ∈ itemsOf project.fields, Dated p.2.fields

theorem AllDated.exists_latest (h : AllDated v) (hne : lasting now v ≠ []) :
    ∃ p ∈ lasting now v, ∃ time, changedAt p.2.fields = .ok time ∧ Json.IsRead time ∧ latest (lasting now v) = .ok time := by
  obtain ⟨p, hp, hlatest⟩ := Cache.exists_latest hne fun p hp => h.items p (List.mem_of_mem_filter hp)
  obtain ⟨time, htime, hread⟩ := h.items p (List.mem_of_mem_filter hp)
  exact ⟨p, hp, time, htime, hread, hlatest.trans htime⟩

theorem freshProject_eq (h : AllDated v) : freshProject now v = .ok (renewed? now v) := by
  cases v with
  | object project =>
    obtain ⟨time, htime, -⟩ := h.own
    have htime : changedAt project = .ok time := htime
    have hout : outlived now (Value.object project).fields = (!time.isZero && isStale now time) := by
      simp [outlived, Value.fields, htime]
    have hkept := freshItems_eq now h.items
    have hlatest : lasting now (.object project) ≠ [] → _ := h.exists_latest
    unfold renewed? freshProject
    simp only [htime, hout, bind, Except.bind, pure, Except.pure]
    cases (!time.isZero && isStale now time) with
    | true => simp
    | false =>
      simp only [Bool.false_or, Bool.false_eq_true, if_false]
      unfold lasting itemsOf Value.fields at *
      dsimp only at *
      cases hget : Fields.get? project "items" with
      | none => simp [fieldsOr, freshItems]
      | some v =>
        rw [hget] at hkept hlatest
        simp only [Option.getD_some]
        cases v with
        | object items =>
          simp only [fieldsOr] at hkept hlatest ⊢
          rw [hkept]
          dsimp only
          by_cases hempty : (items.filter fun p => lasts now p.2) = []
          · simp [hempty]
          · obtain ⟨p, -, time, -, -, htime⟩ := hlatest hempty
            simp [hempty, htime, Except.toOption]
        | _ => simp [fieldsOr]
  | _ => rfl

theorem freshProjects_eq : ∀ {projects : Fields}, (∀ p ∈ projects, AllDated p.2) →
    freshProjects now projects = .ok (renewal now projects)
  | [], _ => rfl
  | (key, project) :: rest, h => by
    rw [List.forall_mem_cons] at h
    simp only [freshProjects, freshProject_eq h.1, freshProjects_eq h.2, bind, Except.bind, pure, Except.pure]
    cases hproject : renewed? now project with
    | none => simp [renewal, hproject]
    | some fields => simp [renewal, hproject]

/-! ### Nothing to throw away -/

/-- Nothing of a project is thrown away. -/
structure Whole (now : Double) (project : Value) : Prop where
  fresh : outlived now project.fields = false
  ne_nil : itemsOf project.fields ≠ []
  items : ∀ p ∈ itemsOf project.fields, lasts now p.2 = true

theorem itemsOf_renewed (hw : renewed? now v = some w) :
    outlived now v.fields = false ∧ lasting now v ≠ [] ∧ itemsOf w = lasting now v := by
  unfold renewed? at hw
  split_ifs at hw with hcase
  · obtain rfl := Option.some.inj hw
    simp only [Bool.or_eq_true, List.isEmpty_iff, not_or, Bool.not_eq_true] at hcase
    refine ⟨hcase.1, hcase.2, ?_⟩
    rw [itemsOf, Fields.get?_set_of_ne (by decide), Fields.get?_set_self]
    rfl

theorem whole_iff : Whole now v ↔ ∃ w, renewed? now v = some w ∧ (itemsOf w).length = (itemsOf v.fields).length := by
  constructor
  · rintro ⟨hfresh, hne, hitems⟩
    have hlasting : lasting now v = itemsOf v.fields := List.filter_eq_self.mpr hitems
    have hsome : ∃ w, renewed? now v = some w := by simp [renewed?, hfresh, hlasting, hne]
    obtain ⟨w, hw⟩ := hsome
    exact ⟨w, hw, by rw [(itemsOf_renewed hw).2.2, hlasting]⟩
  · rintro ⟨w, hw, hlength⟩
    obtain ⟨hfresh, hne, hitems⟩ := itemsOf_renewed hw
    rw [hitems] at hlength
    have hall := List.length_filter_eq_length_iff.mp hlength
    refine ⟨hfresh, fun hnil => hne ?_, hall⟩
    rw [lasting, hnil]
    rfl

theorem countItems_cons (p : String × Value) (projects : Fields) :
    countItems (p :: projects) = (itemsOf p.2.fields).length + countItems projects := by
  have hfrom : ∀ (projects : Fields) (k : Nat),
      projects.foldl (fun n p => n + (itemsOf p.2.fields).length) k = k + countItems projects := by
    intro projects
    induction projects with
    | nil => exact fun k => rfl
    | cons p projects ih =>
      intro k
      rw [countItems, List.foldl_cons, List.foldl_cons, ih, ih]
      omega
  rw [countItems, List.foldl_cons, hfrom]
  omega

theorem length_renewed_le (hw : renewed? now v = some w) : (itemsOf w).length ≤ (itemsOf v.fields).length := by
  rw [(itemsOf_renewed hw).2.2]
  exact List.length_filter_le _ _

/-- **No project and no item is lost exactly if nothing is thrown away.** -/
theorem renewal_same_iff (now : Double) : ∀ projects : Fields, countItems (renewal now projects) ≤ countItems projects ∧
    (((renewal now projects).length = projects.length ∧ countItems (renewal now projects) = countItems projects) ↔
      ∀ p ∈ projects, Whole now p.2)
  | [] => by simp [renewal]
  | (key, v) :: rest => by
    obtain ⟨hcount, hrest⟩ := renewal_same_iff now rest
    have hlength : (renewal now rest).length ≤ rest.length := List.length_filterMap_le _ _
    rw [List.forall_mem_cons, ← hrest, countItems_cons, List.length_cons]
    cases hv : renewed? now v with
    | none =>
      have hnot : ¬Whole now v := by
        rw [whole_iff]
        simp [hv]
      have hskip : renewal now ((key, v) :: rest) = renewal now rest := List.filterMap_cons_none (by simp [hv])
      rw [hskip]
      exact ⟨by omega, fun h => absurd h.1 (by omega), fun h => absurd h.1 hnot⟩
    | some w =>
      have hle := length_renewed_le hv
      have hwhole : Whole now v ↔ (itemsOf w).length = (itemsOf v.fields).length := by
        rw [whole_iff]
        simp [hv]
      have hkeep : renewal now ((key, v) :: rest) = (key, .object w) :: renewal now rest :=
        List.filterMap_cons_some (by simp [hv])
      have hfields : (Value.object w).fields = w := rfl
      rw [hkeep, hwhole, countItems_cons, List.length_cons, hfields]
      dsimp only
      omega

variable {s : Settings}

theorem cleanup_eq (now : Double) (hdated : ∀ p ∈ load s, AllDated p.2) :
    ((∀ p ∈ load s, Whole now p.2) ∧ cleanup s now = .ok s) ∨
      (¬(∀ p ∈ load s, Whole now p.2) ∧ cleanup s now = .ok (store s (renewal now (load s)))) := by
  rw [← (renewal_same_iff now (load s)).2]
  simp only [cleanup, freshProjects_eq hdated, bind, Except.bind, pure, Except.pure, Bool.and_eq_true, beq_iff_eq]
  by_cases hsame : (renewal now (load s)).length = (load s).length ∧ countItems (renewal now (load s)) = countItems (load s)
  · rw [if_pos hsame]
    exact .inl ⟨hsame, rfl⟩
  · rw [if_neg hsame]
    exact .inr ⟨hsame, rfl⟩

/-! ### What is stored -/

theorem fieldsOr_some (v : Value) : fieldsOr (some v) = v.fields := by
  cases v <;> rfl

theorem legible_fields (h : v.Legible) : (Value.object v.fields).Legible := by
  rw [← fieldsOr_some]
  exact legible_fieldsOr fun w hw => Option.some.inj hw ▸ h

theorem legible_itemsOf (h : v.Legible) : (Value.object (itemsOf v.fields)).Legible :=
  legible_fieldsOr fun _ => (legible_fields h).get?

theorem isStale_of_isFresh {time : Double} (h : isFresh now time = true) : isStale now time = false := by
  unfold isFresh at h
  unfold isStale
  have hlifetime := toRat?_lifetime
  generalize now.sub time = age at h ⊢
  cases hage : age.toRat? with
  | some r =>
    rw [le_iff hage hlifetime] at h
    rw [← Bool.not_eq_true, lt_iff hlifetime hage]
    exact not_lt.mpr h
  | none =>
    rw [lifetime_eq] at h ⊢
    cases age with
    | infinite negative => simpa [Double.lt, Double.same] using h
    | undefined => rfl
    | _ => exact absurd hage (by simp [Double.toRat?])

/-- What is stored of a project: it can be read back, and was changed when one of its items was. -/
theorem renewed_spec (hw : renewed? now v = some w) (hdated : AllDated v) :
    (v.Legible → (Value.object w).Legible) ∧ AllDated (.object w) ∧ Whole now (.object w) := by
  obtain ⟨hfresh, hne, hitems⟩ := itemsOf_renewed hw
  obtain ⟨p, hp, time, htime, hread, hlatest⟩ := hdated.exists_latest hne
  have hlasts := (List.mem_filter.mp hp).2
  have hset : w = Fields.set "updatedAt" (.real time) (Fields.set "items" (.object (lasting now v)) v.fields) := by
    have hcase : ¬(outlived now v.fields || (lasting now v).isEmpty) = true := by simp [hfresh, hne]
    rw [renewed?, if_neg hcase, hlatest] at hw
    exact (Option.some.inj hw).symm
  have hnew : time.isZero = false ∧ isFresh now time = true := by
    simp only [lasts, htime, Bool.and_eq_true, Bool.not_eq_true'] at hlasts
    exact hlasts.2
  have hchanged : changedAt w = .ok time := by
    have hget : Fields.get? w "updatedAt" = some (.real time) := by rw [hset, Fields.get?_set_self]
    simp [changedAt, hget, Value.orElse, Value.truthy, hnew, Value.toDouble]
  refine ⟨fun hlegible => ?_, ⟨⟨time, hchanged, hread⟩, ?_⟩, ?_, ?_, ?_⟩
  · have hkept : (Value.object (lasting now v)).Legible := by
      have hitems := Value.legible_object.mp (legible_itemsOf hlegible)
      refine Value.legible_object.mpr ⟨hitems.1.sublist ((List.filter_sublist ..).map _), fun p hp => ?_⟩
      exact hitems.2 p (List.mem_of_mem_filter hp)
    rw [hset]
    exact ((legible_fields hlegible).set hkept _).set (legible_now hread) _
  · intro p hp
    exact hdated.items p (List.mem_of_mem_filter (hitems ▸ hp))
  · simp [outlived, Value.fields, hchanged, isStale_of_isFresh hnew.2]
  · exact hitems ▸ hne
  · intro p hp
    have hp : p ∈ lasting now v := hitems ▸ hp
    exact (List.mem_filter.mp hp).2

theorem mem_renewal {w : Value} :
    (key, w) ∈ renewal now projects ↔ ∃ v fields, (key, v) ∈ projects ∧ renewed? now v = some fields ∧ w = .object fields := by
  simp only [renewal, List.mem_filterMap, Option.map_eq_some_iff, Prod.exists, Prod.mk.injEq]
  constructor
  · rintro ⟨_, v, hv, fields, hfields, rfl, rfl⟩
    exact ⟨v, fields, hv, hfields, rfl⟩
  · rintro ⟨v, fields, hv, hfields, rfl⟩
    exact ⟨key, v, hv, fields, hfields, rfl, rfl⟩

/-- The items that are left are those that last, in projects that have not outlived their day. -/
theorem mem_items_renewal {item : String × Value} :
    (∃ w, (key, w) ∈ renewal now projects ∧ item ∈ itemsOf w.fields) ↔
      ∃ v, (key, v) ∈ projects ∧ outlived now v.fields = false ∧ item ∈ itemsOf v.fields ∧ lasts now item.2 = true := by
  simp only [mem_renewal]
  constructor
  · rintro ⟨_, ⟨v, fields, hv, hfields, rfl⟩, hitem⟩
    obtain ⟨hfresh, -, hitems⟩ := itemsOf_renewed hfields
    have hitem : item ∈ lasting now v := hitems ▸ hitem
    exact ⟨v, hv, hfresh, List.mem_filter.mp hitem⟩
  · rintro ⟨v, hv, hfresh, hitem⟩
    have hitem : item ∈ lasting now v := List.mem_filter.mpr hitem
    have hsome : ∃ fields, renewed? now v = some fields := by
      simp [renewed?, hfresh, List.ne_nil_of_mem hitem]
    obtain ⟨fields, hfields⟩ := hsome
    exact ⟨_, ⟨v, fields, hv, hfields, rfl⟩, (itemsOf_renewed hfields).2.2 ▸ hitem⟩

theorem legible_renewal (now : Double) (h : (Value.object projects).Legible) (hdated : ∀ p ∈ projects, AllDated p.2) :
    (Value.object (renewal now projects)).Legible := by
  rw [Value.legible_object, List.Nodup, List.pairwise_map] at h ⊢
  refine ⟨h.1.filterMap _ fun a a' hne b hb b' hb' => ?_, fun ⟨key, w⟩ hw => ?_⟩
  · obtain ⟨_, -, rfl⟩ := Option.map_eq_some_iff.mp hb
    obtain ⟨_, -, rfl⟩ := Option.map_eq_some_iff.mp hb'
    exact hne
  · obtain ⟨v, fields, hv, hfields, rfl⟩ := mem_renewal.mp hw
    exact (renewed_spec hfields (hdated _ hv)).1 (h.2 _ hv)

theorem kept_iff {name : String} {item : Value} : Fields.get? (itemsOf (ofProject s key)) name = some item ↔
    ∃ v, Fields.get? (load s) key = some v ∧ (name, item) ∈ itemsOf v.fields := by
  unfold ofProject
  cases hget : Fields.get? (load s) key with
  | none => simp [fieldsOr, itemsOf, Fields.get?]
  | some v =>
    have hnodup := (Value.legible_object.mp (legible_itemsOf ((legible_load s).get? hget))).1
    simp [fieldsOr_some, Fields.get?_eq_some_iff hnodup]

section

variable {n : Rat} {fields : Fields} (hnow : Json.IsRead now) (hn : now.toRat? = some n)

include hnow hn

theorem outlived_iff (hlegible : (Value.object fields).Legible) (h : Timed now n fields) :
    outlived now fields = false ↔ stampOf fields = 0 ∨ n - stampOf fields ≤ 86400 := by
  obtain ⟨time, htime, hstands⟩ := exists_changedAt hnow hn hlegible h
  by_cases hzero : stampOf fields = 0
  · simp [outlived, htime, hstands.zero.mpr hzero, hzero]
  · have hstale := (isStale_iff (hstands.tells hzero)).1
    have hset : time.isZero = false := by simpa [hzero] using hstands.zero.not
    simp [outlived, htime, hset, hzero, ← not_lt, ← hstale]

theorem lasts_iff (hlegible : v.Legible) (h : Timed now n v.fields) :
    lasts now v = true ↔ v.isObject = true ∧ stampOf v.fields ≠ 0 ∧ n - stampOf v.fields ≤ 86400 := by
  obtain ⟨time, htime, hstands⟩ := exists_changedAt hnow hn (legible_fields hlegible) h
  by_cases hzero : stampOf v.fields = 0
  · simp [lasts, htime, hstands.zero.mpr hzero, hzero]
  · have hfresh := (isStale_iff (hstands.tells hzero)).2
    have hset : time.isZero = false := by simpa [hzero] using hstands.zero.not
    simp [lasts, htime, hset, hzero, hfresh]

def AllTimed (s : Settings) (now : Double) (n : Rat) : Prop :=
  ∀ p ∈ load s, Timed now n p.2.fields ∧ ∀ item ∈ itemsOf p.2.fields, Timed now n item.2.fields

theorem AllTimed.allDated (h : AllTimed s now n) : ∀ p ∈ load s, AllDated p.2 := by
  intro p hp
  have hlegible := (Value.legible_object.mp (legible_load s)).2 p hp
  have hitems := (Value.legible_object.mp (legible_itemsOf hlegible)).2
  obtain ⟨time, htime, hstands⟩ := exists_changedAt hnow hn (legible_fields hlegible) (h p hp).1
  refine ⟨⟨time, htime, hstands.isRead⟩, fun item hitem => ?_⟩
  obtain ⟨time, htime, hstands⟩ := exists_changedAt hnow hn (legible_fields (hitems item hitem)) ((h p hp).2 item hitem)
  exact ⟨time, htime, hstands.isRead⟩

theorem stays_iff (h : AllTimed s now n) {name : String} {item : Value} :
    (∃ v, Fields.get? (load s) key = some v ∧ outlived now v.fields = false ∧ (name, item) ∈ itemsOf v.fields ∧
      lasts now item = true) ↔
    Fields.get? (itemsOf (ofProject s key)) name = some item ∧ item.isObject = true ∧
      (stampOf (ofProject s key) = 0 ∨ n - stampOf (ofProject s key) ≤ 86400) ∧
      stampOf item.fields ≠ 0 ∧ n - stampOf item.fields ≤ 86400 := by
  rw [kept_iff, ofProject]
  cases hget : Fields.get? (load s) key with
  | none => simp
  | some v =>
    have hmem := (Fields.get?_eq_some_iff (Value.legible_object.mp (legible_load s)).1).mp hget
    have hlegible := (legible_load s).get? hget
    simp only [Option.some.injEq, exists_eq_left', fieldsOr_some]
    rw [outlived_iff hnow hn (legible_fields hlegible) (h _ hmem).1]
    by_cases hitem : (name, item) ∈ itemsOf v.fields
    · have hitems := (Value.legible_object.mp (legible_itemsOf hlegible)).2 _ hitem
      rw [lasts_iff hnow hn hitems ((h _ hmem).2 _ hitem)]
      tauto
    · simp [hitem]

/-- **A cleanup keeps exactly the items that are not too old**, in projects that are not. If it throws
something away, no project is left without items. A second one finds nothing to do. -/
theorem cleanup_keeps_iff (h : AllTimed s now n) :
    ∃ s', cleanup s now = .ok s' ∧
      (∀ key name item, Fields.get? (itemsOf (ofProject s' key)) name = some item ↔
        Fields.get? (itemsOf (ofProject s key)) name = some item ∧ item.isObject = true ∧
          (stampOf (ofProject s key) = 0 ∨ n - stampOf (ofProject s key) ≤ 86400) ∧
          stampOf item.fields ≠ 0 ∧ n - stampOf item.fields ≤ 86400) ∧
      (s' ≠ s → ∀ p ∈ load s', itemsOf p.2.fields ≠ []) ∧
      cleanup s' now = .ok s' := by
  have hdated := h.allDated hnow hn
  have hnodup := (Value.legible_object.mp (legible_load s)).1
  rcases cleanup_eq now hdated with ⟨hwhole, heq⟩ | ⟨-, heq⟩
  · refine ⟨s, heq, fun key name item => ?_, fun hne => absurd rfl hne, heq⟩
    rw [← stays_iff hnow hn h, kept_iff]
    refine exists_congr fun v => and_congr_right fun hget => ?_
    have hv := hwhole _ ((Fields.get?_eq_some_iff hnodup).mp hget)
    exact ⟨fun hitem => ⟨hv.fresh, hitem, hv.items _ hitem⟩, fun hitem => hitem.2.1⟩
  · have hlegible := legible_renewal now (legible_load s) hdated
    have hload := load_store s hlegible
    have hspec : ∀ p ∈ load (store s (renewal now (load s))), AllDated p.2 ∧ Whole now p.2 := by
      rintro ⟨key, w⟩ hw
      obtain ⟨v, fields, hv, hfields, rfl⟩ := mem_renewal.mp (hload ▸ hw)
      exact (renewed_spec hfields (hdated _ hv)).2
    refine ⟨_, heq, fun key name item => ?_, fun _ p hp => (hspec p hp).2.ne_nil, ?_⟩
    · rw [← stays_iff hnow hn h, kept_iff, hload]
      simp only [Fields.get?_eq_some_iff (Value.legible_object.mp hlegible).1, Fields.get?_eq_some_iff hnodup]
      exact mem_items_renewal
    · rcases cleanup_eq now fun p hp => (hspec p hp).1 with ⟨-, hsecond⟩ | ⟨hnot, -⟩
      · exact hsecond
      · exact absurd (fun p hp => (hspec p hp).2) hnot

end

def oldAndNew : Fields :=
  [("a", .object [("updatedAt", .int 1699999999)]), ("b", .object [("createdAt", .int 5)])]

def keptForOne : Settings := store [] [("p", .object [("items", .object oldAndNew)])]

theorem load_keptForOne : load keptForOne = [("p", .object [("items", .object oldAndNew)])] := by
  apply load_store
  simp [oldAndNew, Value.legible_object, Value.legible_int]

theorem allTimed_keptForOne : AllTimed keptForOne (.ofInt 1700000000) 1700000000 := by
  have hstamp : ∀ (name : String) (k : Nat), k < 2 ^ 53 →
      Timed (.ofInt 1700000000) 1700000000 [(name, .int k)] := by
    intro name k hk other _ stamp hget
    obtain ⟨-, rfl⟩ : name = other ∧ .int k = stamp := by simpa [Fields.get?] using hget
    refine ⟨k, .finite k, by simp [Value.rational?], ?_, .inl (by norm_num)⟩
    rw [Value.toDouble, ofInt_natCast hk]
  unfold AllTimed
  rw [load_keptForOne, List.forall_mem_singleton]
  refine ⟨fun name hname stamp hget => ?_, ?_⟩
  · have hnone : ∀ name ∈ ["updatedAt", "createdAt"], Fields.get? [("items", .object oldAndNew)] name = none := by
      simp [Fields.get?]
    exact absurd ((hnone name hname).symm.trans hget) (by simp)
  · exact List.forall_mem_cons.mpr ⟨hstamp "updatedAt" 1699999999 (by norm_num),
      List.forall_mem_singleton.mpr (hstamp "createdAt" 5 (by norm_num))⟩

theorem cleanup_keeps_iff_keptForOne :
    AllTimed keptForOne (.ofInt 1700000000) 1700000000 ∧ ∃ s', cleanup keptForOne (.ofInt 1700000000) = .ok s' ∧
      Fields.get? (itemsOf (ofProject s' "p")) "a" = some (.object [("updatedAt", .int 1699999999)]) ∧
      Fields.get? (itemsOf (ofProject s' "p")) "b" = none := by
  have hn : (Double.ofInt 1700000000).toRat? = some 1700000000 :=
    congrArg Double.toRat? (ofInt_natCast (by norm_num : 1700000000 < 2 ^ 53))
  have hproject : ofProject keptForOne "p" = [("items", .object oldAndNew)] := by
    rw [ofProject, load_keptForOne]
    rfl
  obtain ⟨s', heq, hkept, -, -⟩ := cleanup_keeps_iff (Json.isRead_ofRat _) hn allTimed_keptForOne
  have hkept := hkept "p"
  rw [hproject] at hkept
  refine ⟨allTimed_keptForOne, s', heq, (hkept _ _).mpr ?_, ?_⟩
  · have hstamp : stampOf [("updatedAt", .int 1699999999)] = 1699999999 := by
      simp [stampOf, numberOf, Fields.get?, Value.rational?]
    have hage : (1700000000 : Rat) - 1699999999 ≤ 86400 := by norm_num
    refine ⟨rfl, rfl, .inl rfl, ?_, ?_⟩
    · exact hstamp.trans_ne (by norm_num)
    · exact (congrArg (1700000000 - ·) hstamp).trans_le hage
  · rw [Option.eq_none_iff_forall_ne_some]
    intro item hitem
    obtain ⟨hget, -, -, -, hage⟩ := (hkept _ _).mp hitem
    obtain rfl : .object [("createdAt", .int 5)] = item := Option.some.inj hget
    have hstamp : stampOf [("createdAt", .int 5)] = 5 := by
      simp [stampOf, numberOf, Fields.get?, Value.rational?]
    rw [Value.fields, hstamp] at hage
    norm_num at hage

end

end SourceAudit.Review.Cache
