/-
# Kept analyses come back

What is kept for a project comes back to the findings that it was kept for, whatever was
kept before, and all else that was kept stays as it was. The kept analyses are one
document in the settings, written as a text, so that the settings have to be read back
first (`load_store`). That works for everything that can have been read from them
(`legible_load`), and a save adds only texts and the present time.

A finding is known by the digest of five texts with bars between them. A bar inside a
text looks like one between texts, so two findings may get each other's analyses, unless
their texts have equally many bars.
-/
import SourceAudit.Proofs.Value.Decimals
import SourceAudit.Review.Cache

namespace SourceAudit

variable {f time : Value} {key name : String} {items : Fields}

theorem Fields.get?_erase_of_ne {other : String} (hne : other ≠ name) (fields : Fields) :
    Fields.get? (Fields.erase fields name) other = Fields.get? fields other := by
  unfold Fields.get? Fields.erase
  rw [List.find?_filter]
  congr 2
  funext f
  by_cases hf : f.1 = other
  · simp [hf, hne]
  · simp [hf]

theorem Fields.get?_erase_self (name : String) (fields : Fields) :
    Fields.get? (Fields.erase fields name) name = none := by
  unfold Fields.get? Fields.erase
  rw [List.find?_filter]
  simp

theorem Value.Legible.get? {fields : Fields} {v : Value} (h : (Value.object fields).Legible)
    (hv : Fields.get? fields name = some v) : v.Legible := by
  unfold Fields.get? at hv
  obtain ⟨f, hf, rfl⟩ := Option.map_eq_some_iff.mp hv
  exact (legible_object.mp h).2 f (List.mem_of_find?_eq_some hf)

namespace Review

/-- A finding with an analysis. -/
structure Analysed (f : Value) : Prop where
  object : f.isObject = true
  analysis : analysisOf f ≠ ""

def withoutAnalysis : Value → Value
  | .object fields => .object (Fields.erase fields "aiAnalysis")
  | v => v

theorem field_withoutAnalysis (h : name ≠ "aiAnalysis") (f : Value) :
    (withoutAnalysis f).field name = f.field name := by
  cases f with
  | object fields => simp only [withoutAnalysis, Value.field, Value.field?, Fields.get?_erase_of_ne h]
  | _ => rfl

theorem analysisKey_withoutAnalysis (f : Value) : analysisKey (withoutAnalysis f) = analysisKey f := by
  unfold analysisKey keyPayload
  simp only [field_withoutAnalysis (by decide : "absolutePath" ≠ "aiAnalysis"),
    field_withoutAnalysis (by decide : "file" ≠ "aiAnalysis"),
    field_withoutAnalysis (by decide : "line" ≠ "aiAnalysis"),
    field_withoutAnalysis (by decide : "ruleId" ≠ "aiAnalysis"),
    field_withoutAnalysis (by decide : "description" ≠ "aiAnalysis"),
    field_withoutAnalysis (by decide : "dataFlow" ≠ "aiAnalysis")]

theorem analysisOf_withoutAnalysis (h : f.isObject = true) : analysisOf (withoutAnalysis f) = "" := by
  cases f with
  | object fields =>
    rw [analysisOf, withoutAnalysis, Value.field?, Fields.get?_erase_self]
    decide
  | _ => exact absurd h (by simp [Value.isObject])

theorem isObject_withoutAnalysis (f : Value) : (withoutAnalysis f).isObject = f.isObject := by
  cases f <;> rfl

namespace Cache

/-! ### The text in the settings -/

theorem legible_fieldsOr {o : Option Value} (h : ∀ v, o = some v → v.Legible) :
    (Value.object (fieldsOr o)).Legible := by
  unfold fieldsOr
  split
  · exact h _ rfl
  · exact Value.legible_object.mpr ⟨List.nodup_nil, fun f hf => absurd hf List.not_mem_nil⟩

/-- Whatever is stored, what is read from it can be written and read again. -/
theorem legible_load (s : Settings) : (Value.object (load s)).Legible := by
  have hempty : (Value.object []).Legible := legible_fieldsOr (o := none) (by simp)
  unfold load
  split
  · rename_i projects hprojects
    unfold storedDocument? at hprojects
    split at hprojects
    · rename_i text _
      cases hread : Json.read text with
      | error e => simp [hread, orNothing] at hprojects
      | ok v =>
        rw [hread] at hprojects
        obtain rfl := Option.some.inj hprojects
        exact Json.legible_of_read hread
    · cases hprojects
  · exact hempty

/-- **What is stored is loaded.** -/
theorem load_store (s : Settings) {projects : Fields} (h : (Value.object projects).Legible) :
    load (store s projects) = projects := by
  have hvalue : (store s projects).value settingName (.str "\x7b\x7d") = .str (Json.write (.object projects)) := by
    rw [Settings.value, store, Settings.store, Fields.get?_set_self, Option.getD_some]
  have hdocument : storedDocument? (.str (Json.write (.object projects))) = some (.object projects) := by
    rw [storedDocument?, Json.read_write h]
    rfl
  rw [load, hvalue, hdocument]

/-! ### The analyses of findings -/

variable {now : Double}

def keptItem (now : Double) (items : Fields) (f : Value) : Value :=
  .object [("content", .str (analysisOf f)), ("createdAt", createdAt (Fields.get? items (analysisKey f)) now),
    ("updatedAt", .real now)]

theorem keepOne_of_analysed (h : Analysed f) (items : Fields) :
    keepOne now items f = Fields.set (analysisKey f) (keptItem now items f) items := by
  have hkeep : ¬(!f.isObject || analysisOf f == "") = true := by simp [h.object, h.analysis]
  rw [keepOne, if_neg hkeep]
  rfl

theorem keepOne_of_not_analysed (h : ¬Analysed f) (items : Fields) : keepOne now items f = items := by
  have hkeep : (!f.isObject || analysisOf f == "") = true := by
    by_contra hnot
    simp only [Bool.or_eq_true, Bool.not_eq_true', beq_iff_eq, not_or, Bool.not_eq_false] at hnot
    exact h ⟨hnot.1, hnot.2⟩
  rw [keepOne, if_pos hkeep]

theorem get?_keepOne_of_ne (h : Analysed f → analysisKey f ≠ key) (items : Fields) :
    Fields.get? (keepOne now items f) key = Fields.get? items key := by
  by_cases hf : Analysed f
  · rw [keepOne_of_analysed hf, Fields.get?_set_of_ne (Ne.symm (h hf))]
  · rw [keepOne_of_not_analysed hf]

theorem get?_keepAll_of_ne : ∀ {findings : List Value} (items : Fields),
    (∀ f ∈ findings, Analysed f → analysisKey f ≠ key) →
    Fields.get? (findings.foldl (keepOne now) items) key = Fields.get? items key
  | [], items, _ => rfl
  | f :: findings, items, h => by
    rw [List.forall_mem_cons] at h
    rw [List.foldl_cons, get?_keepAll_of_ne _ h.2, get?_keepOne_of_ne h.1]

/-- **The analysis of a finding is kept under its key.** No later finding has the same key. -/
theorem get?_keepAll_of_mem (hf : Analysed f) : ∀ {findings : List Value} (items : Fields),
    (findings.filter Value.isObject).Pairwise (fun f g => analysisKey f ≠ analysisKey g) → f ∈ findings →
    Fields.get? (findings.foldl (keepOne now) items) (analysisKey f) = some (keptItem now items f)
  | [], items, _, hmem => absurd hmem List.not_mem_nil
  | g :: findings, items, hkeys, hmem => by
    rw [List.foldl_cons]
    by_cases hg : g.isObject = true
    · rw [List.filter_cons_of_pos hg, List.pairwise_cons] at hkeys
      have hrest : ∀ h ∈ findings, Analysed h → analysisKey h ≠ analysisKey g := fun h hh hanalysed =>
        (hkeys.1 h (List.mem_filter.mpr ⟨hh, hanalysed.object⟩)).symm
      rcases List.mem_cons.mp hmem with rfl | hmem
      · rw [get?_keepAll_of_ne _ hrest, keepOne_of_analysed hf, Fields.get?_set_self]
      · have hne : analysisKey g ≠ analysisKey f := hkeys.1 f (List.mem_filter.mpr ⟨hmem, hf.object⟩)
        rw [get?_keepAll_of_mem hf _ hkeys.2 hmem, keptItem, get?_keepOne_of_ne fun _ => hne]
        rfl
    · rw [List.filter_cons_of_neg hg] at hkeys
      have hmem : f ∈ findings := by
        rcases List.mem_cons.mp hmem with rfl | hmem
        · exact absurd hf.object hg
        · exact hmem
      rw [keepOne_of_not_analysed fun h => hg h.object]
      exact get?_keepAll_of_mem hf _ hkeys hmem

/-- The time at which something kept was made, if it says so. -/
def madeAt? (kept : Option Value) : Option Value :=
  Fields.get? (fieldsOr kept) "createdAt"

theorem createdAt_of_madeAt? {kept : Option Value} (h : madeAt? kept = some time) : createdAt kept now = time := by
  unfold madeAt? fieldsOr at h
  unfold createdAt
  split at h
  · rw [h, Option.getD_some]
  · exact absurd h (by simp [Fields.get?])

theorem madeAt?_keepOne (h : madeAt? (Fields.get? items key) = some time) :
    madeAt? (Fields.get? (keepOne now items f) key) = some time := by
  by_cases hf : Analysed f → analysisKey f ≠ key
  · rw [get?_keepOne_of_ne hf, h]
  · obtain ⟨hanalysed, rfl⟩ := Classical.not_imp.mp hf |>.imp id not_not.mp
    rw [keepOne_of_analysed hanalysed, Fields.get?_set_self, keptItem, createdAt_of_madeAt? h]
    rfl

theorem madeAt?_keepAll : ∀ {findings : List Value} {items : Fields}, madeAt? (Fields.get? items key) = some time →
    madeAt? (Fields.get? (findings.foldl (keepOne now) items) key) = some time
  | [], _, h => h
  | _ :: findings, _, h => by
    rw [List.foldl_cons]
    exact madeAt?_keepAll (madeAt?_keepOne h)

/-! ### What a save writes is legible -/

section

variable (hnow : Json.IsRead now)

include hnow

theorem legible_now : (Value.real now).Legible := ⟨trivial, Json.readsBack_of_isRead hnow⟩

theorem legible_createdAt {kept : Option Value} (h : ∀ v, kept = some v → v.Legible) :
    (createdAt kept now).Legible := by
  unfold createdAt
  split
  · rename_i fields
    cases hcreated : Fields.get? fields "createdAt" with
    | none => exact legible_now hnow
    | some time => exact (h _ rfl).get? hcreated
  · exact legible_now hnow

theorem legible_keepOne (h : (Value.object items).Legible) (f : Value) :
    (Value.object (keepOne now items f)).Legible := by
  by_cases hf : Analysed f
  · rw [keepOne_of_analysed hf]
    refine h.set ?_ _
    have hmade : (createdAt (Fields.get? items (analysisKey f)) now).Legible :=
      legible_createdAt hnow fun v hv => h.get? hv
    simp [keptItem, Value.legible_object, Value.legible_str, hmade, legible_now hnow]
  · rwa [keepOne_of_not_analysed hf]

theorem legible_keepAll : ∀ {findings : List Value} {items : Fields}, (Value.object items).Legible →
    (Value.object (findings.foldl (keepOne now) items)).Legible
  | [], _, h => h
  | f :: findings, _, h => by
    rw [List.foldl_cons]
    exact legible_keepAll (legible_keepOne hnow h f)

end

/-! ### A save and a restore -/

section

variable (s : Settings) (cwd : List String) (project : String) (findings : List Value)

/-- What is kept for a project after a save. -/
def savedProject (now : Double) : Fields :=
  [("projectPath", .str (projectPath cwd project)),
    ("createdAt", createdAt (some (.object (ofProject s (projectKey cwd project)))) now), ("updatedAt", .real now),
    ("items", .object (findings.foldl (keepOne now) (itemsOf (ofProject s (projectKey cwd project)))))]

theorem legible_ofProject (key : String) : (Value.object (ofProject s key)).Legible :=
  legible_fieldsOr fun _ => (legible_load s).get?

variable (hnow : Json.IsRead now)

include hnow

theorem legible_savedProject : (Value.object (savedProject s cwd project findings now)).Legible := by
  have hproject := legible_ofProject s (projectKey cwd project)
  have hmade : (createdAt (some (.object (ofProject s (projectKey cwd project)))) now).Legible :=
    legible_createdAt hnow fun v hv => Option.some.inj hv ▸ hproject
  have hitems : (Value.object (itemsOf (ofProject s (projectKey cwd project)))).Legible :=
    legible_fieldsOr fun _ => hproject.get?
  have hkept : (Value.object (findings.foldl (keepOne now) (itemsOf (ofProject s (projectKey cwd project))))).Legible :=
    legible_keepAll hnow hitems
  rw [savedProject, Value.legible_object]
  refine ⟨by simp, ?_⟩
  simp only [List.forall_mem_cons]
  exact ⟨Value.legible_str _, hmade, legible_now hnow, hkept, fun f hf => absurd hf List.not_mem_nil⟩

/-- **What is kept after a save.** -/
theorem load_save : load (save s cwd project now findings) =
    Fields.set (projectKey cwd project) (.object (savedProject s cwd project findings now)) (load s) := by
  have hlegible := (legible_load s).set (legible_savedProject s cwd project findings hnow) (projectKey cwd project)
  exact load_store s hlegible

theorem ofProject_save : ofProject (save s cwd project now findings) (projectKey cwd project) =
    savedProject s cwd project findings now := by
  rw [ofProject, load_save s cwd project findings hnow, Fields.get?_set_self]
  rfl

theorem itemsOf_save : itemsOf (ofProject (save s cwd project now findings) (projectKey cwd project)) =
    findings.foldl (keepOne now) (itemsOf (ofProject s (projectKey cwd project))) := by
  rw [ofProject_save s cwd project findings hnow]
  rfl

end

theorem restoreOne?_of_kept {before : Fields} {g : Value} (hobject : f.isObject = true) (hbare : analysisOf f = "")
    (hg : Analysed g) (h : Fields.get? items (analysisKey f) = some (keptItem now before g)) :
    restoreOne? items f = some (.object (Fields.set "aiAnalysis" (.str (analysisOf g)) f.fields)) := by
  have hasks : ¬(!f.isObject || analysisOf f != "") = true := by simp [hobject, hbare]
  have hcontent : contentOf (keptItem now before g) = .str (analysisOf g) := rfl
  have htruthy : (Value.str (analysisOf g)).truthy = true := by simp [Value.truthy, hg.analysis]
  rw [restoreOne?, if_neg hasks, h, Option.getD_some, hcontent]
  dsimp only
  rw [if_pos htruthy]

/-- **Kept analyses come back, and nothing else changes.** After a save each finding that had an
analysis gets it back without the blanks around it. All else that is kept is as before, and so are the
times at which things were made. -/
theorem restore_save (s : Settings) (cwd : List String) (project : String) (hnow : Json.IsRead now)
    {findings : List Value}
    (hkeys : (findings.filter Value.isObject).Pairwise fun f g => analysisKey f ≠ analysisKey g) :
    (∀ (i : Nat) (f : Value), findings[i]? = some f → Analysed f →
      (restore (save s cwd project now findings) (projectKey cwd project) (findings.map withoutAnalysis)).1[i]? =
        some (.object (Fields.set "aiAnalysis" (.str (analysisOf f)) (withoutAnalysis f).fields))) ∧
    (∀ other, other ≠ projectKey cwd project →
      Fields.get? (load (save s cwd project now findings)) other = Fields.get? (load s) other) ∧
    (∀ key, (∀ f ∈ findings, Analysed f → analysisKey f ≠ key) →
      Fields.get? (itemsOf (ofProject (save s cwd project now findings) (projectKey cwd project))) key =
        Fields.get? (itemsOf (ofProject s (projectKey cwd project))) key) ∧
    (∀ key time, madeAt? (Fields.get? (itemsOf (ofProject s (projectKey cwd project))) key) = some time →
      madeAt? (Fields.get? (itemsOf (ofProject (save s cwd project now findings) (projectKey cwd project))) key) =
        some time) ∧
    ∀ time, madeAt? (Fields.get? (load s) (projectKey cwd project)) = some time →
      madeAt? (Fields.get? (load (save s cwd project now findings)) (projectKey cwd project)) = some time := by
  refine ⟨?_, ?_, ?_, ?_, ?_⟩
  · intro i f hi hf
    have hkept : Fields.get? (itemsOf (ofProject (save s cwd project now findings) (projectKey cwd project)))
        (analysisKey f) = some (keptItem now (itemsOf (ofProject s (projectKey cwd project))) f) := by
      rw [itemsOf_save s cwd project findings hnow]
      exact get?_keepAll_of_mem hf _ hkeys (List.mem_of_getElem? hi)
    rw [← analysisKey_withoutAnalysis] at hkept
    have hback := restoreOne?_of_kept ((isObject_withoutAnalysis f).trans hf.object)
      (analysisOf_withoutAnalysis hf.object) hf hkept
    simp only [restore, List.getElem?_map, hi, Option.map_some, hback, Option.getD_some]
  · intro other hother
    rw [load_save s cwd project findings hnow, Fields.get?_set_of_ne hother]
  · intro key hkey
    rw [itemsOf_save s cwd project findings hnow, get?_keepAll_of_ne _ hkey]
  · intro key time htime
    rw [itemsOf_save s cwd project findings hnow]
    exact madeAt?_keepAll htime
  · intro time htime
    have hcreated : createdAt (some (.object (ofProject s (projectKey cwd project)))) now = time :=
      createdAt_of_madeAt? htime
    rw [load_save s cwd project findings hnow, Fields.get?_set_self, savedProject, hcreated]
    rfl

/-- A finding with an analysis between blanks, and one in the next line without any. -/
def twoLines : List Value :=
  [.object [("file", .str "a.php"), ("line", .int 3), ("aiAnalysis", .str " no risk\n")],
    .object [("file", .str "a.php"), ("line", .int 4)]]

/-- Something is kept for two projects, one of which is the open one. -/
def keptForTwo : Settings :=
  store [] [("other", .object [("items", .object [])]), (projectKey ["w"] "p", .object [("createdAt", .int 5)])]

theorem load_keptForTwo : load keptForTwo =
    [("other", .object [("items", .object [])]), (projectKey ["w"] "p", .object [("createdAt", .int 5)])] := by
  have hne : "other" ≠ projectKey ["w"] "p" := by decide +kernel
  refine load_store [] (Value.legible_object.mpr ⟨by simp [hne], ?_⟩)
  simp [Value.legible_object, Value.legible_int]

theorem restore_save_twoLines :
    Json.IsRead (.finite 0) ∧
    ((twoLines.filter Value.isObject).Pairwise fun f g => analysisKey f ≠ analysisKey g) ∧
    (restore (save keptForTwo ["w"] "p" (.finite 0) twoLines) (projectKey ["w"] "p")
        (twoLines.map withoutAnalysis)).1[0]? =
      some (.object [("file", .str "a.php"), ("line", .int 3), ("aiAnalysis", .str "no risk")]) ∧
    Fields.get? (load (save keptForTwo ["w"] "p" (.finite 0) twoLines)) "other" =
      some (.object [("items", .object [])]) ∧
    madeAt? (Fields.get? (load (save keptForTwo ["w"] "p" (.finite 0) twoLines)) (projectKey ["w"] "p")) =
      some (.int 5) := by
  have hnow : Json.IsRead (.finite 0) := .inl rfl
  have hkeys : (twoLines.filter Value.isObject).Pairwise fun f g => analysisKey f ≠ analysisKey g := by
    have hall : twoLines.filter Value.isObject = twoLines := rfl
    rw [hall, twoLines, List.pairwise_pair]
    decide +kernel
  have hne : "other" ≠ projectKey ["w"] "p" := by decide +kernel
  have hkept : madeAt? (Fields.get? (load keptForTwo) (projectKey ["w"] "p")) = some (.int 5) := by
    rw [load_keptForTwo]
    simp [Fields.get?, hne, madeAt?, fieldsOr]
  obtain ⟨hback, hothers, -, -, hmade⟩ := restore_save keptForTwo ["w"] "p" hnow hkeys
  refine ⟨hnow, hkeys, hback 0 _ rfl ⟨rfl, by decide +kernel⟩, ?_, hmade _ hkept⟩
  rw [hothers "other" hne, load_keptForTwo]
  rfl

end Cache

end Review

namespace Text

/-! ### Findings with one key -/

variable {c : Char}

/-- A text with a mark behind it can be read off what is joined, if it is known how often the mark
stands in it. -/
theorem append_cons_inj {xs ys rest more : List Char} (hcount : xs.count c = ys.count c)
    (h : xs ++ c :: rest = ys ++ c :: more) : xs = ys ∧ rest = more := by
  rcases List.append_eq_append_iff.mp h with ⟨zs, rfl, hzs⟩ | ⟨zs, rfl, hzs⟩
  all_goals
    cases zs with
    | nil => simp_all
    | cons z zs =>
      -- the longer text would have the mark once more
      obtain ⟨rfl, -⟩ := List.cons.inj hzs
      simp at hcount

/-- Joined texts can be read back, if it is known how often the mark stands in each. -/
theorem join_inj : ∀ {as bs : List String}, as.map (·.toList.count c) = bs.map (·.toList.count c) →
    join (String.singleton c) as = join (String.singleton c) bs → as = bs
  | [], [], _, _ => rfl
  | [], b :: bs, hcount, _ => by simp at hcount
  | a :: as, [], hcount, _ => by simp at hcount
  | [a], [b], _, h => by rw [← join_singleton _ a, h, join_singleton]
  | [a], b :: b' :: bs, hcount, _ => by simp at hcount
  | a :: a' :: as, [b], hcount, _ => by simp at hcount
  | a :: a' :: as, b :: b' :: bs, hcount, h => by
    obtain ⟨hfirst, hcount⟩ := List.cons.inj hcount
    rw [join_cons_cons, join_cons_cons, ← String.toList_inj] at h
    simp only [String.toList_append, String.toList_singleton, List.singleton_append] at h
    obtain ⟨hhead, htail⟩ := append_cons_inj hfirst h
    rw [String.toList_inj.mp hhead, join_inj hcount (String.toList_inj.mp htail)]

end Text

namespace Review

/-- The texts that the key of a finding is made of: its path, line, rule, description and flow. -/
def keyTexts (finding : Value) : List String :=
  [firstText [finding.field "absolutePath", finding.field "file"], firstText [finding.field "line"],
    firstText [finding.field "ruleId"], firstText [finding.field "description"], firstText [finding.field "dataFlow"]]

def barCounts (finding : Value) : List Nat := (keyTexts finding).map (·.toList.count '|')

theorem keyPayload_eq (f : Value) : keyPayload f = Text.join "|" (keyTexts f) := rfl

namespace Cache

/-- **After the analysis of one finding was kept, another one gets it if they have one key.** -/
theorem restore_save_one (s : Settings) (cwd : List String) (project : String) {now : Double} (hnow : Json.IsRead now)
    {g : Value} (hg : Analysed g) (hobject : f.isObject = true) (hbare : analysisOf f = "")
    (hnone : Fields.get? (itemsOf (ofProject s (projectKey cwd project))) (analysisKey f) = none) :
    restore (save s cwd project now [g]) (projectKey cwd project) [f] =
      if analysisKey f = analysisKey g then
        ([.object (Fields.set "aiAnalysis" (.str (analysisOf g)) f.fields)], true)
      else ([f], false) := by
  generalize hitems : itemsOf (ofProject s (projectKey cwd project)) = items at hnone
  have hrestore : restore (save s cwd project now [g]) (projectKey cwd project) [f] =
      ([(restoreOne? (keepOne now items g) f).getD f], (restoreOne? (keepOne now items g) f).isSome) := by
    simp [restore, itemsOf_save s cwd project [g] hnow, hitems]
  rw [hrestore]
  by_cases hkey : analysisKey f = analysisKey g
  · have hkept : Fields.get? (keepOne now items g) (analysisKey f) = some (keptItem now items g) := by
      rw [keepOne_of_analysed hg, hkey, Fields.get?_set_self]
    rw [restoreOne?_of_kept hobject hbare hg hkept, if_pos hkey]
    rfl
  · have hasks : ¬(!f.isObject || analysisOf f != "") = true := by simp [hobject, hbare]
    have hnothing : restoreOne? (keepOne now items g) f = none := by
      rw [restoreOne?, if_neg hasks, get?_keepOne_of_ne fun _ => Ne.symm hkey, hnone]
      rfl
    rw [hnothing, if_neg hkey]
    rfl

end Cache

open Cache

/-- **What a key tells.** If the digests of two findings do not collide, the findings agree in all
texts of the key if and only if they have one key and equally many bars, text by text. A finding gets
the kept analysis of another if and only if their texts are joined to the same text. -/
theorem analysisKey_eq_iff (f g : Value) (hdigest : analysisKey f = analysisKey g → keyPayload f = keyPayload g) :
    (keyTexts f = keyTexts g ↔ analysisKey f = analysisKey g ∧ barCounts f = barCounts g) ∧
    ∀ (s : Settings) (cwd : List String) (project : String) (now : Double), Json.IsRead now → Analysed g →
      f.isObject = true → analysisOf f = "" →
      Fields.get? (itemsOf (ofProject s (projectKey cwd project))) (analysisKey f) = none →
      restore (save s cwd project now [g]) (projectKey cwd project) [f] =
        if keyPayload f = keyPayload g then ([.object (Fields.set "aiAnalysis" (.str (analysisOf g)) f.fields)], true)
        else ([f], false) := by
  have hkey : analysisKey f = analysisKey g ↔ keyPayload f = keyPayload g := ⟨hdigest, congrArg Sha256.hexDigest⟩
  refine ⟨⟨fun h => ?_, fun ⟨h, hbars⟩ => ?_⟩, fun s cwd project now hnow hg hobject hbare hnone => ?_⟩
  · rw [hkey, keyPayload_eq, keyPayload_eq, barCounts, barCounts, h]
    exact ⟨rfl, rfl⟩
  · exact Text.join_inj hbars (hkey.mp h)
  · rw [restore_save_one s cwd project hnow hg hobject hbare hnone]
    simp only [hkey]

/-- A finding with two bars, which stand in its description or its flow. -/
def barred (description flow : String) : Value :=
  .object [("file", .str "a.php"), ("line", .int 3), ("ruleId", .str "R"), ("description", .str description),
    ("dataFlow", .str flow)]

def barredAnalysed : Value := .object (Fields.set "aiAnalysis" (.str "no risk") (barred "a" "b|c").fields)

/-- **A finding gets the analysis of another.** They differ in description and flow, and have one key. -/
theorem analysis_of_another :
    keyTexts (barred "a|b" "c") ≠ keyTexts barredAnalysed ∧
      analysisKey (barred "a|b" "c") = analysisKey barredAnalysed ∧
      restore (save [] ["w"] "p" (.finite 0) [barredAnalysed]) (projectKey ["w"] "p") [barred "a|b" "c"] =
        ([.object (Fields.set "aiAnalysis" (.str "no risk") (barred "a|b" "c").fields)], true) := by
  have hkey : analysisKey (barred "a|b" "c") = analysisKey barredAnalysed :=
    congrArg Sha256.hexDigest (by decide +kernel)
  refine ⟨by decide +kernel, hkey, ?_⟩
  have hnow : Json.IsRead (.finite 0) := .inl rfl
  have hg : Analysed barredAnalysed := ⟨rfl, by decide +kernel⟩
  rw [restore_save_one [] ["w"] "p" hnow hg rfl (by decide +kernel) rfl, if_pos hkey]
  have htext : analysisOf barredAnalysed = "no risk" := by decide +kernel
  rw [htext]

theorem analysisKey_eq_iff_barred :
    (analysisKey (barred "a|b" "c") = analysisKey (barred "a|c" "b") →
      keyPayload (barred "a|b" "c") = keyPayload (barred "a|c" "b")) ∧
    barCounts (barred "a|b" "c") = barCounts (barred "a|c" "b") ∧
    analysisKey (barred "a|b" "c") ≠ analysisKey (barred "a|c" "b") := by
  have hdigest : analysisKey (barred "a|b" "c") = analysisKey (barred "a|c" "b") →
      keyPayload (barred "a|b" "c") = keyPayload (barred "a|c" "b") := by decide +kernel
  have hbars : barCounts (barred "a|b" "c") = barCounts (barred "a|c" "b") := by decide +kernel
  refine ⟨hdigest, hbars, fun h => ?_⟩
  have htexts := (analysisKey_eq_iff _ _ hdigest).1.mpr ⟨h, hbars⟩
  exact absurd htexts (by decide +kernel)

end Review

end SourceAudit
