/-
# Configurations that are loaded and saved

An entry of an older kind is brought up to date when it is loaded, and a protected key
cannot be opened. One load does all of this: a configuration that was loaded is settled
(`settled_ofEntry`), and a settled one is what its own entry is loaded as
(`ofEntry_toEntry`).
-/
import SourceAudit.Proofs.Text.Case
import SourceAudit.Proofs.Value.Json
import SourceAudit.Review.Config

namespace SourceAudit.Review

theorem legacyModel_settled (name url : String) :
    legacyModel name url ≠ "" ∧ Text.strip (legacyModel name url) = legacyModel name url := by
  rw [legacyModel]
  split_ifs with hchat hreasoner hempty
  · decide +kernel
  · decide +kernel
  · rw [defaultModel]
    split_ifs <;> decide +kernel
  · exact ⟨by simpa using hempty, Text.strip_strip name⟩

theorem strip_providerName (url : String) : Text.strip (providerName url) = providerName url := by
  rw [providerName]
  split_ifs <;> decide +kernel

theorem openKey_openKey (s : String) : openKey (openKey s) = openKey s := by
  by_cases h : Text.startsWith s protectedMark = true
  · have hnone : openKey s = "" := if_pos h
    rw [hnone]
    decide +kernel
  · have hsame : openKey s = s := if_neg h
    rw [hsame, hsame]

namespace ApiConfig

def entryText (v : Value) (name : String) : String :=
  ((v.field? name).getD (.str "")).display

def IsOld (v : Value) : Prop :=
  Text.strip (entryText v "modelName") = "" ∧ looksLikeModel (Text.strip (entryText v "apiName")) = true

/-- The configuration has nothing that a load would change. -/
structure Settled (c : ApiConfig) : Prop where
  name : Text.strip c.name = c.name
  url : Text.strip c.url = c.url
  model : Text.strip c.model = c.model
  current : ¬(c.model = "" ∧ looksLikeModel c.name = true)
  key : openKey c.key = c.key

theorem ofEntry_of_isOld {v : Value} (h : IsOld v) : ofEntry v =
    { name := providerName (Text.strip (entryText v "apiUrl"))
      url := Text.strip (entryText v "apiUrl")
      model := legacyModel (Text.strip (entryText v "apiName")) (Text.strip (entryText v "apiUrl"))
      keyName := entryText v "keyName"
      key := openKey (entryText v "apiKey") } := by
  simp only [IsOld, entryText] at h
  simp [ofEntry, entryText, h]

theorem ofEntry_of_not_isOld {v : Value} (h : ¬IsOld v) : ofEntry v =
    { name := Text.strip (entryText v "apiName")
      url := Text.strip (entryText v "apiUrl")
      model := Text.strip (entryText v "modelName")
      keyName := entryText v "keyName"
      key := openKey (entryText v "apiKey") } := by
  simp only [IsOld, entryText] at h
  simp [ofEntry, entryText, h]

theorem settled_ofEntry (v : Value) : (ofEntry v).Settled := by
  by_cases h : IsOld v
  · rw [ofEntry_of_isOld h]
    obtain ⟨hnamed, hmodel⟩ :=
      legacyModel_settled (Text.strip (entryText v "apiName")) (Text.strip (entryText v "apiUrl"))
    constructor <;> dsimp only
    case name => exact strip_providerName (Text.strip (entryText v "apiUrl"))
    case url => exact Text.strip_strip (entryText v "apiUrl")
    case model => exact hmodel
    case current => exact fun hold => hnamed hold.1
    case key => exact openKey_openKey (entryText v "apiKey")
  · rw [ofEntry_of_not_isOld h]
    constructor <;> dsimp only
    case name => exact Text.strip_strip (entryText v "apiName")
    case url => exact Text.strip_strip (entryText v "apiUrl")
    case model => exact Text.strip_strip (entryText v "modelName")
    case current => exact h
    case key => exact openKey_openKey (entryText v "apiKey")

/-! ### The entry of a configuration -/

section Entry

variable (c : ApiConfig)

@[simp] theorem entryText_name (key : String) : entryText (c.toEntry key) "apiName" = c.name := rfl

@[simp] theorem entryText_url (key : String) : entryText (c.toEntry key) "apiUrl" = c.url := rfl

@[simp] theorem entryText_model (key : String) : entryText (c.toEntry key) "modelName" = c.model := rfl

@[simp] theorem entryText_keyName (key : String) : entryText (c.toEntry key) "keyName" = c.keyName := rfl

@[simp] theorem entryText_key (key : String) : entryText (c.toEntry key) "apiKey" = key := rfl

theorem legible_toEntry (key : String) : (c.toEntry key).Legible := by
  rw [toEntry, Value.legible_object]
  refine ⟨by simp, fun f hf => ?_⟩
  simp only [List.mem_cons, List.not_mem_nil, or_false] at hf
  rcases hf with rfl | rfl | rfl | rfl | rfl <;> exact Value.legible_str _

end Entry

theorem Settled.not_isOld {c : ApiConfig} (h : c.Settled) (key : String) : ¬IsOld (c.toEntry key) := by
  rw [IsOld, entryText_model, entryText_name, h.model, h.name]
  exact h.current

theorem ofEntry_toEntry {c : ApiConfig} (h : c.Settled) : ofEntry (c.toEntry (storeKey c.key)) = c := by
  rw [ofEntry_of_not_isOld (h.not_isOld _)]
  simp only [entryText_name, entryText_url, entryText_model, entryText_keyName, entryText_key, storeKey, h.name,
    h.url, h.model, h.key]

/-! ### Loading and saving -/

theorem settled_of_mem_loadAll {s : Settings} {c : ApiConfig} (hc : c ∈ loadAll s) : c.Settled := by
  rw [loadAll] at hc
  split at hc
  · obtain ⟨v, -, rfl⟩ := List.mem_map.mp hc
    exact settled_ofEntry v
  · cases hc

/-- **Settled configurations that are saved are loaded.** -/
theorem loadAll_saveAll (t : Settings) {configs : List ApiConfig} (h : ∀ c ∈ configs, c.Settled) :
    loadAll (saveAll t configs) = configs := by
  have hvalue : (saveAll t configs).value settingName (.str "[]") = .str (savedText configs) := by
    rw [Settings.value, saveAll, Settings.store, Fields.get?_set_self, Option.getD_some]
  have hlegible : (Value.list (configs.map fun c => c.toEntry (storeKey c.key))).Legible := by
    rw [Value.legible_list]
    intro v hv
    obtain ⟨c, -, rfl⟩ := List.mem_map.mp hv
    exact legible_toEntry c _
  have hdocument : storedDocument? (.str (savedText configs)) =
      some (.list (configs.map fun c => c.toEntry (storeKey c.key))) := by
    rw [storedDocument?, savedText, Json.read_write hlegible]
    rfl
  have hobjects : ∀ v ∈ configs.map (fun c => c.toEntry (storeKey c.key)), v.isObject = true := by
    intro v hv
    obtain ⟨c, -, rfl⟩ := List.mem_map.mp hv
    rfl
  rw [loadAll, hvalue, hdocument]
  show ((configs.map _).filter _).map ofEntry = configs
  rw [List.filter_eq_self.mpr hobjects, List.map_map]
  calc configs.map (ofEntry ∘ fun c => c.toEntry (storeKey c.key))
      = configs.map id := List.map_congr_left fun c hc => ofEntry_toEntry (h c hc)
    _ = configs := List.map_id configs

/-- **One load brings all up to date.** The configurations that are loaded are the same after they are
saved, over any settings, and loaded again. No entry that is saved is of the older kind, and each
holds its key, open. -/
theorem loadAll_saveAll_loadAll (s t : Settings) :
    loadAll (saveAll t (loadAll s)) = loadAll s ∧
      ∀ c ∈ loadAll s, ¬IsOld (c.toEntry (storeKey c.key)) ∧
        entryText (c.toEntry (storeKey c.key)) "apiKey" = c.key ∧ openKey c.key = c.key := by
  refine ⟨loadAll_saveAll t fun c hc => settled_of_mem_loadAll hc, fun c hc => ?_⟩
  have hsettled := settled_of_mem_loadAll hc
  exact ⟨hsettled.not_isOld _, rfl, hsettled.key⟩

end ApiConfig

end SourceAudit.Review
