/-
# Reports with all values at once

A report is rendered in two rounds of values: each block gets the values of the
findings, and then the whole page gets those of the report. Put in at once, each symbol
of the template gets its value and no value is looked at again (`renderAtOnce`). The two
are the same report if nothing that is put in looks like a symbol whose turn comes later
(`Settled`). Both rounds are one list of values to a block, first those of the finding
and then those of the report (`becomes_segment`).
-/
import SourceAudit.Proofs.Report.Filling

namespace SourceAudit.Report

variable {r : Report} {f : Format}

/-! ### Templates with all values -/

theorem bare_findingBlock (m : Medium) : Bare findingSymbols (findingBlock m).toList := by
  have text {t cs : List Char} (ht : '\x7b' ∉ t) (h : Bare findingSymbols cs) :
      Bare findingSymbols ((String.ofList t).toList ++ cs) := Bare.text_append (Text.notMem_ofList ht) h
  have hole {n : String} {cs : List Char} (hn : n ∈ findingNames) (h : Bare findingSymbols cs) :
      Bare findingSymbols ((symbol n).toList ++ cs) := Bare.symbol_append isName_of_mem_findingNames hn h
  rw [← List.append_nil (findingBlock m).toList]
  -- a symbol stays folded, so that it is not compared with the texts letter by letter
  cases m with
  | html =>
    unfold findingBlock
    simp only [String.append_assoc, String.toList_append, List.append_assoc]
    repeat first | (with_reducible refine hole ?_ ?_; · decide) | refine text (by decide) ?_
    exact bare_nil _
  | plain =>
    unfold findingBlock plainFinding
    simp only [String.append_assoc, String.toList_append, List.append_assoc]
    repeat first | (with_reducible refine hole ?_ ?_; · decide) | refine text (by decide) ?_
    exact bare_nil _

/-- The template of a format, with its style sheets. -/
def page (r : Report) (f : Format) : Except Fault String := do
  let template ← templateText r.disk r.templateDir f
  match f.medium with
  | .html => inlineStyles r.disk r.templateDir template
  | .plain => return template

theorem render_eq (r : Report) (f : Format) : r.render f = r.page f >>= r.fill f := by
  unfold render page
  rw [bind_assoc]
  congr 1
  funext template
  cases f.medium <;> rfl

/-- The values of a report, with the values of the findings in their blocks at once. -/
def valuesAtOnce (r : Report) (m : Medium) (printed : Bool) : Except Fault (List (String × String)) := do
  let own ← r.own m
  let values ← r.values m printed
  let findings := listed m (own.map fun values => fillAtOnce values (findingBlock m))
  return values.map fun v => if v.1 = symbol "findings" then (v.1, findings) else v

/-- A piece of a template with all values at once: a block is written once for each finding. -/
def Segment.fill (m : Medium) (own : List (List (String × String))) (shared : List (String × String)) :
    Segment → String
  | .text cs => fillAtOnce shared (String.ofList cs)
  | .block cs => listed m (own.map fun values => fillAtOnce (values ++ shared) (String.ofList cs))

def renderAtOnce (r : Report) (f : Format) : Except Fault String := do
  let template ← r.page f
  let own ← r.own f.medium
  let shared ← r.valuesAtOnce f.medium (f == .pdf)
  return String.join ((segments template).map (Segment.fill f.medium own shared))

/-! ### Pieces of a template -/

/-- The texts of the piece do not end in the beginning of a symbol. -/
def Segment.Tidy : Segment → Prop
  | .text cs => Report.Tidy reportSymbols cs
  | .block cs => Report.Tidy (findingSymbols ++ reportSymbols) cs

instance : DecidablePred Segment.Tidy
  | .text cs => inferInstanceAs (Decidable (Report.Tidy reportSymbols cs))
  | .block cs => inferInstanceAs (Decidable (Report.Tidy (findingSymbols ++ reportSymbols) cs))

/-- A piece of a template with the values of the findings, before the values of the report. -/
def Segment.expand (m : Medium) (own : List (List (String × String))) : Segment → String
  | .text cs => String.ofList cs
  | .block cs => listed m (own.map fun values => substitute values (String.ofList cs))

section

variable {m : Medium} {own : List (List (String × String))} {shared : List (String × String)}

theorem apart_reportSymbols : Apart reportSymbols :=
  apart_symbol fun n hn => isName_of_mem n (List.mem_append_right _ hn)

theorem apart_symbols : Apart (findingSymbols ++ reportSymbols) := by
  rw [findingSymbols, reportSymbols, ← List.map_append]
  exact apart_symbol isName_of_mem

theorem Becomes.of_notMem (hshared : shared.map (·.1) = reportSymbols) {t : String} (ht : '\x7b' ∉ t.toList) :
    Becomes shared t t := by
  refine .of_clear (fun v hv => (apart_reportSymbols v.1 (mem_of_symbols hshared hv)).1) fun v hv => ?_
  obtain ⟨n, -, hn⟩ := List.mem_map.mp (mem_of_symbols hshared hv)
  rw [← hn, toList_symbol]
  exact Text.clear_of_notMem ht

theorem Becomes.join (hshared : shared.map (·.1) = reportSymbols) {α : Type} {t u : α → String} :
    ∀ {xs : List α}, (∀ x ∈ xs, Becomes shared (t x) (u x)) →
    Becomes shared (Text.join "\n" (xs.map t)) (Text.join "\n" (xs.map u))
  | [], _ => .of_notMem hshared (by simp [Text.join_nil])
  | [x], h => by
    rw [List.map_singleton, List.map_singleton, Text.join_singleton, Text.join_singleton]
    exact h x List.mem_cons_self
  | x :: y :: rest, h => by
    rw [List.forall_mem_cons] at h
    simp only [List.map_cons, Text.join_cons_cons]
    exact h.1.append ((Becomes.of_notMem hshared (by decide)).append (Becomes.join hshared h.2))

theorem notMem_noFindings (m : Medium) : '\x7b' ∉ (noFindings m).toList := by
  cases m with
  | html => exact Text.notMem_ofList (by decide)
  | plain => exact Text.notMem_ofList (by decide)

theorem becomes_listed (hshared : shared.map (·.1) = reportSymbols) {α : Type} {t u : α → String} {xs : List α}
    (h : ∀ x ∈ xs, Becomes shared (t x) (u x)) : Becomes shared (listed m (xs.map t)) (listed m (xs.map u)) := by
  rw [listed, listed, List.isEmpty_map, List.isEmpty_map]
  split_ifs
  · exact .of_notMem hshared (notMem_noFindings m)
  · exact .join hshared h

/-- **A piece of a template**: the two rounds are one list of values. -/
theorem becomes_segment (hshared : shared.map (·.1) = reportSymbols)
    (hown : ∀ values ∈ own, values.map (·.1) = findingSymbols) (hquiet : Quiet shared)
    (hblocks : ∀ values ∈ own, Quiet (values ++ shared)) {s : Segment} (hs : s.Tidy) :
    Becomes shared (s.expand m own) (s.fill m own shared) := by
  cases s with
  | text cs =>
    refine becomes_fillAtOnce (hshared ▸ apart_reportSymbols) hquiet ?_
    rw [hshared, Segment.expand, String.toList_ofList]
    exact hs
  | block cs =>
    refine becomes_listed hshared fun values hvalues => ?_
    have hboth : (values ++ shared).map (·.1) = findingSymbols ++ reportSymbols := by
      rw [List.map_append, hown values hvalues, hshared]
    refine (becomes_fillAtOnce (hboth ▸ apart_symbols) (hblocks values hvalues) ?_).substitute (hblocks values hvalues)
    rw [hboth, String.toList_ofList]
    exact hs

theorem becomes_segments {segments : List Segment} (hshared : shared.map (·.1) = reportSymbols) {t u : Segment → String}
    (h : ∀ s ∈ segments, Becomes shared (t s) (u s)) :
    Becomes shared (String.join (segments.map t)) (String.join (segments.map u)) := by
  induction segments with
  | nil => exact .of_notMem hshared (by simp)
  | cons s segments ih =>
    rw [List.forall_mem_cons] at h
    rw [List.map_cons, List.map_cons, String.join_cons, String.join_cons]
    exact h.1.append (ih h.2)

end

theorem symbols_own (r : Report) (m : Medium) :
    Yields (fun own => ∀ values ∈ own, values.map (·.1) = findingSymbols) (r.own m) :=
  .mapM fun x _ => symbols_findingValues r m x.1 x.2

theorem writeBlock_of_mem_values (r : Report) (m : Medium) (printed : Bool) :
    Yields (fun values => ∀ v ∈ values, v.1 = symbol "findings" → r.writeBlock m (findingBlock m) = .ok v.2)
      (r.values m printed) := by
  refine .bind (.any _) fun _ _ => .bind (.any _) fun _ _ => .bind (.any _) fun _ _ => ?_
  refine .bind (.any _) fun _ _ => .bind (.self _) fun findings hfindings => .bind (.any _) fun _ _ => .pure ?_
  simp [symbol_inj, hfindings]

theorem substitute_eq_fillAtOnce {values : List (String × String)} (hsymbols : values.map (·.1) = findingSymbols)
    (hquiet : Quiet values) {block : String} (htidy : Tidy findingSymbols block.toList) :
    substitute values block = fillAtOnce values block := by
  have hapart : Apart findingSymbols := apart_symbol isName_of_mem_findingNames
  rw [← hsymbols] at hapart htidy
  exact (becomes_fillAtOnce hapart hquiet htidy).substitute_eq hquiet

theorem exists_own_of_values (r : Report) (m : Medium) (printed : Bool) :
    Yields (fun _ => ∃ own, r.own m = .ok own) (r.values m printed) := by
  refine .bind (.any _) fun _ _ => .bind (.any _) fun _ _ => .bind (.any _) fun _ _ => ?_
  refine .bind (.any _) fun _ _ => .bind (.self _) fun findings hfindings => .bind (.any _) fun _ _ => .pure ?_
  rw [writeBlock_eq] at hfindings
  cases hown : r.own m with
  | error e => simp [hown, Except.map] at hfindings
  | ok own => exact ⟨own, rfl⟩

/-! ### Settled reports -/

/-- Nothing that is put into the report looks like a symbol whose turn comes later. -/
structure Settled (r : Report) (f : Format) : Prop where
  template : Yields (fun template => ∀ s ∈ segments template, s.Tidy) (r.page f)
  values : Yields (fun shared => Quiet shared ∧
    Yields (fun own => ∀ values ∈ own, Quiet (values ++ shared)) (r.own f.medium)) (r.values f.medium (f == .pdf))

theorem notMem_join {c : Char} {sep : String} (hsep : c ∉ sep.toList) : ∀ {texts : List String},
    (∀ t ∈ texts, c ∉ t.toList) → c ∉ (Text.join sep texts).toList
  | [], _ => by simp [Text.join_nil]
  | [t], h => by
    rw [Text.join_singleton]
    exact h t List.mem_cons_self
  | t :: u :: rest, h => by
    rw [List.forall_mem_cons] at h
    rw [Text.join_cons_cons, String.toList_append, String.toList_append, List.mem_append, List.mem_append]
    rintro (ht | hs | hrest)
    · exact h.1 ht
    · exact hsep hs
    · exact notMem_join hsep h.2 hrest

theorem notMem_listed {own : List (List (String × String))}
    (hsymbols : ∀ values ∈ own, values.map (·.1) = findingSymbols)
    (h : ∀ values ∈ own, ∀ v ∈ values, '\x7b' ∉ v.2.toList) (m : Medium) :
    '\x7b' ∉ (listed m (own.map fun values => substitute values (findingBlock m))).toList := by
  have heach : ∀ t ∈ own.map (fun values => substitute values (findingBlock m)), '\x7b' ∉ t.toList := by
    intro t ht
    obtain ⟨values, hvalues, rfl⟩ := List.mem_map.mp ht
    have hkeys := hsymbols values hvalues
    have hquiet : Quiet values := quiet_of_notMem (fun v => mem_of_symbols hkeys) (h values hvalues)
    have hbare : Bare (values.map (·.1)) (findingBlock m).toList := hkeys ▸ bare_findingBlock m
    rw [substitute_eq_fillAtOnce hkeys hquiet (bare_findingBlock m).tidy]
    exact notMem_fillAtOnce hbare (h values hvalues)
  rw [listed]
  split_ifs
  · exact notMem_noFindings m
  · exact notMem_join (by decide) heach

/-- **A report without braces is settled**, on a tidy template. What stands for the findings need not
be looked at. -/
theorem settled_of_notMem (htemplate : Yields (fun template => ∀ s ∈ segments template, s.Tidy) (r.page f))
    (hown : Yields (fun own => ∀ values ∈ own, ∀ v ∈ values, '\x7b' ∉ v.2.toList) (r.own f.medium))
    (hshared : Yields (fun shared => ∀ v ∈ shared, v.1 = symbol "findings" ∨ '\x7b' ∉ v.2.toList)
      (r.values f.medium (f == .pdf))) : Settled r f := by
  refine ⟨htemplate, fun shared hvalues => ?_⟩
  obtain ⟨own, hfound⟩ := exists_own_of_values r f.medium (f == .pdf) shared hvalues
  have hown := hown own hfound
  have hkeys := symbols_own r f.medium own hfound
  have hsymbols : ∀ v ∈ shared, v.1 ∈ reportNames.map symbol := fun v =>
    mem_of_symbols (symbols_values r f.medium (f == .pdf) shared hvalues)
  have hfree : ∀ v ∈ shared, '\x7b' ∉ v.2.toList := by
    intro v hv
    rcases hshared shared hvalues v hv with hfindings | hfree
    · have hblock := writeBlock_of_mem_values r f.medium (f == .pdf) shared hvalues v hv hfindings
      rw [writeBlock_eq, hfound] at hblock
      exact Except.ok.inj hblock ▸ notMem_listed hkeys hown f.medium
    · exact hfree
  refine ⟨quiet_of_notMem hsymbols hfree, fun own' hown' values hmem => ?_⟩
  obtain rfl : own = own' := Except.ok.inj (hfound.symm.trans hown')
  have hboth : ∀ v ∈ values ++ shared, v.1 ∈ (findingNames ++ reportNames).map symbol := by
    intro v hv
    rw [List.map_append]
    rcases List.mem_append.mp hv with hv | hv
    · exact List.mem_append_left _ (mem_of_symbols (hkeys values hmem) hv)
    · exact List.mem_append_right _ (hsymbols v hv)
  refine quiet_of_notMem hboth fun v hv => ?_
  rcases List.mem_append.mp hv with hv | hv
  · exact hown values hmem v hv
  · exact hfree v hv

/-! ### Both ways agree -/

/-- Where the values of the findings are quiet, they can be put into their blocks at once. -/
theorem valuesAtOnce_eq {m : Medium} {printed : Bool} {own : List (List (String × String))}
    {values : List (String × String)} (hown : r.own m = .ok own) (hvalues : r.values m printed = .ok values)
    (hquiet : ∀ values ∈ own, Quiet values) : r.valuesAtOnce m printed = .ok values := by
  have hfilled : (own.map fun values => fillAtOnce values (findingBlock m)) =
      own.map fun values => substitute values (findingBlock m) := by
    refine List.map_congr_left fun values hmem => ?_
    have hsymbols := symbols_own r m own hown values hmem
    exact (substitute_eq_fillAtOnce hsymbols (hquiet values hmem) (bare_findingBlock m).tidy).symm
  have hsame : ∀ v ∈ values, (if v.1 = symbol "findings" then (v.1, listed m (own.map fun values =>
      fillAtOnce values (findingBlock m))) else v) = v := by
    intro v hv
    split_ifs with hsymbol
    · have hblock := writeBlock_of_mem_values r m printed values hvalues v hv hsymbol
      rw [writeBlock_eq, hown] at hblock
      have hlisted : listed m (own.map fun values => substitute values (findingBlock m)) = v.2 := Except.ok.inj hblock
      rw [hfilled, hlisted]
    · rfl
  unfold valuesAtOnce
  rw [hown, hvalues]
  exact congrArg Except.ok (List.map_congr_left hsame |>.trans (List.map_id values))

theorem expandBlocks_eq {m : Medium} {own : List (List (String × String))} (hown : r.own m = .ok own)
    (template : String) :
    expandBlocks (r.writeBlock m) template = .ok (String.join ((segments template).map (Segment.expand m own))) := by
  unfold expandBlocks
  rw [mapM_eq_ok (g := Segment.expand m own)]
  · rfl
  · intro s _
    cases s with
    | text cs => rfl
    | block cs =>
      dsimp only
      rw [writeBlock_eq, hown]
      rfl

theorem fill_eq {template : String} {own : List (List (String × String))}
    {shared : List (String × String)} (hown : r.own f.medium = .ok own)
    (hshared : r.values f.medium (f == .pdf) = .ok shared) :
    r.fill f template =
      .ok (substitute shared (String.join ((segments template).map (Segment.expand f.medium own)))) := by
  unfold fill
  rw [expandBlocks_eq hown, hshared]
  rfl

theorem fill_eq_error {e : Fault} (hshared : r.values f.medium (f == .pdf) = .error e)
    (template : String) : orNothing (r.fill f template) = none := by
  unfold fill
  rw [hshared]
  cases expandBlocks (r.writeBlock f.medium) template <;> rfl

theorem valuesAtOnce_eq_error {m : Medium} {printed : Bool} {e : Fault}
    (hshared : r.values m printed = .error e) : orNothing (r.valuesAtOnce m printed) = none := by
  unfold valuesAtOnce
  rw [hshared]
  cases r.own m <;> rfl

/-- **A settled report is rendered as if all values were put in at once.** -/
theorem render_eq_renderAtOnce {r : Report} {f : Format} (h : Settled r f) :
    orNothing (r.render f) = orNothing (r.renderAtOnce f) := by
  rw [render_eq, renderAtOnce]
  cases hpage : r.page f with
  | error e => rfl
  | ok template =>
    cases hshared : r.values f.medium (f == .pdf) with
    | error e =>
      refine (fill_eq_error hshared template).trans ?_
      have hnone := valuesAtOnce_eq_error hshared
      cases r.own f.medium with
      | error e => rfl
      | ok own =>
        cases hvalues : r.valuesAtOnce f.medium (f == .pdf) with
        | error e => rfl
        | ok values => exact absurd hnone (by simp [hvalues, orNothing])
    | ok shared =>
      obtain ⟨own, hown⟩ := exists_own_of_values r f.medium (f == .pdf) shared hshared
      obtain ⟨hquiet, hblocks⟩ := h.values shared hshared
      have hblocks := hblocks own hown
      have hsymbols := symbols_values r f.medium (f == .pdf) shared hshared
      have hbecomes := becomes_segments hsymbols fun s hs =>
        becomes_segment (m := f.medium) hsymbols (symbols_own r f.medium own hown) hquiet hblocks
          (h.template template hpage s hs)
      have hatOnce : r.valuesAtOnce f.medium (f == .pdf) = .ok shared :=
        valuesAtOnce_eq hown hshared fun values hvalues => (List.pairwise_append.mp (hblocks values hvalues)).1
      rw [hown, hatOnce]
      refine (congrArg orNothing (fill_eq hown hshared)).trans ?_
      rw [hbecomes.substitute_eq hquiet]
      rfl

/-- A report by some author, on findings of which only the summaries are given, with a template. -/
def shortReport (template title : String) (summaries : List String) : Report where
  disk := ⟨.dir [("t", .dir [("markdown.md", .file (Utf8.encode template))])], []⟩
  appRoot := ⟨"/", []⟩
  templateDir := ⟨"/", ["t"]⟩
  options := ⟨title, "A", "", false, false, false, false, false⟩
  project := ""
  moment := ⟨1970, 1, 1, 0, 0, 0⟩
  findings := summaries.map fun s => .object [("description", .str s)]

/-- A title, and a block with a value of a finding and one of the report. -/
def bylines : Report :=
  shortReport ("\x7b\x7b title \x7d\x7d:\x7b\x7b# findings \x7d\x7d\x7b\x7b issue_summary \x7d\x7d by " ++
    "\x7b\x7b author \x7d\x7d\x7b\x7b/ findings \x7d\x7d") "T" ["x", "y"]

theorem settled_bylines : Settled bylines .markdown :=
  settled_of_notMem (by decide +kernel) (by decide +kernel) (by decide +kernel)

theorem render_eq_renderAtOnce_bylines :
    Settled bylines .markdown ∧ orNothing (bylines.render .markdown) = some "T:x by A\ny by A" := by
  have hatOnce : orNothing (bylines.renderAtOnce .markdown) = some "T:x by A\ny by A" := by decide +kernel
  exact ⟨settled_bylines, (render_eq_renderAtOnce settled_bylines).trans hatOnce⟩

/-- A title that is the text of the symbol of the author. -/
def authorTitle : Report :=
  shortReport "\x7b\x7b title \x7d\x7d" "\x7b\x7b author \x7d\x7d" []

theorem title_is_searched :
    orNothing (authorTitle.render .markdown) = some "A" ∧
      orNothing (authorTitle.renderAtOnce .markdown) = some "\x7b\x7b author \x7d\x7d" :=
  ⟨by decide +kernel, by decide +kernel⟩

end SourceAudit.Report
