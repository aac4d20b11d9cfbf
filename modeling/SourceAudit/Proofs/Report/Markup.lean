/-
# What the values of a page are made of

A page gets texts from findings, from the files that were scanned, from models and from
the settings, and none of their characters can open or close a tag. Each value of a page
is text without angle brackets and quotes between tags of a fixed list (`Markup`), and
most values have no tags at all (`Safe`).

The blocks of findings are a value as well: markup into which markup is put in the place
of symbols (`Markup.replaced`), also where a value brings a symbol of its own. Only the
class of the risk stands inside a tag, and that is one of five words
(`Unclassed.substitute`).
-/
import SourceAudit.Proofs.Report.Filling
import SourceAudit.Proofs.Value.Scalars

namespace SourceAudit.Report

/-! ### Markup -/

/-- The characters that open or close a tag or the value of an attribute. -/
def markupChars : List Char := ['<', '>', '"', '\'']

def IsPlain (cs : List Char) : Prop :=
  ∀ c ∈ cs, c ∉ markupChars

instance (cs : List Char) : Decidable (IsPlain cs) :=
  List.decidableBAll (fun c => c ∉ markupChars) cs

/-- The tags that are written around values. -/
def tags : List String :=
  ["<section class=\"snippets\">", "</section>", "<h2>", "</h2>", "<article class=\"finding risk-critical\">",
    "<article class=\"finding risk-high\">", "<article class=\"finding risk-medium\">",
    "<article class=\"finding risk-low\">", "<article class=\"finding risk-info\">", "</article>",
    "<div class=\"finding-header\">", "<div class=\"finding-body\">", "<div class=\"code-card\">", "<div>", "</div>",
    "<p class=\"finding-line\">", "<p class=\"finding-summary\">", "<p class=\"finding-location\">",
    "<p class=\"finding-flow\">", "<p class=\"finding-ai\">", "<p class=\"empty\">", "</p>", "<strong>", "</strong>",
    "<br>", "<pre>", "</pre>", "<span>", "<span class=\"hit\">", "<span class=\"gap\">", "</span>", "<b>", "</b>"]

/-- What stands around the source of an image. -/
def imageTags : List (String × String) :=
  [("<img class=\"logo\" src=\"",
      "\" alt=\"PineSawFly Logo\" width=\"160\" style=\"width:160px;height:auto;\">"),
    ("<img class=\"logo\" src=\"", "\" alt=\"PineSawFly Logo\" style=\"width:25%;height:auto;\">"),
    ("<img class=\"mono-logo\" src=\"", "\" alt=\"PineSawFly Logo\">")]

def IsFixedTag (t : List Char) : Prop :=
  ∃ s ∈ tags, t = s.toList

/-- A tag of a page: a fixed one, or an image whose source cannot end it. -/
def IsTag (t : List Char) : Prop :=
  IsFixedTag t ∨ ∃ x ∈ imageTags, ∃ source, IsPlain source ∧ t = x.1.toList ++ (source ++ x.2.toList)

/-- Text with tags of some kind in it. -/
inductive Markup (T : List Char → Prop) : List Char → Prop
  | nil : Markup T []
  | char {c : Char} {cs : List Char} : c ∉ markupChars → Markup T cs → Markup T (c :: cs)
  | tag {t cs : List Char} : T t → Markup T cs → Markup T (t ++ cs)

namespace Markup

variable {T T' : List Char → Prop}

theorem of_plain : ∀ {cs : List Char}, IsPlain cs → Markup T cs
  | [], _ => .nil
  | c :: _, h => .char (h c List.mem_cons_self) (of_plain fun d hd => h d (List.mem_cons_of_mem c hd))

variable {cs ds : List Char}

theorem append (h : Markup T cs) (h' : Markup T ds) : Markup T (cs ++ ds) := by
  induction h with
  | nil => exact h'
  | char hc _ ih => exact .char hc ih
  | tag ht _ ih =>
    rw [List.append_assoc]
    exact .tag ht ih

theorem text_append {s t : String} (h : Markup T s.toList) (h' : Markup T t.toList) : Markup T (s ++ t).toList := by
  rw [String.toList_append]
  exact h.append h'

theorem join {sep : String} (hsep : Markup T sep.toList) : ∀ {texts : List String}, (∀ t ∈ texts, Markup T t.toList) →
    Markup T (Text.join sep texts).toList
  | [], _ => .nil
  | [t], h => by
    rw [Text.join_singleton]
    exact h t List.mem_cons_self
  | t :: u :: rest, h => by
    rw [List.forall_mem_cons] at h
    rw [Text.join_cons_cons]
    exact h.1.text_append (hsep.text_append (join hsep h.2))

theorem joined : ∀ {texts : List String}, (∀ t ∈ texts, Markup T t.toList) → Markup T (String.join texts).toList
  | [], _ => .nil
  | t :: texts, h => by
    rw [List.forall_mem_cons] at h
    rw [String.join_cons]
    exact h.1.text_append (joined h.2)

theorem mono (h : Markup T cs) (himp : ∀ t, T t → T' t) : Markup T' cs := by
  induction h with
  | nil => exact .nil
  | char hc _ ih => exact .char hc ih
  | tag ht _ ih => exact .tag (himp _ ht) ih

theorem of_tag {t : List Char} (h : T t) : Markup T t := by
  have hnil := Markup.tag h .nil
  rwa [List.append_nil] at hnil

def Opened (T : List Char → Prop) : Prop :=
  ∀ t, T t → ∃ c ∈ markupChars, ∃ rest, t = c :: rest

theorem of_cons (hopen : Opened T) {c : Char} (hc : c ∉ markupChars) (h : Markup T (c :: cs)) : Markup T cs := by
  generalize hall : c :: cs = all at h
  cases h with
  | nil => exact absurd hall (List.cons_ne_nil c cs)
  | char _ h =>
    obtain ⟨rfl, rfl⟩ := List.cons.inj hall
    exact h
  | tag ht h =>
    obtain ⟨d, hd, rest, rfl⟩ := hopen _ ht
    obtain ⟨rfl, -⟩ := List.cons.inj hall
    exact absurd hd hc

theorem of_append (hopen : Opened T) : ∀ {p : List Char}, IsPlain p → Markup T (p ++ cs) → Markup T cs
  | [], _, h => h
  | c :: _, hp, h => by
    have hrest := of_cons hopen (hp c List.mem_cons_self) h
    exact of_append hopen (fun d hd => hp d (List.mem_cons_of_mem c hd)) hrest

/-- **Markup in the place of plain text.** The text does not begin in a tag, so a tag stays whole. -/
theorem replaced {old new : List Char} (hopen : Opened T) (hplain : IsPlain old) (hold : old ≠ [])
    (hclear : ∀ t, T t → Text.Clear old t) (hnew : Markup T new) (h : Markup T cs) :
    Markup T (Text.replaced old new cs) := by
  -- an occurrence takes more than one character of the text, so the induction is on its length
  induction hlength : cs.length using Nat.strongRecOn generalizing cs with
  | _ n ih =>
    subst hlength
    cases h with
    | nil => exact .nil
    | @char c cs hc hcs =>
      by_cases hfront : old <+: c :: cs
      · obtain ⟨rest, hrest⟩ := hfront
        have hpos : 0 < old.length := List.length_pos_iff.mpr hold
        have hlt : rest.length < (c :: cs).length := by
          rw [← hrest, List.length_append]
          omega
        have hmarkup : Markup T rest := of_append hopen hplain (hrest ▸ .char hc hcs)
        rw [← hrest, Text.replaced_self_append hold]
        exact hnew.append (ih rest.length hlt hmarkup rfl)
      · rw [Text.replaced_cons, if_neg hfront]
        exact .char hc (ih cs.length (by simp) hcs rfl)
    | @tag t cs ht hcs =>
      obtain ⟨d, -, more, rfl⟩ := hopen _ ht
      rw [Text.replaced_append_of_clear (hclear _ ht)]
      have hlt : cs.length < (d :: more ++ cs).length := by
        rw [List.length_append, List.length_cons]
        omega
      exact .tag ht (ih cs.length hlt hcs rfl)

end Markup

/-! ### Fixed tags and texts -/

theorem chars_tags : ∀ s ∈ tags, s.toList.head? = some '<' ∧ '\x7b' ∉ s.toList ∧ '\n' ∉ s.toList := by
  decide +kernel

theorem opened_isFixedTag : Markup.Opened IsFixedTag := by
  rintro t ⟨s, hs, rfl⟩
  obtain ⟨rest, hrest⟩ := List.head?_eq_some_iff.mp (chars_tags s hs).1
  exact ⟨'<', by decide, rest, hrest⟩

theorem markup_of_parts {s : String} (parts : List String) (hs : s = String.join parts := by simp)
    (h : ∀ p ∈ parts, p ∈ tags ∨ IsPlain p.toList := by simp [tags, IsPlain, markupChars]) :
    Markup IsFixedTag s.toList := by
  rw [hs]
  refine .joined fun p hp => ?_
  rcases h p hp with htag | hplain
  · exact .of_tag ⟨p, htag, rfl⟩
  · exact .of_plain hplain

theorem markup_noFindings : Markup IsFixedTag (noFindings .html).toList :=
  markup_of_parts ["<p class=\"empty\">", "未发现问题。", "</p>"] (by simp [noFindings])

/-! ### Texts from outside -/

theorem plain_escapeChar (c : Char) : IsPlain (Html.escapeChar c) := by
  unfold Html.escapeChar
  split_ifs with hamp hlt hgt hquot hapos
  · decide
  · decide
  · decide
  · decide
  · decide
  · intro d hd
    rw [List.mem_singleton.mp hd]
    simp_all [markupChars]

/-- **Escaped text is plain.** -/
theorem plain_escape (s : String) : IsPlain (Html.escape s).toList := by
  intro c hc
  rw [Html.escape, String.toList_ofList] at hc
  obtain ⟨d, -, hd⟩ := List.mem_flatMap.mp hc
  exact plain_escapeChar d c hd

theorem markup_escape {T : List Char → Prop} (s : String) : Markup T (Html.escape s).toList :=
  .of_plain (plain_escape s)

theorem plain_toString (n : Int) : IsPlain (toString n).toList := by
  have hchars : ∀ d ∈ markupChars, d ≠ '-' ∧ d.isDigit = false := by simp [markupChars]
  intro c hc hmem
  rw [Json.toList_toString_int] at hc
  rcases List.mem_append.mp hc with hsign | hdigit
  · split_ifs at hsign
    · exact (hchars c hmem).1 (List.mem_singleton.mp hsign)
    · exact absurd hsign List.not_mem_nil
  · have hdigit := Json.isDigit_toDigits _ c hdigit
    rw [(hchars c hmem).2] at hdigit
    exact Bool.false_ne_true hdigit

theorem markup_padStart {T : List Char → Prop} (width : Nat) {s : String} (h : Markup T s.toList) :
    Markup T (Text.padStart width s).toList := by
  refine Markup.text_append (.of_plain fun c hc => ?_) h
  rw [String.toList_ofList] at hc
  rw [(List.mem_replicate.mp hc).2]
  decide

theorem markup_row (row : SnippetRow) : Markup IsFixedTag row.toHtml.toList := by
  cases row with
  | gap =>
    exact markup_of_parts ["<span class=\"gap\">", "...", "</span>"] (by simp [SnippetRow.toHtml])
  | line n hit content =>
    have hopen : Markup IsFixedTag ("<span" ++ (if hit then " class=\"hit\"" else "") ++ "><b>").toList := by
      cases hit with
      | true => exact markup_of_parts ["<span class=\"hit\">", "<b>"]
      | false => exact markup_of_parts ["<span>", "<b>"]
    have hnumber : Markup IsFixedTag (Text.padStart 4 (toString n)).toList :=
      markup_padStart 4 (.of_plain (plain_toString n))
    have hmiddle : Markup IsFixedTag "</b> ".toList :=
      markup_of_parts ["</b>", " "]
    have hend : Markup IsFixedTag "</span>".toList := markup_of_parts ["</span>"]
    exact (((hopen.text_append hnumber).text_append hmiddle).text_append (markup_escape content)).text_append hend

theorem markup_snippet (s : Snippet) : Markup IsFixedTag (s.write .html).toList := by
  have hopen : Markup IsFixedTag "<div class=\"code-card\"><pre>".toList :=
    markup_of_parts ["<div class=\"code-card\">", "<pre>"]
  have hbreak : Markup IsFixedTag "<br>".toList := markup_of_parts ["<br>"]
  have hclose : Markup IsFixedTag "</pre></div>".toList :=
    markup_of_parts ["</pre>", "</div>"]
  have hrows : Markup IsFixedTag (Text.join "<br>" (s.rows.map SnippetRow.toHtml)).toList := by
    refine .join hbreak fun t ht => ?_
    obtain ⟨row, -, rfl⟩ := List.mem_map.mp ht
    exact markup_row row
  exact (hopen.text_append hrows).text_append hclose

/-- **The code of a finding is markup.** -/
theorem markup_code (d : Disk) (f : Finding) :
    Yields (fun code => Markup IsFixedTag code.toList) (f.code d .html) := by
  refine .map fun snippet _ => ?_
  cases snippet with
  | none => exact .nil
  | some s => exact markup_snippet s

/-- **The analysis of a model is markup**, with breaks in the place of its line ends. -/
theorem markup_analysis (analysis : String) : Markup IsFixedTag (analysisMarkup analysis .html).toList := by
  have hopen : Markup IsFixedTag "<p class=\"finding-ai\"><strong>AI 分析：</strong>".toList :=
    markup_of_parts ["<p class=\"finding-ai\">", "<strong>", "AI 分析：", "</strong>"]
  have hbreak : Markup IsFixedTag "<br>".toList := markup_of_parts ["<br>"]
  have hclose : Markup IsFixedTag "</p>".toList := markup_of_parts ["</p>"]
  have hline : "\n".toList = ['\n'] := String.toList_ofList
  have hclear : ∀ t, IsFixedTag t → Text.Clear ['\n'] t := by
    rintro t ⟨s, hs, rfl⟩
    exact Text.clear_of_notMem (chars_tags s hs).2.2
  have hlines : Markup IsFixedTag (Text.replaceAll (Html.escape (Text.strip analysis)) "\n" "<br>").toList := by
    rw [Text.toList_replaceAll, hline]
    exact .replaced opened_isFixedTag (by decide) (by decide) hclear hbreak (markup_escape _)
  unfold analysisMarkup
  dsimp only
  split_ifs
  · exact .nil
  · exact (hopen.text_append hlines).text_append hclose

/-! ### Images -/

/-- **An image has an escaped source.** -/
theorem markup_image {before behind : String} (h : (before, behind) ∈ imageTags) (source : String) :
    Markup IsTag (before ++ Html.escape source ++ behind).toList := by
  refine .of_tag (.inr ⟨_, h, (Html.escape source).toList, plain_escape source, ?_⟩)
  rw [String.toList_append, String.toList_append, List.append_assoc]

theorem markup_colorLogo (d : Disk) (appRoot : Path) (printed : Bool) :
    Yields (fun logo => Markup IsTag logo.toList) (colorLogo d appRoot .html printed) := by
  refine .bind (.any _) fun p _ => ?_
  cases p with
  | none => exact .pure .nil
  | some p =>
    refine .bind (.any _) fun source _ => .pure ?_
    rw [String.append_assoc]
    cases printed with
    | true =>
      have hbehind : "\" alt=\"PineSawFly Logo\"" ++ " width=\"160\" style=\"width:160px;height:auto;\">" =
        "\" alt=\"PineSawFly Logo\" width=\"160\" style=\"width:160px;height:auto;\">" := by simp
      exact markup_image (by simp [imageTags, hbehind]) source
    | false =>
      have hbehind : "\" alt=\"PineSawFly Logo\"" ++ " style=\"width:25%;height:auto;\">" =
        "\" alt=\"PineSawFly Logo\" style=\"width:25%;height:auto;\">" := by simp
      exact markup_image (by simp [imageTags, hbehind]) source

theorem markup_monoLogo (d : Disk) (appRoot : Path) :
    Yields (fun logo => Markup IsTag logo.toList) (monoLogo d appRoot .html) := by
  refine .bind (.any _) fun p _ => ?_
  cases p with
  | none => exact .pure .nil
  | some p => exact .bind (.any _) fun source _ => .pure (markup_image (by simp [imageTags]) source)

/-! ### Blocks of findings -/

theorem plain_symbol {n : String} (hn : n ∈ findingNames) : IsPlain (symbol n).toList := by
  have hnames : ∀ n ∈ findingNames, IsPlain n.toList := by decide +kernel
  intro c hc
  rw [toList_symbol] at hc
  simp only [List.mem_cons, List.mem_append, List.not_mem_nil, or_false] at hc
  rcases hc with rfl | rfl | rfl | hc | rfl | rfl | rfl
  · decide
  · decide
  · decide
  · exact hnames n hn c hc
  · decide
  · decide
  · decide

/-- A block of a finding whose class of risk is not there yet. -/
def Unclassed (cs : List Char) : Prop :=
  ∃ body, Markup IsFixedTag body ∧
    cs = "<article class=\"finding risk-".toList ++ ((symbol "risk_class").toList ++ ("\">".toList ++ body))

theorem Markup.symbol_append {n : String} {cs : List Char} (h : Markup IsFixedTag cs)
    (hn : n ∈ findingNames := by decide) : Markup IsFixedTag ((symbol n).toList ++ cs) :=
  (Markup.of_plain (plain_symbol hn)).append h

theorem unclassed_findingBlock : Unclassed (findingBlock .html).toList := by
  have hend : Markup IsFixedTag "</p>".toList := markup_of_parts ["</p>"]
  rw [← List.append_nil (findingBlock .html).toList]
  unfold findingBlock
  simp only [String.append_assoc, String.toList_append, List.append_assoc]
  refine ⟨_, ?_, rfl⟩
  refine (markup_of_parts ["<div class=\"finding-header\">", "<div>", "<h2>", "Finding "]).append (.symbol_append ?_)
  refine (markup_of_parts ["</h2>", "</div>", "</div>", "<div class=\"finding-body\">", "<p class=\"finding-line\">",
    "<strong>", "规则 ID：", "</strong>"]).append (.symbol_append ?_)
  refine (markup_of_parts [" ", "<strong>", "风险等级：", "</strong>"]).append (.symbol_append (hend.append ?_))
  refine (markup_of_parts ["<p class=\"finding-summary\">", "<strong>", "问题概述：", "</strong>"]).append
    (.symbol_append (hend.append ?_))
  refine (markup_of_parts ["<p class=\"finding-location\">", "<strong>", "漏洞位置：", "</strong>"]).append
    (.symbol_append (hend.append ?_))
  refine (markup_of_parts ["<p class=\"finding-flow\">", "<strong>", "传递链路：", "</strong>"]).append
    (.symbol_append (hend.append (.symbol_append (.symbol_append ?_))))
  exact (markup_of_parts ["</div>", "</article>"]).append .nil

theorem symbol_ne_nil (n : String) : (symbol n).toList ≠ [] := by
  rw [toList_symbol]
  exact List.cons_ne_nil _ _

theorem clear_symbol_of_notMem (n : String) {t : List Char} (ht : '\x7b' ∉ t) : Text.Clear (symbol n).toList t := by
  rw [toList_symbol]
  exact Text.clear_of_notMem ht

section

variable {n : String} {value cs : List Char}

theorem Markup.replaced_symbol (h : Markup IsFixedTag cs) (hn : n ∈ findingNames) (hvalue : Markup IsFixedTag value) :
    Markup IsFixedTag (Text.replaced (symbol n).toList value cs) := by
  refine .replaced opened_isFixedTag (plain_symbol hn) (symbol_ne_nil n) ?_ hvalue h
  rintro t ⟨s, hs, rfl⟩
  exact clear_symbol_of_notMem n (chars_tags s hs).2.1

section

variable {front behind : List Char} (hfront : '\x7b' ∉ front) (hbehind : '\x7b' ∉ behind)
include hfront hbehind

theorem replaced_around {m : String} (hm : IsName m) (hn : IsName n) (hne : n ≠ m) :
    Text.replaced (symbol n).toList value (front ++ ((symbol m).toList ++ (behind ++ cs))) =
      front ++ ((symbol m).toList ++ (behind ++ Text.replaced (symbol n).toList value cs)) := by
  rw [Text.replaced_append_of_clear (clear_symbol_of_notMem n hfront),
    Text.replaced_append_of_clear (clear_symbol hn hm hne),
    Text.replaced_append_of_clear (clear_symbol_of_notMem n hbehind)]

theorem replaced_between : Text.replaced (symbol n).toList value (front ++ ((symbol n).toList ++ (behind ++ cs))) =
    front ++ (value ++ (behind ++ Text.replaced (symbol n).toList value cs)) := by
  rw [Text.replaced_append_of_clear (clear_symbol_of_notMem n hfront), Text.replaced_self_append (symbol_ne_nil n),
    Text.replaced_append_of_clear (clear_symbol_of_notMem n hbehind)]

end

theorem notMem_article : '\x7b' ∉ "<article class=\"finding risk-".toList ∧ '\x7b' ∉ "\">".toList :=
  ⟨Text.notMem_ofList (by decide), Text.notMem_ofList (by decide)⟩

theorem Unclassed.replaced_symbol (h : Unclassed cs) (hn : n ∈ findingNames) (hne : n ≠ "risk_class")
    (hvalue : Markup IsFixedTag value) : Unclassed (Text.replaced (symbol n).toList value cs) := by
  obtain ⟨body, hbody, hcs⟩ := h
  have hclass : IsName "risk_class" := isName_of_mem_findingNames "risk_class" (by decide)
  have hrest := hbody.replaced_symbol hn hvalue
  rw [hcs, replaced_around notMem_article.1 notMem_article.2 hclass (isName_of_mem_findingNames n hn) hne]
  exact ⟨_, hrest, rfl⟩

theorem isFixedTag_article (risk : Risk) :
    IsFixedTag ("<article class=\"finding risk-".toList ++ ((Html.escape risk.label).toList ++ "\">".toList)) := by
  rw [← String.toList_append, ← String.toList_append]
  cases risk with
  | critical => exact ⟨"<article class=\"finding risk-critical\">", by simp [tags], by decide +kernel⟩
  | high => exact ⟨"<article class=\"finding risk-high\">", by simp [tags], by decide +kernel⟩
  | medium => exact ⟨"<article class=\"finding risk-medium\">", by simp [tags], by decide +kernel⟩
  | low => exact ⟨"<article class=\"finding risk-low\">", by simp [tags], by decide +kernel⟩
  | info => exact ⟨"<article class=\"finding risk-info\">", by simp [tags], by decide +kernel⟩

theorem Unclassed.replaced_class (h : Unclassed cs) (risk : Risk) :
    Markup IsFixedTag (Text.replaced (symbol "risk_class").toList (Html.escape risk.label).toList cs) := by
  obtain ⟨body, hbody, hcs⟩ := h
  have hclass : "risk_class" ∈ findingNames := by decide
  have htag := Markup.tag (isFixedTag_article risk) (hbody.replaced_symbol hclass (markup_escape risk.label))
  rw [hcs, replaced_between notMem_article.1 notMem_article.2]
  simpa only [List.append_assoc] using htag

end

/-- A value of a finding that is markup, and a class of risk where one is due. -/
structure IsOwn (v : String × String) : Prop where
  symbol : v.1 ∈ findingSymbols
  markup : Markup IsFixedTag v.2.toList
  risk : v.1 = Report.symbol "risk_class" → ∃ risk : Risk, v.2 = Html.escape risk.label

theorem Markup.substitute : ∀ {vs : List (String × String)} {t : String}, (∀ v ∈ vs, IsOwn v) →
    Markup IsFixedTag t.toList → Markup IsFixedTag (Report.substitute vs t).toList
  | [], _, _, h => h
  | v :: vs, t, hvs, h => by
    rw [List.forall_mem_cons] at hvs
    obtain ⟨n, hn, hsymbol⟩ := List.mem_map.mp hvs.1.symbol
    rw [Report.substitute, List.foldl_cons]
    refine substitute hvs.2 ?_
    rw [Text.toList_replaceAll, ← hsymbol]
    exact h.replaced_symbol hn hvs.1.markup

/-- **A block is markup once its class is there.** -/
theorem Unclassed.substitute : ∀ {vs : List (String × String)} {t : String}, (∀ v ∈ vs, IsOwn v) →
    symbol "risk_class" ∈ vs.map (·.1) → Unclassed t.toList → Markup IsFixedTag (Report.substitute vs t).toList
  | [], _, _, hclass, _ => absurd hclass List.not_mem_nil
  | v :: vs, t, hvs, hclass, h => by
    rw [List.forall_mem_cons] at hvs
    obtain ⟨n, hn, hsymbol⟩ := List.mem_map.mp hvs.1.symbol
    rw [Report.substitute, List.foldl_cons]
    by_cases hrisk : v.1 = symbol "risk_class"
    · obtain ⟨risk, hlabel⟩ := hvs.1.risk hrisk
      refine Markup.substitute hvs.2 ?_
      rw [Text.toList_replaceAll, hrisk, hlabel]
      exact h.replaced_class risk
    · rw [List.map_cons, List.mem_cons] at hclass
      have hne : n ≠ "risk_class" := fun heq => hrisk (heq ▸ hsymbol.symm)
      refine substitute hvs.2 (hclass.resolve_left (Ne.symm hrisk)) ?_
      rw [Text.toList_replaceAll, ← hsymbol]
      exact h.replaced_symbol hn hne hvs.1.markup

/-! ### All values -/

section

variable (r : Report)

theorem markup_codeOf (v : Value) : Yields (fun code => Markup IsFixedTag code.toList) (r.codeOf v .html) := by
  unfold codeOf
  split_ifs
  · exact .bind (.any _) fun f _ => markup_code r.disk f
  · exact .pure .nil

theorem markup_analysisOf (index : Int) :
    Yields (fun analysis => Markup IsFixedTag analysis.toList) (r.analysisOf index .html) := by
  unfold analysisOf
  split_ifs
  · exact .pure .nil
  · split
    · exact .pure .nil
    · exact .map fun f _ => markup_analysis _

theorem own_findingValues (index : Int) (v : Value) :
    Yields (fun values => ∀ x ∈ values, IsOwn x) (r.findingValues index v .html) := by
  have hvalues : Yields (fun values => ∀ x ∈ values, Markup IsFixedTag x.2.toList ∧
      (x.1 = symbol "risk_class" → ∃ risk : Risk, x.2 = Html.escape risk.label)) (r.findingValues index v .html) := by
    refine .bind (.any _) fun i _ => .bind (markup_codeOf r v) fun code hcode => ?_
    refine .bind (markup_analysisOf r index) fun analysis hanalysis => .pure ?_
    have hrisk : ∃ risk : Risk, Html.escape (Risk.ofSeverity i.severity).label = Html.escape risk.label := ⟨_, rfl⟩
    simp [symbol_inj, Medium.write, markup_escape, hcode, hanalysis, hrisk]
  intro values hfound x hx
  obtain ⟨hmarkup, hrisk⟩ := hvalues values hfound x hx
  exact ⟨mem_of_symbols (symbols_findingValues r .html index v values hfound) hx, hmarkup, hrisk⟩

/-- **The blocks of all findings are markup.** -/
theorem markup_writeBlock :
    Yields (fun blocks => Markup IsFixedTag blocks.toList) (r.writeBlock .html (findingBlock .html)) := by
  have hclass : symbol "risk_class" ∈ findingSymbols := List.mem_map_of_mem (by decide)
  have hown : Yields (fun own => ∀ values ∈ own, Markup IsFixedTag (substitute values (findingBlock .html)).toList)
      (r.own .html) := by
    refine .mapM fun x _ values hvalues => ?_
    have hsymbols := symbols_findingValues r .html x.1 x.2 values hvalues
    exact unclassed_findingBlock.substitute (own_findingValues r x.1 x.2 values hvalues) (hsymbols ▸ hclass)
  have hline : Markup IsFixedTag "\n".toList := .of_plain (by decide)
  rw [writeBlock_eq]
  refine .map fun own hfound => ?_
  dsimp only [listed]
  split_ifs
  · exact markup_noFindings
  · refine .join hline fun t ht => ?_
    obtain ⟨values, hvalues, rfl⟩ := List.mem_map.mp ht
    exact hown own hfound values hvalues

theorem markup_logo (printed : Bool) : Yields (fun logo => Markup IsTag logo.toList) (r.logo .html printed) := by
  unfold logo
  split_ifs
  · exact markup_colorLogo r.disk r.appRoot printed
  · exact .pure .nil

theorem markup_mono : Yields (fun logo => Markup IsTag logo.toList) (r.mono .html) := by
  unfold mono
  split_ifs
  · exact markup_monoLogo r.disk r.appRoot
  · exact .pure .nil

theorem markup_allCode : Yields (fun code => Markup IsFixedTag code.toList) (r.allCode .html) := by
  have hopen : Markup IsFixedTag "<section class=\"snippets\"><h2>高亮代码片段</h2>".toList :=
    markup_of_parts ["<section class=\"snippets\">", "<h2>", "高亮代码片段", "</h2>"]
  have hclose : Markup IsFixedTag "</section>".toList := markup_of_parts ["</section>"]
  unfold allCode
  split_ifs
  · exact .pure .nil
  · refine .bind (.mapM fun v _ => .bind (.any _) fun f _ => markup_code r.disk f) fun codes hcodes => ?_
    dsimp only
    split_ifs
    · exact .pure .nil
    · refine .pure ((hopen.text_append (.joined fun t ht => ?_)).text_append hclose)
      exact hcodes t (List.mem_of_mem_filter ht)

end

/-- The names of the values that have tags. -/
def markupNames : List String :=
  ["logo", "color_logo", "mono_logo", "findings", "evidence_code", "highlighted_code", "ai_analysis",
    "evidence_code_snippets", "highlighted_code_snippets"]

/-- A value is made of plain text and tags, and has tags only if it is one of those that have. -/
structure Safe (v : String × String) : Prop where
  markup : Markup IsTag v.2.toList
  plain : v.1 ∉ markupNames.map symbol → IsPlain v.2.toList

theorem safe_escape (name s : String) : Safe (name, Html.escape s) :=
  ⟨markup_escape s, fun _ => plain_escape s⟩

theorem safe_of_markup {name : String} (hname : name ∈ markupNames) {s : String} (h : Markup IsTag s.toList) :
    Safe (symbol name, s) :=
  ⟨h, fun hplain => absurd (List.mem_map_of_mem hname) hplain⟩

theorem Markup.isTag {cs : List Char} (h : Markup IsFixedTag cs) : Markup IsTag cs :=
  h.mono fun _ => .inl

theorem safe_findingValues (r : Report) (index : Int) (v : Value) :
    Yields (fun values => ∀ x ∈ values, Safe x) (r.findingValues index v .html) := by
  refine .bind (.any _) fun i _ => .bind (markup_codeOf r v) fun code hcode => ?_
  refine .bind (markup_analysisOf r index) fun analysis hanalysis => .pure ?_
  have hescape (name s : String) : Safe (name, Medium.html.write s) := safe_escape name s
  have hevidence : Safe (symbol "evidence_code", code) := safe_of_markup (by decide) hcode.isTag
  have hhighlighted : Safe (symbol "highlighted_code", code) := safe_of_markup (by decide) hcode.isTag
  have hai : Safe (symbol "ai_analysis", analysis) := safe_of_markup (by decide) hanalysis.isTag
  simp only [List.forall_mem_cons, hescape, hevidence, hhighlighted, hai, true_and]
  exact List.forall_mem_nil _

theorem safe_reportValues (r : Report) (printed : Bool) :
    Yields (fun values => ∀ x ∈ values, Safe x) (r.values .html printed) := by
  refine .bind (.any _) fun overview _ => .bind (.any _) fun _ _ => .bind (markup_logo r printed) fun logo hlogo => ?_
  refine .bind (markup_mono r) fun mono hmono => .bind (markup_writeBlock r) fun findings hfindings => ?_
  refine .bind (markup_allCode r) fun code hcode => .pure ?_
  have hescape (name s : String) : Safe (name, Medium.html.write s) := safe_escape name s
  have hempty (name : String) : Safe (name, "") := ⟨.nil, fun _ _ hc => absurd hc (by simp)⟩
  have hpart (name s : String) (shown : Bool) : Safe (name, if shown then Medium.html.write s else "") := by
    split_ifs
    · exact hescape name s
    · exact hempty name
  have hmarkup : Safe (symbol "logo", logo) ∧ Safe (symbol "color_logo", logo) ∧ Safe (symbol "mono_logo", mono) ∧
      Safe (symbol "findings", findings) ∧ Safe (symbol "evidence_code_snippets", code) ∧
      Safe (symbol "highlighted_code_snippets", code) :=
    ⟨safe_of_markup (by decide) hlogo, safe_of_markup (by decide) hlogo, safe_of_markup (by decide) hmono,
      safe_of_markup (by decide) hfindings.isTag, safe_of_markup (by decide) hcode.isTag,
      safe_of_markup (by decide) hcode.isTag⟩
  simp only [List.forall_mem_cons, hescape, hempty, hpart, hmarkup, true_and]
  exact List.forall_mem_nil _

theorem exists_of_orNothing {α β : Type} {x : Except Fault α} {f : α → Option β} {b : β}
    (h : (orNothing x).bind f = some b) : ∃ a, x = .ok a ∧ f a = some b := by
  cases x with
  | error e => exact absurd h (by simp [orNothing])
  | ok a => exact ⟨a, rfl, h⟩

/-- **The values of a page are safe**: those of each finding, and those of the report, whether it is
printed or not. -/
theorem safe_values (r : Report) :
    (∀ index v, Yields (fun values => ∀ x ∈ values, Safe x) (r.findingValues index v .html)) ∧
      ∀ printed, Yields (fun values => ∀ x ∈ values, Safe x) (r.values .html printed) :=
  ⟨safe_findingValues r, safe_reportValues r⟩

/-- A report whose settings are made of the characters of markup. -/
def hostile : Report where
  disk := ⟨.dir [], []⟩
  appRoot := ⟨"/", []⟩
  templateDir := ⟨"/", []⟩
  options := ⟨"<h2>", "\"", "'", true, true, true, true, true⟩
  project := "</p>"
  moment := ⟨1970, 1, 1, 0, 0, 0⟩
  findings := []

theorem safe_values_hostile :
    (∃ values, hostile.findingValues 1 (.object [("description", .str "\"><b>")]) .html = .ok values ∧
      values.lookup (symbol "issue_summary") = some "&quot;&gt;&lt;b&gt;" ∧ ∀ x ∈ values, Safe x) ∧
    ∃ values, hostile.values .html true = .ok values ∧ values.lookup (symbol "title") = some "&lt;h2&gt;" ∧
      ∀ x ∈ values, Safe x := by
  have hfinding : (orNothing (hostile.findingValues 1 (.object [("description", .str "\"><b>")]) .html)).bind
      (·.lookup (symbol "issue_summary")) = some "&quot;&gt;&lt;b&gt;" := by decide +kernel
  have htitle : (orNothing (hostile.values .html true)).bind (·.lookup (symbol "title")) = some "&lt;h2&gt;" := by
    decide +kernel
  obtain ⟨values, hvalues, hlookup⟩ := exists_of_orNothing hfinding
  obtain ⟨values', hvalues', hlookup'⟩ := exists_of_orNothing htitle
  exact ⟨⟨values, hvalues, hlookup, (safe_values hostile).1 1 _ values hvalues⟩,
    values', hvalues', hlookup', (safe_values hostile).2 true values' hvalues'⟩

end SourceAudit.Report
