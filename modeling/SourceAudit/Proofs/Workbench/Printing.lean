/-
# What is on the paper

The steps of printing are followed on a canvas, which knows the shifts in effect, the
shifts that were saved, and what is on the pages so far (`Canvas.step`). The steps for
one page put one slice of a document and one number on a page of its own and leave the
shifts as they were (`drawn_drawPage`), so the steps for all pages do so page by page
(`drawn_drawPages`).

Numbers are rounded, but an integer up to `2 ^ 53` is held as it is
(`Double.ofRat_intCast`). As long as a document and one more page stay below that, the
number of pages is the least that covers the document (`covers_pageCount`), and each
slice starts where the one before ends (`sliceSpot_eq`). Beyond it a part of a document
can be left out (`last_row_left_out`).
-/
import Mathlib.Algebra.Order.Floor.Ring
import Mathlib.Order.Bounds.Defs
import SourceAudit.Proofs.Number.Rounding
import SourceAudit.Proofs.Outcome
import SourceAudit.Proofs.Workbench.Effects

namespace SourceAudit

namespace Report

/-! ### The canvas -/

/-- Where a part of a document stands on its page, and from where to where it goes in the document. -/
structure Spot where
  x : Rat
  y : Rat
  top : Rat
  bottom : Rat
deriving DecidableEq

/-- The parts of documents on a page, as far as they stand somewhere, and its notes at the right. -/
structure Page where
  slices : List (Option Spot) := []
  notes : List String := []
deriving DecidableEq

/-- How far contents are shifted, the shifts that were saved, and the pages; the last comes first. -/
structure Canvas where
  shift : Option (Rat × Rat) := some (0, 0)
  saved : List (Option (Rat × Rat)) := []
  pages : List Page := []
deriving DecidableEq

namespace Canvas

/-- The pages with something done to the last one. The first page is there from the beginning, but
counts only when something is done to it. -/
def onLast (f : Page → Page) : List Page → List Page
  | [] => [f {}]
  | p :: ps => f p :: ps

/-- A further shift. -/
def shiftBy (x y : Double) (shift : Option (Rat × Rat)) : Option (Rat × Rat) := do
  let (a, b) ← shift
  return (a + (← x.toRat?), b + (← y.toRat?))

/-- Where a part of a document comes to stand. -/
def spot? (shift : Option (Rat × Rat)) (top height : Double) : Option Spot := do
  let (a, b) ← shift
  let top ← top.toRat?
  return ⟨a, b + top, top, top + (← height.toRat?)⟩

/-- The canvas after a step. Nothing can be restored that was not saved. -/
def step (c : Canvas) : Drawing → Option Canvas
  | .newPage => some { c with pages := {} :: onLast id c.pages }
  | .save => some { c with saved := c.shift :: c.saved }
  | .restore =>
    match c.saved with
    | [] => none
    | shift :: saved => some { c with shift, saved }
  | .shift x y => some { c with shift := shiftBy x y c.shift }
  | .contents top _ height =>
    some { c with pages := onLast (fun p => { p with slices := p.slices ++ [spot? c.shift top height] }) c.pages }
  | .rightAligned _ _ _ _ note =>
    some { c with pages := onLast (fun p => { p with notes := p.notes ++ [note] }) c.pages }
  | _ => some c

/-- The canvas after some steps. -/
def drawn (c : Canvas) (steps : List Drawing) : Option Canvas :=
  steps.foldlM step c

theorem drawn_append {c c' : Canvas} {steps : List Drawing} (h : c.drawn steps = some c') (more : List Drawing) :
    c.drawn (steps ++ more) = c'.drawn more := by
  rw [drawn, List.foldlM_append, ← drawn, h]
  rfl

/-- Steps before the first page. -/
theorem drawn_still {c : Canvas} : ∀ {steps : List Drawing}, (∀ x ∈ steps, c.step x = some c) → c.drawn steps = some c
  | [], _ => rfl
  | x :: steps, h => by
    rw [List.forall_mem_cons] at h
    rw [drawn, List.foldlM_cons, h.1]
    exact drawn_still h.2

end Canvas

namespace Sheet

open Canvas

variable (s : Sheet) (logo : Option String) (total : Nat)

/-- Where a slice of a document comes to stand. -/
def sliceSpot (k : Nat) : Option Spot :=
  spot? (shiftBy margin (margin.sub (s.textHeight.scale k)) (some (0, 0))) (s.textHeight.scale k) s.textHeight

/-- A page with a slice of a document and its number. -/
def page (x : Nat × Nat) : Page :=
  ⟨[s.sliceSpot x.1], [s!"第 {x.2} / {total} 页"]⟩

/-- **One page.** -/
theorem drawn_drawPage (k : Nat) (ps : List Page) :
    drawn ⟨some (0, 0), [], ps⟩ (s.drawPage logo total (k, ps.length + 1)) =
      some ⟨some (0, 0), [], s.page total (k, ps.length + 1) :: ps⟩ := by
  cases ps <;> cases logo <;> rfl

/-- **All pages**, one after the other. -/
theorem drawn_drawPages : ∀ (ks : List Nat) (ps : List Page),
    drawn ⟨some (0, 0), [], ps⟩ ((ks.zipIdx (ps.length + 1)).flatMap (s.drawPage logo total)) =
      some ⟨some (0, 0), [], ((ks.zipIdx (ps.length + 1)).map (s.page total)).reverse ++ ps⟩
  | [], _ => rfl
  | k :: ks, ps => by
    have hrest := drawn_drawPages ks (s.page total (k, ps.length + 1) :: ps)
    rw [List.zipIdx_cons, List.flatMap_cons, drawn_append (s.drawn_drawPage logo total k ps)]
    simpa using hrest

/-! ### The number of pages -/

theorem foldl_add_eq_length (counts : List Nat) : counts.foldl (· + ·) 0 = (counts.flatMap List.range).length := by
  have hfold : ∀ (counts : List Nat) (n : Nat),
      counts.foldl (· + ·) n = n + (counts.flatMap List.range).length := by
    intro counts
    induction counts with
    | nil => exact fun _ => rfl
    | cons c counts ih =>
      intro n
      rw [List.foldl_cons, ih, List.flatMap_cons, List.length_append, List.length_range]
      omega
  rw [hfold, Nat.zero_add]

/-- So many slices of a height, and no fewer, cover a document; there is at least one. -/
def Covers (H : Nat) (h : Int) (n : Nat) : Prop :=
  IsLeast {n : Nat | 1 ≤ n ∧ h ≤ n * H} n

/-- The slices of a document, one to a page, each below the one before and at the same place. -/
def tiles (H n : Nat) : List (List (Option Spot)) :=
  (List.range n).map fun k : Nat => [some ⟨54, 54, k * H, (k + 1) * H⟩]

/-- The least number of slices, at least one, that cover some height. -/
theorem covers_ceil {H : Nat} (hpos : 0 < H) (h : Int) : Covers H h (max 1 ((h + H - 1) / H).toNat) := by
  have hHpos : (0 : Int) < H := by exact_mod_cast hpos
  obtain ⟨q, hq⟩ : ∃ q, q = (h + H - 1) / H := ⟨_, rfl⟩
  have hle : q * H ≤ h + H - 1 := hq ▸ Int.ediv_mul_le _ hHpos.ne'
  have hlt : h + H - 1 < (q + 1) * H := hq ▸ Int.lt_ediv_add_one_mul_self _ hHpos
  rw [← hq]
  constructor
  · refine ⟨Nat.le_max_left _ _, ?_⟩
    have hqn : q ≤ (max 1 q.toNat : Nat) := by omega
    nlinarith
  · rintro n ⟨hn, hcovers⟩
    refine Nat.max_le.mpr ⟨hn, ?_⟩
    have hlast : (q - 1) * H < n * H := by nlinarith
    have := lt_of_mul_lt_mul_right hlast hHpos.le
    omega

theorem floor_div (i : Int) (n : Nat) : ((i : Rat) / (n : Rat)).floor = i / n := by
  rw [← Rat.floor_intCast_div_natCast]
  rfl

variable {s} {H : Nat} (hH : s.textHeight = .finite H) (hpos : 0 < H) {h : Int}

include hH hpos in
/-- A document gets the least number of pages that covers it, and at least one. -/
theorem covers_pageCount (hle : H ≤ 2 ^ 53) (hsum : h + H ≤ 2 ^ 53) : Covers H h (s.pageCount (.finite h)) := by
  have hHpos : (0 : Rat) < H := by exact_mod_cast hpos
  have hcast : (h : Rat) + (H : Rat) = ((h + H : Int) : Rat) := by
    push_cast
    rfl
  have hone : Double.ofInt 1 = .finite 1 := by
    have := Double.ofRat_intCast (i := 1) (by norm_num) (by norm_num)
    exact_mod_cast this
  have hceil := covers_ceil hpos h
  unfold pageCount
  rw [hH, Double.finite_add _ hHpos.ne', hcast, hone]
  rcases lt_or_ge (h + H) 0 with hneg | hnonneg
  · have hsum := Double.toRat?_ofRat_nonpos (q := ((h + H : Int) : Rat)) (by exact_mod_cast hneg.le)
    have hnum := Double.toRat?_sub_one_nonpos hsum
    have hfloor : Double.floorDiv ((Double.ofRat ((h + H : Int) : Rat)).sub (.finite 1)) (.finite H) ≤ 0 :=
      Int.floor_nonpos (div_nonpos_of_nonpos_of_nonneg hnum hHpos.le)
    have hquot : (h + H - 1) / (H : Int) ≤ 0 := Int.ediv_nonpos_of_nonpos_of_neg (by omega) (by omega)
    rw [Int.toNat_of_nonpos hfloor]
    rwa [Int.toNat_of_nonpos hquot] at hceil
  · rw [Double.ofRat_intCast (by omega) hsum]
    have hsub : (Double.finite ((h + H : Int) : Rat)).sub (.finite 1) = .finite ((h + H - 1 : Int) : Rat) := by
      rw [Double.finite_sub, ← Double.ofRat_intCast (by omega) (by omega)]
      push_cast
      rfl
    rw [hsub]
    show Covers H h (max 1 (((h + H - 1 : Int) : Rat) / (H : Rat)).floor.toNat)
    rw [floor_div]
    exact hceil

include hH in
/-- Each slice stands at the upper left corner of the text. -/
theorem sliceSpot_eq {k : Nat} (hk : k * H ≤ 2 ^ 53) : s.sliceSpot k = some ⟨54, 54, k * H, (k + 1) * H⟩ := by
  have hint {i : Int} (hlow : -2 ^ 53 ≤ i) (hhigh : i ≤ 2 ^ 53) := Double.ofRat_intCast hlow hhigh
  have hmargin : margin = .finite 54 := by exact_mod_cast hint (i := 54) (by norm_num) (by norm_num)
  have htop : s.textHeight.scale k = .finite (k * H) := by
    have h := hint (i := k * H) (by omega) (by exact_mod_cast hk)
    rw [hH, Double.scale]
    exact_mod_cast h
  have hshift : margin.sub (s.textHeight.scale k) = .finite (54 - k * H) := by
    have h := hint (i := 54 - k * H) (by omega) (by omega)
    rw [hmargin, htop, Double.finite_sub]
    exact_mod_cast h
  rw [sliceSpot, hshift, htop, hmargin, hH]
  show some (⟨0 + 54, 0 + (54 - k * H) + k * H, k * H, k * H + H⟩ : Spot) = _
  congr 2 <;> ring

include hH hpos in
/-- The slices of a document lie one after the other at the same place of their pages. -/
theorem map_sliceSpot (hle : H ≤ 2 ^ 53) (hsum : h + H ≤ 2 ^ 53) :
    (List.range (s.pageCount (.finite h))).map (fun k => [s.sliceSpot k]) = tiles H (s.pageCount (.finite h)) := by
  unfold tiles
  refine List.map_congr_left fun k hk => ?_
  rw [sliceSpot_eq hH]
  rcases Nat.eq_zero_or_pos k with rfl | hkpos
  · omega
  -- as many slices as this one has before it do not cover the document
  have hless : ¬h ≤ (k : Int) * H := fun hcovers =>
    absurd ((covers_pageCount hH hpos hle hsum).2 ⟨hkpos, hcovers⟩) (not_le.mpr (List.mem_range.mp hk))
  have hbound : (k : Int) * H ≤ 2 ^ 53 := by omega
  exact_mod_cast hbound

/-! ### All steps -/

/-- The pages of documents with some numbers of pages. -/
def pages (s : Sheet) (counts : List Nat) : List Page :=
  ((counts.flatMap List.range).zipIdx 1).map (s.page (counts.flatMap List.range).length)

theorem length_pages (counts : List Nat) : (s.pages counts).length = (counts.flatMap List.range).length := by
  rw [pages, List.length_map, List.length_zipIdx]

theorem notes_pages (counts : List Nat) :
    (s.pages counts).map Page.notes = (List.range (s.pages counts).length).map
      (fun k => [s!"第 {k + 1} / {(s.pages counts).length} 页"]) := by
  let note (n : Nat) : String := s!"第 {n} / {(counts.flatMap List.range).length} 页"
  rw [length_pages, pages, List.map_map]
  calc ((counts.flatMap List.range).zipIdx 1).map (Page.notes ∘ s.page _)
      = (((counts.flatMap List.range).zipIdx 1).map Prod.snd).map fun n => [note n] := by
        rw [List.map_map]
        rfl
    _ = (List.range _).map fun k => [note (k + 1)] := by
        rw [List.zipIdx_map_snd, List.range'_eq_map_range, List.map_map]
        simp only [Function.comp_def, Nat.add_comm 1]

theorem slices_pages (counts : List Nat) :
    (s.pages counts).map Page.slices = counts.flatMap fun n => (List.range n).map fun k => [s.sliceSpot k] := by
  rw [pages, List.map_map]
  calc ((counts.flatMap List.range).zipIdx 1).map (Page.slices ∘ s.page _)
      = (((counts.flatMap List.range).zipIdx 1).map Prod.fst).map fun k => [s.sliceSpot k] := by
        rw [List.map_map]
        rfl
    _ = counts.flatMap fun n => (List.range n).map fun k => [s.sliceSpot k] := by
        rw [List.zipIdx_map_fst, List.map_flatMap]

/-- The steps that open the file and print its documents bring one page after the other. -/
theorem drawn_printing (path : String) (documents : List (String × Double)) (h : s.textHeight.isZero = false) :
    ∃ steps, s.printing logo documents = (steps, .ok ()) ∧ drawn {} (opening path ++ steps) =
      some ⟨some (0, 0), [], (s.pages (documents.map fun d => s.pageCount d.2)).reverse⟩ := by
  refine ⟨_, by rw [printing, h]; rfl, ?_⟩
  have hstill : drawn {} (opening path ++ s.layOutAll (documents.map (·.1))) = some {} := by
    refine drawn_still fun x hx => ?_
    simp only [opening, layOutAll, List.mem_append, List.mem_cons, List.mem_flatMap, List.not_mem_nil, or_false] at hx
    rcases hx with (rfl | rfl | rfl) | ⟨html, -, rfl | rfl⟩ <;> rfl
  have hpages := s.drawn_drawPages logo ((documents.map fun d => s.pageCount d.2).flatMap List.range).length
    ((documents.map fun d => s.pageCount d.2).flatMap List.range) []
  rw [List.append_nil] at hpages
  rw [← List.append_assoc, ← List.append_assoc, List.append_assoc, drawn_append hstill, drawAll, foldl_add_eq_length]
  exact drawn_append hpages [.finish]

/-- A row more than one page can hold: it is lost in rounding, and the only page ends above it. -/
theorem last_row_left_out :
    let s : Sheet := ⟨.finite 700, .finite (2 ^ 52 + 142)⟩
    s.textHeight = .finite (2 ^ 52) ∧
      (drawn {} (s.printing none [("<p>", .finite (2 ^ 52 + 1))]).1).map (·.pages.map Page.slices) =
        some [[some ⟨54, 54, 0, 2 ^ 52⟩]] ∧
      ¬Covers (2 ^ 52) (2 ^ 52 + 1) 1 := by
  refine ⟨by decide +kernel, by decide +kernel, fun h => ?_⟩
  have hcovers := h.1.2
  norm_num at hcovers

end Sheet

end Report

namespace Workbench

open Report Report.Sheet

/-! ### The run of printing -/

variable {w : Workbench} {now : Double} (target : Path) {html : String} {logo : Option Path}

/-- The logo as far as the printer can draw it. -/
def drawnLogo (w : Workbench) (logo : Option Path) : Option String :=
  if w.printer.drawsImages then logo.map Path.toString else none

theorem run_draw (steps : List Drawing) (w : Workbench) :
    (draw steps).run w = (.ok (), { w with log.drawings := steps.reverse ++ w.log.drawings }) := rfl

theorem run_check {α : Type} {r : Except Fault α} {a : α} (h : r = .ok a) (w : Workbench) :
    (check r).run w = (.ok a, w) := by
  rw [h]
  rfl

/-- Printing takes the steps that open the file and those for the documents. -/
theorem run_print (hhtml : (w.report now).render .pdf = .ok html)
    (hlogo : monoLogoPath? w.disk w.appRoot = .ok logo) {steps : List Drawing}
    (hsteps : w.printer.sheet.printing (drawnLogo w logo) (w.printer.measure (splitPages html)).1 = (steps, .ok ())) :
    ((print now target).run w).1 = .ok () ∧ (after (print now target) w).log.drawings =
      (Sheet.opening target.toString ++ steps).reverse ++ w.log.drawings := by
  have hreport (log : Log) : ({ w with log } : Workbench).report now = w.report now := rfl
  have hprint : (print now target).run w = (.ok (), { w with
      printer := (w.printer.measure (splitPages html)).2
      log.drawings := steps.reverse ++ ((Sheet.opening target.toString).reverse ++ w.log.drawings) }) := by
    unfold print
    rw [run_bind_ok (run_draw _ _), run_bind_ok (run_get _)]
    dsimp only
    rw [hreport, run_bind_ok (run_check hhtml _), run_bind_ok (run_check hlogo _), ← drawnLogo, hsteps,
      run_bind_ok (run_draw _ _), run_bind_ok (run_modify _ _)]
    rfl
  rw [after_eq hprint, hprint]
  simp

/-- **Printing.** Every page has one slice of a document and its number. As long as the documents and
one more page are not higher than `2 ^ 53`, the slices of a document are the fewest that cover it. -/
theorem print_tiles {H : Nat} {heights : List Int} (hhtml : (w.report now).render .pdf = .ok html)
    (hlogo : monoLogoPath? w.disk w.appRoot = .ok logo) (hH : w.printer.sheet.textHeight = .finite H) (hpos : 0 < H)
    (hheights : (w.printer.measure (splitPages html)).1.map (·.2) = heights.map fun h : Int => .finite h) :
    ∃ (steps : List Drawing) (pages : List Page), ((print now target).run w).1 = .ok () ∧
      (after (print now target) w).log.drawings = steps.reverse ++ w.log.drawings ∧
      Canvas.drawn {} steps = some ⟨some (0, 0), [], pages.reverse⟩ ∧
      pages.map Page.notes = (List.range pages.length).map (fun k => [s!"第 {k + 1} / {pages.length} 页"]) ∧
      (∀ p ∈ pages, p.slices.length = 1) ∧
      ((∀ h ∈ heights, H ≤ 2 ^ 53 ∧ h + H ≤ 2 ^ 53) →
        ∃ counts, List.Forall₂ (Covers H) heights counts ∧ pages.map Page.slices = counts.flatMap (tiles H)) := by
  have hzero : w.printer.sheet.textHeight.isZero = false := by simp [hH, Double.isZero, Double.toRat?, hpos.ne']
  obtain ⟨steps, hsteps, hdrawn⟩ := drawn_printing (drawnLogo w logo) target.toString
    (w.printer.measure (splitPages html)).1 hzero
  obtain ⟨hrun, hlog⟩ := run_print target hhtml hlogo hsteps
  refine ⟨_, _, hrun, hlog, hdrawn, notes_pages _, fun p hp => ?_, fun hexact => ?_⟩
  · obtain ⟨x, -, rfl⟩ := List.mem_map.mp hp
    rfl
  · have hcounts : (w.printer.measure (splitPages html)).1.map (fun d => w.printer.sheet.pageCount d.2) =
        heights.map fun h : Int => w.printer.sheet.pageCount (.finite h) := by
      have h := congrArg (List.map w.printer.sheet.pageCount) hheights
      simpa only [List.map_map, Function.comp_def] using h
    rw [hcounts]
    refine ⟨heights.map fun h : Int => w.printer.sheet.pageCount (.finite h), ?_, ?_⟩
    · rw [List.forall₂_map_right_iff, List.forall₂_same]
      exact fun h hh => covers_pageCount hH hpos (hexact h hh).1 (hexact h hh).2
    · rw [slices_pages, List.flatMap_map, List.flatMap_map]
      exact List.flatMap_congr fun h hh => map_sliceSpot hH hpos (hexact h hh).1 (hexact h hh).2

/-- A short template on a small sheet, and a printer that tells a height above that of a page. -/
def twoPager : Workbench :=
  { blank ⟨.dir [("t", .dir [("pdf.html", .file (Utf8.encode "<p>"))])], []⟩ [] (fun _ _ => default) ⟨"/", []⟩
      ⟨⟨.finite 700, .finite 1000⟩, [.finite 1000], false⟩ with
    templateDir := ⟨"/", ["t"]⟩
    options := ⟨"", "", "", false, false, false, false, false⟩ }

theorem print_tiles_twoPager :
    ∃ (html : String) (logo : Option Path), (twoPager.report (.finite 0)).render .pdf = .ok html ∧
      monoLogoPath? twoPager.disk twoPager.appRoot = .ok logo ∧
      twoPager.printer.sheet.textHeight = .finite (858 : Nat) ∧
      (twoPager.printer.measure (splitPages html)).1.map (·.2) = [1000].map (fun h : Int => .finite h) ∧
      ∃ (steps : List Drawing) (pages : List Page) (counts : List Nat),
        (after (print (.finite 0) ⟨"/", ["r"]⟩) twoPager).log.drawings = steps.reverse ++ twoPager.log.drawings ∧
        Canvas.drawn {} steps = some ⟨some (0, 0), [], pages.reverse⟩ ∧
        List.Forall₂ (Covers 858) [1000] counts ∧ pages.map Page.slices = counts.flatMap (tiles 858) := by
  have hhtml : (twoPager.report (.finite 0)).render .pdf = .ok "<p>" := ok_of_orNothing (by decide +kernel)
  have hlogo : monoLogoPath? twoPager.disk twoPager.appRoot = .ok none := ok_of_orNothing (by decide +kernel)
  have hH : twoPager.printer.sheet.textHeight = .finite (858 : Nat) := by decide +kernel
  have hheights : (twoPager.printer.measure (splitPages "<p>")).1.map (·.2) = [1000].map (fun h : Int => .finite h) := by
    decide +kernel
  obtain ⟨steps, pages, -, hlog, hdrawn, -, -, htiles⟩ :=
    print_tiles ⟨"/", ["r"]⟩ hhtml hlogo hH (by decide) hheights
  obtain ⟨counts, hcounts, hslices⟩ := htiles (by simp)
  exact ⟨_, _, hhtml, hlogo, hH, hheights, steps, pages, counts, hlog, hdrawn, hcounts, hslices⟩

end Workbench

end SourceAudit
