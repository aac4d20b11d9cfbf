/-
# Which lines around the evidence are shown

The windows around lines of evidence are merged into windows that are in order and apart
(`ordered_mergeAll`), with the lines that are at most two away from evidence
(`exists_covers_iff_near`). The evidence need not be in order and may lie beyond the end
of the file: the windows are cut at both ends of the file, so they have lines of the file
only.

A merged window starts at a line of evidence that has no other one in the five lines
before it (`StartsWindow`), so the windows up to a line can be counted on the evidence
(`windowsUpTo`, `countP_merge`). Only the first four windows are kept, counted from the
start of the file, and the line of a finding has no better place than the others: it is
shown exactly if there are no more than four windows up to its own.
-/
import Mathlib.Data.Int.Order.Basic
import SourceAudit.Report.Evidence
import SourceAudit.Proofs.Text.Pieces

namespace SourceAudit.Report

variable {w : Window} {ws : List Window}

/-! ### The lines of evidence -/

theorem mem_insertLine {n k : Int} : ∀ {l : List Int}, k ∈ insertLine n l ↔ k = n ∨ k ∈ l
  | [] => by simp [insertLine]
  | m :: rest => by
    have ih := mem_insertLine (n := n) (k := k) (l := rest)
    unfold insertLine
    split_ifs with hlt heq
    · simp
    · simp [heq]
    · simp only [List.mem_cons, ih]
      tauto

theorem pairwise_insertLine {n : Int} : ∀ {l : List Int}, l.Pairwise (· < ·) → (insertLine n l).Pairwise (· < ·)
  | [], _ => List.pairwise_singleton _ n
  | m :: rest, h => by
    obtain ⟨hm, hrest⟩ := List.pairwise_cons.mp h
    unfold insertLine
    split_ifs with hlt heq
    · refine List.pairwise_cons.mpr ⟨fun k hk => ?_, h⟩
      rcases List.mem_cons.mp hk with rfl | hk
      · exact hlt
      · exact Int.lt_trans hlt (hm k hk)
    · exact h
    · refine List.pairwise_cons.mpr ⟨fun k hk => ?_, pairwise_insertLine hrest⟩
      rcases mem_insertLine.mp hk with rfl | hk
      · omega
      · exact hm k hk

section

variable {lines : List String} {line : Int} {f : Finding}

theorem mem_addEvidence {found : List Int} {token : String} {n : Int} :
    n ∈ addEvidence lines found token ↔ n ∈ found ∨ ∃ k : Nat, linesWith lines token = [k] ∧ n = k := by
  unfold addEvidence
  split
  · rename_i k hk
    rw [mem_insertLine, hk]
    simp [or_comm]
  · rename_i hne
    constructor
    · exact Or.inl
    · rintro (hn | ⟨k, hk, -⟩)
      · exact hn
      · exact absurd hk (hne k)

theorem pairwise_addEvidence {found : List Int} (h : found.Pairwise (· < ·)) (token : String) :
    (addEvidence lines found token).Pairwise (· < ·) := by
  unfold addEvidence
  split
  · exact pairwise_insertLine h
  · exact h

theorem mem_foldl_addEvidence {n : Int} : ∀ {tokens : List String} {found : List Int},
    n ∈ tokens.foldl (addEvidence lines) found ↔
      n ∈ found ∨ ∃ token ∈ tokens, ∃ k : Nat, linesWith lines token = [k] ∧ n = k
  | [], found => by simp
  | token :: tokens, found => by
    rw [List.foldl_cons, mem_foldl_addEvidence, mem_addEvidence, List.exists_mem_cons_iff, or_assoc]

/-- **The evidence is the line of the finding and each line that a token alone points to.** -/
theorem mem_evidenceLines {n : Int} : n ∈ evidenceLines lines line f ↔
    n = line ∨ ∃ token ∈ f.evidenceTokens, ∃ k : Nat, linesWith lines token = [k] ∧ n = k := by
  rw [evidenceLines, mem_foldl_addEvidence, List.mem_singleton]

theorem pairwise_evidenceLines : (evidenceLines lines line f).Pairwise (· < ·) :=
  List.foldlRecOn _ _ (List.pairwise_singleton _ line) fun _ h token _ => pairwise_addEvidence h token

theorem linesWith_bounds {token : String} {k : Nat} (h : k ∈ linesWith lines token) : 1 ≤ k ∧ k ≤ lines.length := by
  unfold linesWith at h
  split_ifs at h with hlong
  · exact absurd h List.not_mem_nil
  · obtain ⟨⟨s, i⟩, hx, hsome⟩ := List.mem_filterMap.mp h
    split_ifs at hsome with hpoints
    obtain rfl := Option.some.inj hsome
    have hge := List.le_snd_of_mem_zipIdx hx
    have hlt := List.snd_lt_of_mem_zipIdx hx
    simp only at hge hlt
    omega

theorem evidenceLines_bounds (hline : 1 ≤ line) (hlines : line ≤ lines.length) {n : Int}
    (h : n ∈ evidenceLines lines line f) : 1 ≤ n ∧ n ≤ lines.length := by
  rcases mem_evidenceLines.mp h with rfl | ⟨token, -, k, hk, rfl⟩
  · exact ⟨hline, hlines⟩
  · have hbounds := linesWith_bounds (hk ▸ List.mem_singleton_self k)
    omega

end

/-! ### Windows in order -/

def Window.Covers (w : Window) (k : Int) : Prop :=
  w.first ≤ k ∧ k ≤ w.last

/-- Each window has lines, and there is a line between it and the next one. -/
structure Ordered (ws : List Window) : Prop where
  filled : ∀ w ∈ ws, w.first ≤ w.last
  apart : ws.Pairwise fun a b => a.last + 1 < b.first

theorem Ordered.of_cons (h : Ordered (w :: ws)) : Ordered ws :=
  ⟨fun v hv => h.filled v (List.mem_cons_of_mem w hv), (List.pairwise_cons.mp h.apart).2⟩

/-- **The first windows are all those up to a line exactly if there are not too many of them.** -/
theorem exists_take_covers_iff {k : Int} : ∀ {ws : List Window} (n : Nat), Ordered ws → (∃ w ∈ ws, w.Covers k) →
    ((∃ w ∈ ws.take n, w.Covers k) ↔ ws.countP (fun w => w.first ≤ k) ≤ n)
  | [], n, _, h => by
    obtain ⟨w, hw, -⟩ := h
    exact absurd hw List.not_mem_nil
  | w :: ws, n, hord, h => by
    have hlater := (List.pairwise_cons.mp hord.apart).1
    by_cases hw : w.Covers k
    · have hnone : ws.countP (fun v => v.first ≤ k) = 0 := by
        refine List.countP_eq_zero.mpr fun v hv => ?_
        have hvlater := hlater v hv
        have hk := hw.2
        simp only [decide_eq_true_eq]
        omega
      rw [List.countP_cons_of_pos (by simpa using hw.1), hnone]
      cases n with
      | zero => simp
      | succ n => exact ⟨fun _ => by omega, fun _ => ⟨w, by simp, hw⟩⟩
    · obtain ⟨v, hv, hcovers⟩ := h
      have hvws : v ∈ ws := by
        rcases List.mem_cons.mp hv with rfl | hvws
        · exact absurd hcovers hw
        · exact hvws
      have hfirst : w.first ≤ k := by
        have hfilled := hord.filled w List.mem_cons_self
        have hvlater := hlater v hvws
        have hk := hcovers.1
        omega
      rw [List.countP_cons_of_pos (by simpa using hfirst)]
      cases n with
      | zero => simp
      | succ n =>
        have ih := exists_take_covers_iff n hord.of_cons ⟨v, hvws, hcovers⟩
        rw [List.take_succ_cons, List.exists_mem_cons_iff, Nat.add_le_add_iff_right, ← ih]
        simp [hw]

/-- The last one of the first windows ends at a line or later exactly if one of them has the line. -/
theorem le_last_take_iff {k : Int} {n : Nat} {v : Window} (hord : Ordered ws)
    (hcovers : ∃ w ∈ ws, w.Covers k) (hv : (ws.take n).getLast? = some v) :
    k ≤ v.last ↔ ∃ w ∈ ws.take n, w.Covers k := by
  have happart := hord.apart
  rw [← List.take_append_drop n ws, List.pairwise_append] at happart
  have hvmem := List.mem_of_getLast? hv
  constructor
  · intro hk
    obtain ⟨u, hu, hcovers⟩ := hcovers
    rw [← List.take_append_drop n ws, List.mem_append] at hu
    rcases hu with hu | hu
    · exact ⟨u, hu, hcovers⟩
    · have hlt := happart.2.2 v hvmem u hu
      have hfirst := hcovers.1
      omega
  · rintro ⟨w, hw, hcovers⟩
    obtain ⟨before, hbefore⟩ := List.getLast?_eq_some_iff.mp hv
    rw [hbefore] at hw happart
    have hk := hcovers.2
    rcases List.mem_append.mp hw with hw | hw
    · have hlt := (List.pairwise_append.mp happart.1).2.2 w hw v (List.mem_singleton_self v)
      have hfilled := hord.filled v (List.mem_of_mem_take hvmem)
      omega
    · rwa [List.mem_singleton.mp hw] at hk

/-! ### Merging -/

theorem forall_mem_merge {p : Window → Prop} (hjoin : ∀ a b, p a → p b → p ⟨a.first, max a.last b.last⟩) :
    ∀ {ws : List Window} {w : Window}, (∀ x ∈ w :: ws, p x) → ∀ v ∈ w.merge ws, p v
  | [], _, h => h
  | x :: ws, w, h => by
    obtain ⟨hw, hxs⟩ := List.forall_mem_cons.mp h
    unfold Window.merge
    split_ifs with htouch
    · obtain ⟨hx, hws⟩ := List.forall_mem_cons.mp hxs
      exact forall_mem_merge hjoin (List.forall_mem_cons.mpr ⟨hjoin w x hw hx, hws⟩)
    · exact List.forall_mem_cons.mpr ⟨hw, forall_mem_merge hjoin hxs⟩

theorem first_le_of_mem_merge {v : Window} (hle : ∀ x ∈ ws, w.first ≤ x.first)
    (hv : v ∈ w.merge ws) : w.first ≤ v.first :=
  forall_mem_merge (p := fun x => w.first ≤ x.first) (fun _ _ h _ => h)
    (List.forall_mem_cons.mpr ⟨le_rfl, hle⟩) v hv

/-- **Merged windows are apart.** -/
theorem ordered_merge : ∀ {ws : List Window} {w : Window}, w.first ≤ w.last → (∀ x ∈ ws, x.first ≤ x.last) →
    ws.Pairwise (fun a b => a.first ≤ b.first) → Ordered (w.merge ws)
  | [], w, hw, _, _ => ⟨fun v hv => by rwa [List.mem_singleton.mp hv], List.pairwise_singleton _ w⟩
  | x :: ws, w, hw, hfilled, hsorted => by
    obtain ⟨hlater, hsorted⟩ := List.pairwise_cons.mp hsorted
    have hx := hfilled x List.mem_cons_self
    have hws : ∀ y ∈ ws, y.first ≤ y.last := fun y hy => hfilled y (List.mem_cons_of_mem x hy)
    unfold Window.merge
    split_ifs with htouch
    · exact ordered_merge (w := ⟨w.first, max w.last x.last⟩) (hw.trans (le_max_left _ _)) hws hsorted
    · have ih := ordered_merge hx hws hsorted
      refine ⟨fun v hv => ?_, List.pairwise_cons.mpr ⟨fun v hv => ?_, ih.apart⟩⟩
      · rcases List.mem_cons.mp hv with rfl | hv
        · exact hw
        · exact ih.filled v hv
      · have hfirst := first_le_of_mem_merge hlater hv
        omega

/-- Merged windows have the lines of all windows and no others. -/
theorem exists_merge_covers_iff {k : Int} : ∀ {ws : List Window} {w : Window}, (∀ x ∈ ws, w.first ≤ x.first) →
    ws.Pairwise (fun a b => a.first ≤ b.first) → ((∃ v ∈ w.merge ws, v.Covers k) ↔ ∃ v ∈ w :: ws, v.Covers k)
  | [], w, _, _ => Iff.rfl
  | x :: ws, w, hle, hsorted => by
    have hx := hle x List.mem_cons_self
    obtain ⟨hlater, hsorted⟩ := List.pairwise_cons.mp hsorted
    simp only [List.exists_mem_cons_iff]
    unfold Window.merge
    split_ifs with htouch
    · have hboth : (⟨w.first, max w.last x.last⟩ : Window).Covers k ↔ w.Covers k ∨ x.Covers k := by
        simp only [Window.Covers]
        omega
      rw [exists_merge_covers_iff (w := ⟨w.first, max w.last x.last⟩) (fun y hy => hle y (List.mem_cons_of_mem x hy))
        hsorted, List.exists_mem_cons_iff, hboth, or_assoc]
    · rw [List.exists_mem_cons_iff, exists_merge_covers_iff hlater hsorted, List.exists_mem_cons_iff]

section

variable {evidence : List Int} {total n : Int}

theorem Window.le_iff {a b : Window} :
    Window.le a b = true ↔ a.first < b.first ∨ a.first = b.first ∧ a.last ≤ b.last := by
  simp [Window.le]

theorem covers_around {n : Int} (h : 1 ≤ n ∧ n ≤ total) : (Window.around total n).Covers n := by
  simp only [Window.Covers, Window.around]
  omega

theorem filled_around {n : Int} (h : 1 ≤ n ∧ n ≤ total) : (Window.around total n).first ≤ (Window.around total n).last :=
  (covers_around h).1.trans (covers_around h).2

def Window.mergeAll : List Window → List Window
  | [] => []
  | w :: ws => w.merge ws

def sortedWindows (evidence : List Int) (total : Int) : List Window :=
  ((evidence.filter (0 < ·)).map (Window.around total)).mergeSort Window.le

theorem windows_eq_take (evidence : List Int) (total : Int) :
    windows evidence total = (Window.mergeAll (sortedWindows evidence total)).take maxWindows := by
  unfold windows sortedWindows
  split
  · rename_i hnone
    rw [hnone]
    rfl
  · rename_i hsome
    rw [hsome]
    rfl

theorem mem_sortedWindows :
    w ∈ sortedWindows evidence total ↔ ∃ e ∈ evidence, 0 < e ∧ Window.around total e = w := by
  simp only [sortedWindows, List.mem_mergeSort, List.mem_map, List.mem_filter, decide_eq_true_eq, and_assoc]

theorem pairwise_sortedWindows (evidence : List Int) (total : Int) :
    (sortedWindows evidence total).Pairwise fun a b => a.first ≤ b.first := by
  refine (List.pairwise_mergeSort (fun a b c hab hbc => ?_) (fun a b => ?_) _).imp fun {a b} hab => ?_
  · rw [Window.le_iff] at hab hbc ⊢
    omega
  · rw [Bool.or_eq_true, Window.le_iff, Window.le_iff]
    omega
  · rw [Window.le_iff] at hab
    omega

/-- A window lies in the file as far as it has lines, wherever the evidence is. -/
theorem bounds_of_mem_windows (hw : w ∈ windows evidence total) : 1 ≤ w.first ∧ w.last ≤ total := by
  have haround : ∀ v ∈ sortedWindows evidence total, 1 ≤ v.first ∧ v.last ≤ total := by
    intro v hv
    obtain ⟨e, -, -, rfl⟩ := mem_sortedWindows.mp hv
    exact ⟨le_max_left _ _, min_le_left _ _⟩
  rw [windows_eq_take] at hw
  have hmem := List.mem_of_mem_take hw
  generalize sortedWindows evidence total = vs at haround hmem
  cases vs with
  | nil => exact absurd hmem List.not_mem_nil
  | cons v vs =>
    exact forall_mem_merge (p := fun v => 1 ≤ v.first ∧ v.last ≤ total)
      (fun _ _ ha hb => ⟨ha.1, max_le ha.2 hb.2⟩) haround w hmem

def Near (evidence : List Int) (n : Int) : Prop :=
  ∃ e ∈ evidence, e - 2 ≤ n ∧ n ≤ e + 2

section

variable (hin : ∀ e ∈ evidence, 1 ≤ e ∧ e ≤ total)

include hin

theorem ordered_mergeAll : Ordered (Window.mergeAll (sortedWindows evidence total)) := by
  have hsorted := pairwise_sortedWindows evidence total
  have hfilled : ∀ v ∈ sortedWindows evidence total, v.first ≤ v.last := by
    intro v hv
    obtain ⟨e, he, -, rfl⟩ := mem_sortedWindows.mp hv
    exact filled_around (hin e he)
  generalize sortedWindows evidence total = vs at hsorted hfilled
  cases vs with
  | nil => exact ⟨fun _ hw => absurd hw List.not_mem_nil, .nil⟩
  | cons v vs =>
    obtain ⟨hv, hvs⟩ := List.forall_mem_cons.mp hfilled
    exact ordered_merge hv hvs (List.pairwise_cons.mp hsorted).2

theorem exists_covers_iff_near (hn : 1 ≤ n ∧ n ≤ total) :
    (∃ w ∈ Window.mergeAll (sortedWindows evidence total), w.Covers n) ↔ Near evidence n := by
  have hmerge : (∃ w ∈ Window.mergeAll (sortedWindows evidence total), w.Covers n) ↔
      ∃ w ∈ sortedWindows evidence total, w.Covers n := by
    have hsorted := pairwise_sortedWindows evidence total
    generalize sortedWindows evidence total = vs at hsorted
    cases vs with
    | nil => exact Iff.rfl
    | cons v vs =>
      obtain ⟨hfirst, hrest⟩ := List.pairwise_cons.mp hsorted
      exact exists_merge_covers_iff hfirst hrest
  have haround : ∀ e, (Window.around total e).Covers n ↔ e - 2 ≤ n ∧ n ≤ e + 2 := by
    intro e
    simp only [Window.Covers, Window.around]
    omega
  rw [hmerge]
  constructor
  · rintro ⟨w, hw, hcovers⟩
    obtain ⟨e, he, -, rfl⟩ := mem_sortedWindows.mp hw
    exact ⟨e, he, (haround e).mp hcovers⟩
  · rintro ⟨e, he, hnear⟩
    exact ⟨_, mem_sortedWindows.mpr ⟨e, he, (hin e he).1, rfl⟩, (haround e).mpr hnear⟩

/-- The lines up to the end of the last window are in the windows as if none had been cut off. -/
theorem exists_windows_covers_iff {last : Window} (hlast : (windows evidence total).getLast? = some last)
    (hn : 1 ≤ n ∧ n ≤ last.last) : (∃ w ∈ windows evidence total, w.Covers n) ↔ Near evidence n := by
  have hend := (bounds_of_mem_windows (List.mem_of_getLast? hlast)).2
  rw [← exists_covers_iff_near hin ⟨hn.1, hn.2.trans hend⟩]
  rw [windows_eq_take] at hlast ⊢
  constructor
  · rintro ⟨w, hw, hcovers⟩
    exact ⟨w, List.mem_of_mem_take hw, hcovers⟩
  · exact fun hcovers => (le_last_take_iff (ordered_mergeAll hin) hcovers hlast).mp hn.2

end

end

/-! ### Counting windows on the evidence -/

def StartsWindow (evidence : List Int) (n : Int) : Prop :=
  ∀ m ∈ evidence, m < n → m + 5 < n

instance (evidence : List Int) (n : Int) : Decidable (StartsWindow evidence n) :=
  List.decidableBAll (fun m => m < n → m + 5 < n) evidence

def windowsUpTo (evidence : List Int) (line : Int) : Nat :=
  evidence.countP fun n => n ≤ line ∧ StartsWindow evidence n

section

variable {evidence : List Int} {total k : Int}

/-- The windows around lines that are in order have first lines that are in order. -/
theorem pairwise_around (total : Int) (h : evidence.Pairwise (· < ·)) :
    (evidence.map (Window.around total)).Pairwise fun a b => a.first ≤ b.first := by
  refine List.pairwise_map.mpr (h.imp fun {a b} hab => ?_)
  simp only [Window.around]
  omega

theorem startsWindow_iff {done ns : List Int} {m n : Int} (h : (done ++ m :: n :: ns).Pairwise (· < ·)) :
    StartsWindow (done ++ m :: n :: ns) n ↔ m + 5 < n := by
  obtain ⟨-, hnext, hdone⟩ := List.pairwise_append.mp h
  obtain ⟨hafter, hlater⟩ := List.pairwise_cons.mp hnext
  constructor
  · exact fun hstarts => hstarts m (by simp) (hafter n List.mem_cons_self)
  · intro hfar x hx hlt
    rcases List.mem_append.mp hx with hx | hx
    · have hxm := hdone x hx m List.mem_cons_self
      omega
    rcases List.mem_cons.mp hx with rfl | hx
    · exact hfar
    · rcases List.mem_cons.mp hx with rfl | hx
      · exact absurd hlt (lt_irrefl _)
      · exact absurd hlt ((List.pairwise_cons.mp hlater).1 x hx).not_gt

/-- **A merged window up to a line of evidence for each start up to it.** The window `w` ends two
lines after the evidence `m`. -/
theorem countP_merge : ∀ {ns done : List Int} {m : Int} {w : Window}, (done ++ m :: ns).Pairwise (· < ·) →
    (∀ n ∈ m :: ns, 1 ≤ n ∧ n ≤ total) → w.last = min total (m + 2) → w.first ≤ k → k ≤ m ∨ k ∈ ns →
    (w.merge (ns.map (Window.around total))).countP (fun v => v.first ≤ k) =
      ns.countP (fun n => n ≤ k ∧ StartsWindow (done ++ m :: ns) n) + 1
  | [], done, m, w, _, _, _, hfirst, _ => by
    simp [Window.merge, hfirst]
  | n :: ns, done, m, w, hsorted, hbounds, hlast, hfirst, hk => by
    obtain ⟨hafter, hlater⟩ := List.pairwise_cons.mp (List.pairwise_append.mp hsorted).2.1
    obtain ⟨hmb, hbounds⟩ := List.forall_mem_cons.mp hbounds
    have hmn := hafter n List.mem_cons_self
    have hnb := hbounds n List.mem_cons_self
    have hstarts := startsWindow_iff hsorted
    have hk' : k ≤ n ∨ k ∈ ns := by
      rcases hk with hle | hmem
      · exact Or.inl (by omega)
      · exact (List.mem_cons.mp hmem).imp_left le_of_eq
    have htouches : (Window.around total n).first ≤ w.last + 1 ↔ n ≤ m + 5 := by
      rw [hlast]
      simp only [Window.around]
      omega
    rw [List.append_cons] at hsorted ⊢
    rw [List.map_cons, Window.merge]
    split_ifs with htouch
    · have hno : ¬m + 5 < n := by omega
      rw [List.countP_cons_of_neg (by simp [hstarts, hno])]
      refine countP_merge hsorted hbounds ?_ hfirst hk'
      simp only [hlast, Window.around]
      omega
    · have hfar : m + 5 < n := by omega
      rw [List.countP_cons_of_pos (by simpa using hfirst)]
      rcases hk with hle | hmem
      · -- the line is before the next window, and so before all that follow
        have hwindows : ((Window.around total n).merge (ns.map (Window.around total))).countP
            (fun v => v.first ≤ k) = 0 := by
          refine List.countP_eq_zero.mpr fun v hv => ?_
          have hvfirst := first_le_of_mem_merge (List.pairwise_cons.mp (pairwise_around total hlater)).1 hv
          simp only [Window.around] at hvfirst
          simp only [decide_eq_true_eq]
          omega
        have hlines : (n :: ns).countP (fun x => x ≤ k ∧ StartsWindow (done ++ [m] ++ n :: ns) x) = 0 := by
          refine List.countP_eq_zero.mpr fun x hx => ?_
          have hmx := hafter x hx
          simp only [decide_eq_true_eq, not_and]
          omega
        rw [hwindows, hlines]
      · have hnk : n ≤ k := by
          rcases List.mem_cons.mp hmem with rfl | hmem
          · exact le_rfl
          · exact ((List.pairwise_cons.mp hlater).1 k hmem).le
        rw [List.countP_cons_of_pos (by simp [hnk, hstarts, hfar]), countP_merge hsorted hbounds rfl ?_ hk']
        simp only [Window.around]
        omega

theorem sortedWindows_eq_map (hsorted : evidence.Pairwise (· < ·)) (hpos : ∀ n ∈ evidence, 1 ≤ n) :
    sortedWindows evidence total = evidence.map (Window.around total) := by
  have hfilter : evidence.filter (0 < ·) = evidence :=
    List.filter_eq_self.mpr fun n hn => decide_eq_true (hpos n hn)
  have hle : (evidence.map (Window.around total)).Pairwise fun a b => Window.le a b := by
    refine List.pairwise_map.mpr (hsorted.imp fun {a b} hab => ?_)
    rw [Window.le_iff]
    simp only [Window.around]
    omega
  rw [sortedWindows, hfilter, List.mergeSort_of_pairwise hle]

variable (hsorted : evidence.Pairwise (· < ·)) (hbounds : ∀ n ∈ evidence, 1 ≤ n ∧ n ≤ total) (hk : k ∈ evidence)

include hsorted hbounds hk

/-- The windows are the first ones of windows in order that have each line of evidence, and as many up
to it as there are starts. -/
theorem exists_merged :
    ∃ ws, windows evidence total = ws.take maxWindows ∧ Ordered ws ∧ (∃ w ∈ ws, w.Covers k) ∧
      ws.countP (fun w => w.first ≤ k) = windowsUpTo evidence k := by
  refine ⟨_, windows_eq_take evidence total, ordered_mergeAll hbounds,
    (exists_covers_iff_near hbounds (hbounds k hk)).mpr ⟨k, hk, by omega, by omega⟩, ?_⟩
  rw [sortedWindows_eq_map hsorted fun n hn => (hbounds n hn).1]
  cases evidence with
  | nil => exact absurd hk List.not_mem_nil
  | cons m ns =>
    have hm := hbounds m List.mem_cons_self
    obtain ⟨hafter, -⟩ := List.pairwise_cons.mp hsorted
    have hmk : m ≤ k := by
      rcases List.mem_cons.mp hk with rfl | hk
      · exact le_rfl
      · exact (hafter k hk).le
    -- the first line of evidence starts the first window
    have hstarts : StartsWindow (m :: ns) m := by
      intro n hn hlt
      rcases List.mem_cons.mp hn with rfl | hn
      · exact absurd hlt (lt_irrefl _)
      · exact absurd hlt (hafter n hn).not_gt
    have hall : ([] ++ m :: ns).Pairwise (· < ·) := hsorted
    have hcount := countP_merge (k := k) hall hbounds rfl
      ((covers_around hm).1.trans hmk) ((List.mem_cons.mp hk).imp_left le_of_eq)
    rw [windowsUpTo, List.countP_cons_of_pos (by simp [hmk, hstarts])]
    exact hcount

/-- **A line of evidence is in one of the windows exactly if there are at most four up to it.** -/
theorem exists_covers_iff : (∃ w ∈ windows evidence total, w.Covers k) ↔ windowsUpTo evidence k ≤ maxWindows := by
  obtain ⟨ws, hwindows, hord, hcovers, hcount⟩ := exists_merged hsorted hbounds hk
  rw [hwindows, exists_take_covers_iff maxWindows hord hcovers, hcount]

/-- The windows end at a line of evidence or later exactly if there are at most four up to it. -/
theorem exists_last_iff :
    ∃ w, (windows evidence total).getLast? = some w ∧ (k ≤ w.last ↔ windowsUpTo evidence k ≤ maxWindows) := by
  obtain ⟨ws, hwindows, hord, hcovers, hcount⟩ := exists_merged hsorted hbounds hk
  have hne : ws.take maxWindows ≠ [] := by
    obtain ⟨w, hw, -⟩ := hcovers
    exact fun hnil => List.ne_nil_of_mem hw ((List.take_eq_nil_iff.mp hnil).resolve_left (by decide))
  have hlast := List.getLast?_eq_some_getLast hne
  rw [hwindows]
  refine ⟨_, hlast, ?_⟩
  rw [le_last_take_iff hord hcovers hlast, exists_take_covers_iff maxWindows hord hcovers, hcount]

end

/-! ### What is shown -/

def SnippetRow.write (r : SnippetRow) : Medium → String
  | .html => r.toHtml
  | .plain => r.toPlain

theorem exists_join_eq (sep : String) {t : String} : ∀ {texts : List String}, t ∈ texts →
    ∃ before after, Text.join sep texts = before ++ t ++ after
  | [s], h => ⟨"", "", by
    rw [List.mem_singleton.mp h, Text.join_singleton]
    simp⟩
  | s :: s' :: texts, h => by
    rw [Text.join_cons_cons]
    rcases List.mem_cons.mp h with rfl | h
    · exact ⟨"", sep ++ Text.join sep (s' :: texts), by simp⟩
    · obtain ⟨before, after, heq⟩ := exists_join_eq sep h
      exact ⟨s ++ sep ++ before, after, by simp only [heq, String.append_assoc]⟩

theorem exists_wrapped_join_eq {sep t : String} {texts : List String} (h : t ∈ texts) (head tail : String) :
    ∃ before after, head ++ Text.join sep texts ++ tail = before ++ t ++ after := by
  obtain ⟨before, after, heq⟩ := exists_join_eq sep h
  exact ⟨head ++ before, after ++ tail, by simp only [heq, String.append_assoc]⟩

theorem Snippet.exists_write_eq {s : Snippet} {r : SnippetRow} (h : r ∈ s.rows) (m : Medium) :
    ∃ before after, s.write m = before ++ r.write m ++ after := by
  cases m with
  | html => exact exists_wrapped_join_eq (List.mem_map_of_mem h) _ _
  | plain => exact exists_wrapped_join_eq (List.mem_map_of_mem h) _ _

theorem Window.mem_lines {n : Int} : n ∈ w.lines ↔ w.Covers n := by
  simp only [Window.lines, Window.Covers, List.mem_map, List.mem_range]
  constructor
  · rintro ⟨k, hk, rfl⟩
    omega
  · intro h
    exact ⟨(n - w.first).toNat, by omega, by omega⟩

section

variable {lines : List String} {evidence : List Int} {n : Int} {hit : Bool} {content : String}

theorem mem_windowRows : .line n hit content ∈ windowRows lines evidence w ↔
    w.Covers n ∧ evidence.contains n = hit ∧ lines.getD (n - 1).toNat "" = content := by
  rw [windowRows, List.mem_map]
  simp only [SnippetRow.line.injEq, Window.mem_lines]
  constructor
  · rintro ⟨k, hk, rfl, hhit, hcontent⟩
    exact ⟨hk, hhit, hcontent⟩
  · rintro ⟨hk, hhit, hcontent⟩
    exact ⟨n, hk, rfl, hhit, hcontent⟩

theorem mem_snippetRows : ∀ {ws : List Window}, .line n hit content ∈ snippetRows lines evidence ws ↔
    (∃ w ∈ ws, w.Covers n) ∧ evidence.contains n = hit ∧ lines.getD (n - 1).toNat "" = content
  | [] => by simp [snippetRows]
  | [w] => by simp [snippetRows, mem_windowRows]
  | w :: w' :: ws => by
    have hrows : snippetRows lines evidence (w :: w' :: ws) =
        windowRows lines evidence w ++ .gap :: snippetRows lines evidence (w' :: ws) := rfl
    have hmem := List.exists_mem_cons_iff (fun v : Window => v.Covers n) w (w' :: ws)
    rw [hrows, List.mem_append, List.mem_cons, mem_windowRows, mem_snippetRows, hmem]
    simp only [reduceCtorEq, false_or]
    tauto

theorem content_of_mem_snippetRows
    (h : .line n hit content ∈ snippetRows lines evidence (windows evidence lines.length)) :
    lines[(n - 1).toNat]? = some content := by
  obtain ⟨⟨w, hw, hfirst, hlast⟩, -, rfl⟩ := mem_snippetRows.mp h
  have hbounds := bounds_of_mem_windows hw
  have hlt : (n - 1).toNat < lines.length := by omega
  rw [List.getD_eq_getElem?_getD, List.getElem?_eq_getElem hlt, Option.getD_some]

end

/-- **Windows of evidence.** There are at most four, and they have lines of the file only, so that each row
of a snippet has the content of its line. If the evidence lies in the file, the windows are not empty, in
order, and with a line between them that is in none; and a line up to the end of the last window is in one of
them exactly if it is at most two away from a line of evidence, which holds of all lines of the file if there
are fewer than four windows. -/
theorem windows_around_evidence (evidence : List Int) (total : Nat) :
    (windows evidence total).length ≤ 4 ∧
    (∀ w ∈ windows evidence total, ∀ n ∈ w.lines, 1 ≤ n ∧ n ≤ (total : Int)) ∧
    (∀ lines : List String, lines.length = total → ∀ n hit content,
      .line n hit content ∈ snippetRows lines evidence (windows evidence total) →
        lines[(n - 1).toNat]? = some content) ∧
    ((∀ e ∈ evidence, 1 ≤ e ∧ e ≤ (total : Int)) →
      (∀ w ∈ windows evidence total, w.lines ≠ []) ∧
      (windows evidence total).Pairwise (fun a b => a.last + 1 < b.first) ∧
      (∀ last, (windows evidence total).getLast? = some last → ∀ n, 1 ≤ n → n ≤ last.last →
        ((∃ w ∈ windows evidence total, n ∈ w.lines) ↔ Near evidence n)) ∧
      ((windows evidence total).length < 4 → ∀ n, 1 ≤ n → n ≤ (total : Int) →
        ((∃ w ∈ windows evidence total, n ∈ w.lines) ↔ Near evidence n))) := by
  simp only [Window.mem_lines]
  refine ⟨?_, fun w hw n hn => ?_, ?_, fun hin => ?_⟩
  · rw [windows_eq_take, List.length_take]
    exact Nat.min_le_left _ _
  · have hbounds := bounds_of_mem_windows hw
    exact ⟨hbounds.1.trans hn.1, hn.2.trans hbounds.2⟩
  · rintro lines rfl n hit content hrow
    exact content_of_mem_snippetRows hrow
  have hord := ordered_mergeAll hin
  refine ⟨fun w hw hnone => ?_, ?_, fun last hlast n hone hle => exists_windows_covers_iff hin hlast ⟨hone, hle⟩,
    fun hfew n hone hle => ?_⟩
  · rw [windows_eq_take] at hw
    have hfirst := Window.mem_lines.mpr ⟨le_rfl, hord.filled w (List.mem_of_mem_take hw)⟩
    exact List.ne_nil_of_mem hfirst hnone
  · rw [windows_eq_take]
    exact hord.apart.sublist (List.take_sublist _ _)
  · have hall : windows evidence total = Window.mergeAll (sortedWindows evidence total) := by
      rw [windows_eq_take, List.length_take, maxWindows] at hfew
      rw [windows_eq_take, List.take_of_length_le]
      unfold maxWindows
      omega
    rw [hall]
    exact exists_covers_iff_near hin ⟨hone, hle⟩

/-- Evidence beyond the end of the file makes a window without lines. -/
theorem windows_around_evidence_fourLines :
    windows [2, 9] 4 = [⟨1, 4⟩, ⟨7, 4⟩] ∧ (windows [2, 9] 4).length ≤ 4 ∧
      ((∃ w ∈ windows [1, 8] 10, 4 ∈ w.lines) ↔ Near [1, 8] 4) := by
  have hsorted : windows [2, 9] 4 = [⟨1, 4⟩, ⟨7, 4⟩] := by
    rw [windows_eq_take, sortedWindows_eq_map (by decide) (by decide)]
    rfl
  have hfew : (windows [1, 8] 10).length < 4 := by
    rw [windows_eq_take, sortedWindows_eq_map (by decide) (by decide)]
    decide
  exact ⟨hsorted, (windows_around_evidence [2, 9] 4).1,
    ((windows_around_evidence [1, 8] 10).2.2.2 (by decide)).2.2.2 hfew 4 (by decide) (by decide)⟩

/-- A finding has a line of a file that can be read. -/
structure PointsInto (d : Disk) (f : Finding) (path : String) (line : Int) (lines : List String) : Prop where
  named : path ≠ ""
  read : sourceLines? d path = .ok (some lines)
  line_eq : f.line = .ok line
  pos : 1 ≤ line
  le_length : line ≤ lines.length

def hitRow (lines : List String) (line : Int) : SnippetRow :=
  .line line true (lines.getD (line - 1).toNat "")

section

variable {d : Disk} {f : Finding} {path : String} {line : Int} {lines : List String}

theorem PointsInto.bounds (h : PointsInto d f path line lines) :
    ∀ n ∈ evidenceLines lines line f, 1 ≤ n ∧ n ≤ (lines.length : Int) :=
  fun _ hn => evidenceLines_bounds h.pos h.le_length hn

theorem mem_evidenceLines_self : line ∈ evidenceLines lines line f :=
  mem_evidenceLines.mpr (Or.inl rfl)

/-- The code of a finding shows its line exactly if there are at most four windows up to it. -/
theorem PointsInto.exists_snippet (h : PointsInto d f (Text.strip (f.text "absolutePath" "")) line lines) :
    ∃ s, f.snippet? d = .ok (some s) ∧
      (hitRow lines line ∈ s.rows ↔ windowsUpTo (evidenceLines lines line f) line ≤ maxWindows) := by
  have hnamed : (Text.strip (f.text "absolutePath" "") == "") = false := beq_eq_false_iff_ne.mpr h.named
  have hpos : ¬line ≤ 0 := by
    have hline := h.pos
    omega
  refine ⟨⟨languageName (.ofString (Text.strip (f.text "absolutePath" ""))),
    snippetRows lines (evidenceLines lines line f) (windows (evidenceLines lines line f) lines.length)⟩, ?_, ?_⟩
  · simp [Finding.snippet?, hnamed, h.line_eq, h.read, hpos, bind, Except.bind, pure, Except.pure]
  · have hcontains : (evidenceLines lines line f).contains line = true :=
      List.contains_iff_mem.mpr mem_evidenceLines_self
    rw [hitRow, mem_snippetRows, hcontains, exists_covers_iff pairwise_evidenceLines h.bounds mem_evidenceLines_self]
    simp

/-- A file with a line, and with the last line if that is another one. -/
def placeText (file : String) (line last : Int) : String :=
  if last = line then s!"/{file}:{line}" else s!"/{file}:{line}-{last}"

theorem replaceAll_slash_ne {s : String} (h : s ≠ "") : Text.replaceAll s "\\" "/" ≠ "" := by
  have hs : s.toList ≠ [] := fun hnil => h (String.toList_eq_nil_iff.mp hnil)
  obtain ⟨c, cs, hcs⟩ := List.exists_cons_of_ne_nil hs
  intro hempty
  have hnil : (Text.replaceAll s "\\" "/").toList = [] := by
    rw [hempty]
    rfl
  rw [Text.toList_replaceAll, hcs, Text.replaced_cons] at hnil
  split_ifs at hnil
  exact absurd (List.append_eq_nil_iff.mp hnil).1 (by decide)

/-- The place of a finding ends at its line or later exactly if there are at most four windows up to
it. -/
theorem PointsInto.exists_location (h : PointsInto d f (f.text "absolutePath" "") line lines)
    (hfile : f.textOr "file" "" ≠ "") :
    ∃ last, f.location d = .ok (placeText (Text.replaceAll (f.textOr "file" "") "\\" "/") line last) ∧
      (line ≤ last ↔ windowsUpTo (evidenceLines lines line f) line ≤ maxWindows) := by
  have hnamed := beq_eq_false_iff_ne.mpr (replaceAll_slash_ne hfile)
  have hpos : ¬line ≤ 0 := by
    have hline := h.pos
    omega
  obtain ⟨w, hlast, hiff⟩ := exists_last_iff pairwise_evidenceLines h.bounds (mem_evidenceLines_self (f := f))
  refine ⟨w.last, ?_, hiff⟩
  simp [Finding.location, hnamed, h.line_eq, h.read, hpos, evidenceWindows, hlast, placeText, bind, Except.bind,
    pure, Except.pure]

/-- **The line of a finding is shown exactly if there are at most four windows up to it**, in its code as
well as in its place. -/
theorem line_shown_iff (d : Disk) (f : Finding) (line : Int) (lines : List String) :
    (PointsInto d f (Text.strip (f.text "absolutePath" "")) line lines →
      ∃ s, f.snippet? d = .ok (some s) ∧ (∀ m, f.code d m = .ok (s.write m)) ∧
        (hitRow lines line ∈ s.rows ↔ windowsUpTo (evidenceLines lines line f) line ≤ maxWindows) ∧
        (hitRow lines line ∈ s.rows → ∀ m, ∃ before after, s.write m = before ++ (hitRow lines line).write m ++ after)) ∧
    (PointsInto d f (f.text "absolutePath" "") line lines → f.textOr "file" "" ≠ "" →
      ∃ last, f.location d = .ok (placeText (Text.replaceAll (f.textOr "file" "") "\\" "/") line last) ∧
        (line ≤ last ↔ windowsUpTo (evidenceLines lines line f) line ≤ maxWindows)) := by
  refine ⟨fun h => ?_, fun h hfile => h.exists_location hfile⟩
  obtain ⟨s, hsnippet, hiff⟩ := h.exists_snippet
  refine ⟨s, hsnippet, fun m => ?_, hiff, fun hrow m => Snippet.exists_write_eq hrow m⟩
  rw [Finding.code, hsnippet]
  rfl

end

/-- A file with five calls, each six lines after the one before. -/
def fiveCalls : String :=
  "alpha();\n\n\n\n\n\nbeta();\n\n\n\n\n\ngamma();\n\n\n\n\n\ndelta();\n\n\n\n\n\neval(x)\n\n"

def fiveCallsDisk : Disk :=
  ⟨.dir [("a.py", .file (Utf8.encode fiveCalls))], []⟩

/-- A finding in a line of the file, with all the calls as evidence. -/
def inFiveCalls (line : Int) : Finding :=
  [("file", .str "a.py"), ("absolutePath", .str "a.py"), ("line", .int line), ("match", .str "eval(x)"),
    ("details", .object [("sources", .list [.str "alpha()", .str "beta()"]),
      ("transforms", .list [.str "gamma()", .str "delta()"])])]

theorem pointsInto_fiveCalls {line : Int} (hline : line = 19 ∨ line = 25) :
    PointsInto fiveCallsDisk (inFiveCalls line) "a.py" line (Text.lines fiveCalls) where
  named := by decide
  read := by decide +kernel
  line_eq := by
    rcases hline with rfl | rfl <;> rfl
  pos := by omega
  le_length := by
    have hlength : (Text.lines fiveCalls).length = 26 := by decide +kernel
    omega

theorem line_shown_iff_fiveCalls :
    (∃ s, (inFiveCalls 19).snippet? fiveCallsDisk = .ok (some s) ∧ hitRow (Text.lines fiveCalls) 19 ∈ s.rows) ∧
      ∃ last, (inFiveCalls 19).location fiveCallsDisk = .ok (placeText "a.py" 19 last) ∧ 19 ≤ last := by
  have hpoints := pointsInto_fiveCalls (Or.inl rfl)
  have hfew : windowsUpTo (evidenceLines (Text.lines fiveCalls) 19 (inFiveCalls 19)) 19 ≤ maxWindows := by
    decide +kernel
  obtain ⟨hsnippet, hlocation⟩ := line_shown_iff fiveCallsDisk (inFiveCalls 19) 19 (Text.lines fiveCalls)
  obtain ⟨s, hs, -, hiff, -⟩ := hsnippet hpoints
  obtain ⟨last, hplace, hle⟩ := hlocation hpoints (by decide)
  exact ⟨⟨s, hs, hiff.mpr hfew⟩, last, hplace, hle.mpr hfew⟩

/-- The line of the fifth call is not shown, and the place of the finding in it ends before it. -/
theorem fifth_window_dropped :
    (∃ s, (inFiveCalls 25).snippet? fiveCallsDisk = .ok (some s) ∧ hitRow (Text.lines fiveCalls) 25 ∉ s.rows) ∧
      ∃ last, (inFiveCalls 25).location fiveCallsDisk = .ok (placeText "a.py" 25 last) ∧ last < 25 := by
  have hpoints := pointsInto_fiveCalls (Or.inr rfl)
  have hmany : ¬windowsUpTo (evidenceLines (Text.lines fiveCalls) 25 (inFiveCalls 25)) 25 ≤ maxWindows := by
    decide +kernel
  obtain ⟨s, hs, hiff⟩ := hpoints.exists_snippet
  obtain ⟨last, hplace, hle⟩ := hpoints.exists_location (by decide)
  exact ⟨⟨s, hs, fun hrow => hmany (hiff.mp hrow)⟩, last, hplace, not_le.mp fun hlast => hmany (hle.mp hlast)⟩

end SourceAudit.Report
