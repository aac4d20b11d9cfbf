/-
# Reading what was written

A legible value that is written over several lines or on one is read back
(`read_writePretty`, `read_write`). The two ways to write differ in the blanks between
the parts, and one induction serves every such layout (`value_laid`). All that stands
behind a value in a layout ends a number (`Closed`). The reader counts its steps; a text
has more characters than its reading takes steps, so the induction carries only the
length of the text.

In the other direction, whatever the reader reads has different names in each object
(`distinct_of_read`): a name that comes again replaces the value that it had.
-/
import SourceAudit.Proofs.Text.Pieces
import SourceAudit.Proofs.Value.Scalars

namespace SourceAudit.Json

variable {c : Char} {gap : List Char}

/-! ### Layout -/

theorem isSpace_blank : isSpace ' ' = true := by decide

theorem skipSpace_cons (h : isSpace c = false) (cs : List Char) : skipSpace (c :: cs) = c :: cs := by
  simp [skipSpace, h]

/-- Characters that are passed over between the parts of a text. -/
def Gap (gap : List Char) : Prop := ∀ c ∈ gap, isSpace c = true

theorem skipSpace_gap_cons (h : Gap gap) (hc : isSpace c = false) (cs : List Char) :
    skipSpace (gap ++ c :: cs) = c :: cs := by
  rw [skipSpace, List.dropWhile_append_of_pos h]
  exact skipSpace_cons hc cs

theorem closed_gap_cons (h : Gap gap) (hc : isNumeral c = false) (cs : List Char) : Closed (gap ++ c :: cs) := by
  cases gap with
  | nil => exact closed_cons cs hc
  | cons blank gap =>
    have hblank : isSpace blank = true := h blank List.mem_cons_self
    simp only [isSpace, Bool.or_eq_true, beq_iff_eq] at hblank
    rcases hblank with ((rfl | rfl) | rfl) | rfl <;> exact closed_cons _ (by decide)

theorem closed_comma (cs : List Char) : Closed (',' :: cs) := closed_cons cs (by decide)

/-- What stands between the parts of a text at a level: behind an opening bracket, behind a comma, and
before a closing bracket. -/
structure Layout where
  opening : Nat → List Char
  comma : Nat → List Char
  closing : Nat → List Char

/-- Nothing that counts stands between the parts. -/
structure Layout.Blank (l : Layout) : Prop where
  opening : ∀ level, Gap (l.opening level)
  comma : ∀ level, Gap (l.comma level)
  closing : ∀ level, Gap (l.closing level)

def joined (comma : List Char) : List (List Char) → List Char
  | [] => []
  | [part] => part
  | part :: next :: parts => part ++ ',' :: (comma ++ joined comma (next :: parts))

def bracketed (l : Layout) (level : Nat) (a b : Char) : List (List Char) → List Char
  | [] => [a, b]
  | part :: parts =>
    a :: (l.opening level ++ (joined (l.comma (level + 1)) (part :: parts) ++ (l.closing level ++ [b])))

mutual

def laid (l : Layout) (level : Nat) : Value → List Char
  | .list items => bracketed l level '[' ']' (laidItems l (level + 1) items)
  | .object fields => bracketed l level '\x7b' '\x7d' (laidFields l (level + 1) fields)
  | v => (writeScalar false v).toList

def laidItems (l : Layout) (level : Nat) : List Value → List (List Char)
  | [] => []
  | v :: items => laid l level v :: laidItems l level items

def laidFields (l : Layout) (level : Nat) : List (String × Value) → List (List Char)
  | [] => []
  | (name, v) :: fields =>
    ((writeString false name).toList ++ ':' :: ' ' :: laid l level v) :: laidFields l level fields

end

section

variable (l : Layout) (level : Nat)

theorem laidItems_eq_map (items : List Value) : laidItems l level items = items.map (laid l level) := by
  induction items with
  | nil => rfl
  | cons v items ih => rw [laidItems, ih, List.map_cons]

/-- A field of an object: its name and its value. -/
def laidField (f : String × Value) : List Char :=
  (writeString false f.1).toList ++ ':' :: ' ' :: laid l level f.2

theorem laidFields_eq_map (fields : Fields) : laidFields l level fields = fields.map (laidField l level) := by
  induction fields with
  | nil => rfl
  | cons f fields ih =>
    rw [laidFields, ih]
    rfl

end

theorem toList_join (sep : String) : ∀ parts : List String,
    (Text.join ("," ++ sep) parts).toList = joined sep.toList (parts.map String.toList)
  | [] => rfl
  | [part] => by rw [Text.join_singleton, List.map_singleton, joined]
  | part :: next :: parts => by
    have ih := toList_join sep (next :: parts)
    rw [List.map_cons] at ih
    simp [Text.join_cons_cons, joined, ih]

/-- Over several lines: each part on a line of its own. -/
def overLines : Layout where
  opening level := (newline (level + 1)).toList
  comma level := (newline level).toList
  closing level := (newline level).toList

/-- On one line: a blank behind each comma. -/
def onLine : Layout where
  opening _ := []
  comma _ := [' ']
  closing _ := []

theorem gap_newline (level : Nat) : Gap (newline level).toList := by
  intro c hc
  simp only [newline, String.toList_append, String.toList_ofList, List.mem_append, List.mem_replicate] at hc
  rcases hc with hc | ⟨-, rfl⟩
  · rw [List.mem_singleton.mp hc]
    decide
  · decide

theorem blank_overLines : overLines.Blank :=
  ⟨fun level => gap_newline (level + 1), gap_newline, gap_newline⟩

theorem blank_onLine : onLine.Blank where
  opening _ _ hc := absurd hc List.not_mem_nil
  comma _ _ hc := by
    rw [List.mem_singleton.mp hc]
    exact isSpace_blank
  closing _ _ hc := absurd hc List.not_mem_nil

mutual

theorem toList_writeLayout : ∀ (v : Value) (level : Nat), (writeLayout level v).toList = laid overLines level v
  | .list [], _ | .object [], _ => by simp [writeLayout, laid, laidItems, laidFields, bracketed]
  | .list (v :: items), level => by
    have hitems := toList_layoutItems (v :: items) (level + 1)
    simp [writeLayout, laid, bracketed, toList_join, hitems, laidItems, overLines]
  | .object (f :: fields), level => by
    have hfields := toList_layoutFields (f :: fields) (level + 1)
    simp [writeLayout, laid, bracketed, toList_join, hfields, laidFields, overLines]
  | .null, _ | .bool _, _ | .int _, _ | .real _, _ | .str _, _ => by simp only [writeLayout, laid]

theorem toList_layoutItems : ∀ (items : List Value) (level : Nat),
    (layoutItems level items).map String.toList = laidItems overLines level items
  | [], _ => rfl
  | v :: items, level => by
    rw [layoutItems, laidItems, List.map_cons, toList_writeLayout v, toList_layoutItems items]

theorem toList_layoutFields : ∀ (fields : List (String × Value)) (level : Nat),
    (layoutFields level fields).map String.toList = laidFields overLines level fields
  | [], _ => rfl
  | (name, v) :: fields, level => by simp [layoutFields, laidFields, toList_writeLayout v, toList_layoutFields fields]

end

mutual

theorem toList_writeLine : ∀ (v : Value) (level : Nat), (writeLine false v).toList = laid onLine level v
  | .list items, level => by
    have hitems := toList_lineItems items (level + 1)
    have hjoin := toList_join " " (lineItems false items)
    cases items <;> simp_all [writeLine, laid, bracketed, joined, laidItems, onLine]
  | .object fields, level => by
    have hfields := toList_lineFields fields (level + 1)
    have hjoin := toList_join " " (lineFields false fields)
    cases fields <;> simp_all [writeLine, laid, bracketed, joined, laidFields, onLine]
  | .null, _ | .bool _, _ | .int _, _ | .real _, _ | .str _, _ => by simp only [writeLine, laid]

theorem toList_lineItems : ∀ (items : List Value) (level : Nat),
    (lineItems false items).map String.toList = laidItems onLine level items
  | [], _ => rfl
  | v :: items, level => by
    rw [lineItems, laidItems, List.map_cons, toList_writeLine v level, toList_lineItems items level]

theorem toList_lineFields : ∀ (fields : List (String × Value)) (level : Nat),
    (lineFields false fields).map String.toList = laidFields onLine level fields
  | [], _ => rfl
  | (name, v) :: fields, level => by
    simp [lineFields, laidFields, toList_writeLine v level, toList_lineFields fields level]

end

/-! ### One step of the reader -/

theorem value_list {cs inside : List Char} (hskip : skipSpace cs = inside) (hstarts : Starts inside) (fuel : Nat) :
    value (fuel + 1) ('[' :: cs) = listItems fuel [] inside := by
  obtain ⟨c, rest, rfl, _, hne, _⟩ := hstarts
  rw [value, hskip]
  split
  · rename_i heq
    exact absurd (List.cons.inj heq).1 hne
  · rfl

theorem value_object {cs inside : List Char} (hskip : skipSpace cs = inside) (hstarts : Starts inside) (fuel : Nat) :
    value (fuel + 1) ('\x7b' :: cs) = objectFields fuel [] inside := by
  obtain ⟨c, rest, rfl, _, _, hne, _⟩ := hstarts
  rw [value, hskip]
  split
  · rename_i heq
    exact absurd (List.cons.inj heq).1 hne
  · rfl

variable {fuel : Nat} {v : Value} {cs rest : List Char}

theorem skipSpace_colon (hstarts : Starts cs) :
    skipSpace (':' :: ' ' :: cs) = ':' :: ' ' :: cs ∧ skipSpace (' ' :: cs) = cs := by
  obtain ⟨c, tail, rfl, hc, _⟩ := hstarts
  exact ⟨skipSpace_cons (by decide) _, by simp [skipSpace, isSpace_blank, hc]⟩

/-! ### Reading back -/

def Bare : Value → Prop
  | .null | .bool _ | .int _ | .real _ => True
  | _ => False

theorem scalar_writeScalar {v : Value} (hexact : v.Exact) (hbare : Bare v) :
    scalar (writeScalar false v).toList = .ok (v, []) := by
  have word : ∀ w ∈ wordValues, scalar w.1 = .ok (w.2, []) := by
    intro w hw
    have hword := scalar_word w hw []
    rwa [List.append_nil] at hword
  cases v with
  | null => exact word ("null".toList, .null) (by simp [wordValues])
  | bool b =>
    cases b with
    | true => exact word ("true".toList, .bool true) (by simp [wordValues])
    | false => exact word ("false".toList, .bool false) (by simp [wordValues])
  | int i => exact scalar_number (number?_toString i)
  | real d => exact hexact
  | _ => exact hbare.elim

section

variable {l : Layout}

theorem starts_laid {v : Value} (hexact : v.Exact) (level : Nat) (rest : List Char) :
    Starts (laid l level v ++ rest) := by
  have bracket : ∀ {c : Char} {cs : List Char}, isSpace c = false ∧ c ≠ ']' ∧ c ≠ '\x7d' ∧ c ≠ '\ufeff' →
      Starts (c :: cs ++ rest) := fun h => ⟨_, _, rfl, h⟩
  cases v with
  | list items =>
    rw [laid]
    cases items <;> exact bracket (by decide)
  | object fields =>
    rw [laid]
    cases fields <;> exact bracket (by decide)
  | str s =>
    rw [laid, writeScalar, toList_writeString]
    · exact bracket (by decide)
    all_goals simp
  | null | bool _ | int _ | real _ =>
    obtain ⟨c, tail, hc, hstart⟩ := starts_of_scalar (scalar_writeScalar hexact trivial)
    simp only [laid, hc]
    exact bracket hstart

theorem starts_joined {part : List Char} (h : ∀ rest, Starts (part ++ rest)) (comma : List Char)
    (parts : List (List Char)) (rest : List Char) : Starts (joined comma (part :: parts) ++ rest) := by
  cases parts with
  | nil => exact h rest
  | cons next parts =>
    rw [joined, List.append_assoc]
    exact h _

theorem skipSpace_gap (hgap : Gap gap) (h : Starts cs) : skipSpace (gap ++ cs) = cs := by
  obtain ⟨c, tail, rfl, hc, _⟩ := h
  exact skipSpace_gap_cons hgap hc tail

theorem ofPairs_of_nodup {fields : Fields} (h : (fields.map (·.1)).Nodup) : Fields.ofPairs fields = fields := by
  have hfold : ∀ (fields done : Fields), ((done ++ fields).map (·.1)).Nodup →
      fields.foldl (fun fs p => Fields.set p.1 p.2 fs) done = done ++ fields := by
    intro fields
    induction fields with
    | nil => simp
    | cons f fields ih =>
      intro done hnodup
      have hf : f.1 ∉ done.map (·.1) := by
        rw [List.map_append, List.map_cons] at hnodup
        intro hmem
        exact (List.nodup_append.mp hnodup).2.2 _ hmem _ List.mem_cons_self rfl
      rw [List.foldl_cons, Fields.set_of_notMem hf, ih (done ++ [f]) (by simpa using hnodup)]
      simp
  exact hfold fields [] (by simpa using h)

/-- A reader of pieces goes on behind a piece that stands last or before a comma. -/
structure Goes {γ : Type} (read : Nat → List γ → Reader Value) (finish : List γ → Value) (close : Char) (x : γ)
    (part : List Char) : Prop where
  starts : ∀ rest, Starts (part ++ rest)
  last : ∀ {fuel done rest after}, Closed rest → part.length ≤ fuel → skipSpace rest = close :: after →
    read (fuel + 1) done (part ++ rest) = .ok (finish (x :: done), after)
  more : ∀ {fuel done rest after}, Closed rest → part.length ≤ fuel → skipSpace rest = ',' :: after →
    read (fuel + 1) done (part ++ rest) = read fuel (x :: done) (skipSpace after)

section

variable {γ : Type} {read : Nat → List γ → Reader Value} {finish : List γ → Value} {a close : Char} {part : γ → List Char}

theorem pieces_laid {comma closing : List Char} (hcomma : Gap comma) (hclosing : skipSpace closing = close :: rest)
    (hclosed : Closed closing) : ∀ {xs : List γ}, xs ≠ [] → (∀ x ∈ xs, Goes read finish close x (part x)) →
    ∀ (fuel : Nat) (done : List γ), (joined comma (xs.map part)).length + 1 ≤ fuel →
      read fuel done (joined comma (xs.map part) ++ closing) = .ok (finish (xs.reverse ++ done), rest)
  | [], hne, _ => (hne rfl).elim
  | [x], _, h => by
    intro fuel done hfuel
    obtain ⟨fuel, rfl⟩ : ∃ n, fuel = n + 1 := ⟨fuel - 1, by omega⟩
    exact (h x List.mem_cons_self).last hclosed (Nat.le_of_succ_le_succ hfuel) hclosing
  | x :: y :: xs, _, h => by
    intro fuel done hfuel
    rw [List.forall_mem_cons] at h
    have hrest := pieces_laid hcomma hclosing hclosed (List.cons_ne_nil y xs) h.2 (fuel - 1) (x :: done)
    rw [List.map_cons] at hrest
    rw [List.map_cons, List.map_cons, joined] at hfuel ⊢
    simp only [List.length_cons, List.length_append] at hfuel
    obtain ⟨fuel, rfl⟩ : ∃ n, fuel = n + 1 := ⟨fuel - 1, by omega⟩
    have hstarts := starts_joined (h.2 y List.mem_cons_self).starts comma (xs.map part) closing
    simp only [List.cons_append, List.append_assoc]
    rw [h.1.more (closed_comma _) (by omega) (skipSpace_cons (by decide) _), skipSpace_gap hcomma hstarts,
      ← Nat.add_sub_cancel fuel 1, hrest (by omega)]
    simp

variable (hl : l.Blank)

include hl

theorem value_bracketed {xs : List γ} (h : ∀ x ∈ xs, Goes read finish close x (part x))
    (hclose : isSpace close = false ∧ isNumeral close = false)
    (hempty : ∀ fuel rest, value (fuel + 1) (a :: close :: rest) = .ok (finish [], rest))
    (hopen : ∀ {cs inside}, skipSpace cs = inside → Starts inside → ∀ fuel,
      value (fuel + 1) (a :: cs) = read fuel [] inside)
    {level fuel : Nat} (hfuel : (bracketed l level a close (xs.map part)).length ≤ fuel) :
    value fuel (bracketed l level a close (xs.map part) ++ rest) = .ok (finish xs.reverse, rest) := by
  cases xs with
  | nil =>
    obtain ⟨fuel, rfl⟩ := Nat.exists_eq_add_of_le' (Nat.le_trans (by decide : 1 ≤ 2) hfuel)
    exact hempty fuel rest
  | cons x xs =>
    have hclosing := skipSpace_gap_cons (hl.closing level) hclose.1 rest
    have hpieces := pieces_laid (hl.comma (level + 1)) hclosing (closed_gap_cons (hl.closing level) hclose.2 rest)
      (List.cons_ne_nil x xs) h (fuel - 1) []
    rw [List.map_cons] at hpieces hfuel ⊢
    rw [bracketed] at hfuel ⊢
    simp only [List.length_cons, List.length_append, List.length_nil] at hfuel
    obtain ⟨fuel, rfl⟩ : ∃ n, fuel = n + 1 := ⟨fuel - 1, by omega⟩
    have hstarts := starts_joined (h x List.mem_cons_self).starts
    simp only [List.cons_append, List.append_assoc, List.nil_append]
    rw [hopen (skipSpace_gap (hl.opening level) (hstarts _ _ _)) (hstarts _ _ _), ← Nat.add_sub_cancel fuel 1,
      hpieces (by omega), List.append_nil]

end

section

variable (level : Nat) (hv : v.Legible) (hread : ∀ {fuel rest}, Closed rest → (laid l level v).length ≤ fuel →
  value fuel (laid l level v ++ rest) = .ok (v, rest))

include hv hread

theorem goes_item : Goes listItems (fun items => .list items.reverse) ']' v (laid l level v) where
  starts := starts_laid hv.reads level
  last := fun hrest hfuel hafter => by
    rw [listItems, hread hrest hfuel]
    simp only [hafter]
  more := fun hrest hfuel hafter => by
    rw [listItems, hread hrest hfuel]
    simp only [hafter]

theorem goes_field (name : String) :
    Goes objectFields (fun fields => .object (Fields.ofPairs fields.reverse)) '\x7d' (name, v) (laidField l level (name, v)) := by
  have hname : ∀ rest, laidField l level (name, v) ++ rest =
      '"' :: (name.toList.flatMap (stringChar false) ++ '"' :: ':' :: ' ' :: (laid l level v ++ rest)) := fun rest => by
    simp [laidField, toList_writeString]
  have hlength : (laid l level v).length ≤ (laidField l level (name, v)).length := by
    simp only [laidField, List.length_append, List.length_cons]
    omega
  refine ⟨fun rest => ?_, fun {_ _ rest _} hrest hfuel hafter => ?_, fun {_ _ rest _} hrest hfuel hafter => ?_⟩
  · rw [hname]
    exact ⟨_, _, rfl, by decide⟩
  all_goals
    obtain ⟨hcolon, hblank⟩ := skipSpace_colon (starts_laid (l := l) hv.reads level rest)
    rw [hname, objectFields, stringFrom_writeString]
    simp only [hcolon, hblank, hread hrest (hlength.trans hfuel), hafter]

end

variable (hl : l.Blank)

include hl

/-- **A written value is read back**, whatever follows that does not go on with it. -/
theorem value_laid (v : Value) (h : v.Legible) {level fuel : Nat} {rest : List Char} (hrest : Closed rest)
    (hfuel : (laid l level v).length ≤ fuel) : value fuel (laid l level v ++ rest) = .ok (v, rest) := by
  induction v using Value.ind generalizing level fuel rest with
  | list items ih =>
    rw [Value.legible_list] at h
    have hgoes (v : Value) (hv : v ∈ items) := goes_item (level + 1) (h v hv) (ih v hv (h v hv))
    rw [laid, laidItems_eq_map] at hfuel ⊢
    rw [value_bracketed hl hgoes (by decide) (fun _ _ => rfl) value_list hfuel, List.reverse_reverse]
  | object fields ih =>
    rw [Value.legible_object] at h
    have hgoes (f : String × Value) (hf : f ∈ fields) :=
      goes_field (level + 1) (h.2 f hf) (ih f hf (h.2 f hf)) f.1
    rw [laid, laidFields_eq_map] at hfuel ⊢
    rw [value_bracketed hl hgoes (by decide) (fun _ _ => rfl) value_object hfuel, List.reverse_reverse,
      ofPairs_of_nodup h.1]
  | str s =>
    have hlaid : laid l level (.str s) = '"' :: (s.toList.flatMap (stringChar false) ++ ['"']) := by
      simp only [laid, writeScalar, toList_writeString]
    rw [hlaid] at hfuel ⊢
    obtain ⟨fuel, rfl⟩ : ∃ n, fuel = n + 1 := ⟨fuel - 1, by simp at hfuel; omega⟩
    simp only [List.cons_append, List.append_assoc, List.nil_append]
    rw [value, stringFrom_writeString]
    rfl
  | null | bool _ | int _ | real _ =>
    have hread := scalar_writeScalar h.reads trivial
    obtain ⟨c, tail, hc, _⟩ := starts_of_scalar hread
    simp only [laid] at hfuel ⊢
    rw [hc] at hfuel
    obtain ⟨fuel, rfl⟩ : ∃ n, fuel = n + 1 := ⟨fuel - 1, by simp at hfuel; omega⟩
    exact value_scalar (scalar_append hread hrest) fuel

/-- A text in a layout is read as its value, with blanks behind it or not. -/
theorem readChars_laid {v : Value} (h : v.Legible) (level : Nat) {blanks : List Char} (hclosed : Closed blanks)
    (hend : skipSpace blanks = []) : readChars (laid l level v ++ blanks) = .ok v := by
  have hlength : (laid l level v).length ≤ 2 * (laid l level v ++ blanks).length + 4 := by
    rw [List.length_append]
    omega
  have hvalue := value_laid hl v h hclosed hlength
  obtain ⟨c, cs, hcs, hspace, _, _, hmark⟩ := starts_laid (l := l) h.reads level blanks
  have hskip : skipSpace (laid l level v ++ blanks) = laid l level v ++ blanks := by
    rw [hcs]
    exact skipSpace_cons hspace cs
  have hhead : ¬(((laid l level v ++ blanks).head? == some '\ufeff') = true) := by
    rw [hcs]
    simpa using hmark
  rw [readChars, if_neg hhead, hskip, hvalue]
  simp only [hend]

end

/-- **A value that is written over several lines is read back.** -/
theorem read_writePretty {v : Value} (h : v.Legible) : read (writePretty v ++ "\n") = .ok v := by
  have hchars : (writePretty v ++ "\n").toList = laid overLines 0 v ++ ['\n'] := by
    rw [writePretty, String.toList_append, toList_writeLayout]
    rfl
  rw [read, hchars, readChars_laid blank_overLines h 0 (closed_cons [] (by decide)) (by decide)]

/-- **A value that is written on one line is read back.** -/
theorem read_write {v : Value} (h : v.Legible) : read (write v) = .ok v := by
  have hchars : (write v).toList = laid onLine 0 v ++ [] := by
    rw [write, toList_writeLine v 0, List.append_nil]
  have hclosed : Closed [] := fun _ hc => absurd hc (by simp)
  rw [read, hchars, readChars_laid blank_onLine h 0 hclosed rfl]

/-! ### Line ends -/

theorem return_notMem_stringChar (c : Char) : '\r' ∉ stringChar false c := by
  have hhex : ∀ n < 32, '\r' ∉ Text.hex 4 n := by decide
  unfold stringChar
  split_ifs with hself _ hreturn _ _ _ hcontrol
  · intro h
    rcases Bool.or_eq_true_iff.mp hself with hc | hc <;> simp [eq_of_beq hc] at h
  · decide
  · decide
  · decide
  · decide
  · decide
  · have hc : c.toNat < 32 := by simpa using hcontrol
    rw [unitEscape_of_control hc, List.mem_cons, List.mem_cons, not_or, not_or]
    exact ⟨by decide, by decide, hhex _ hc⟩
  · rw [List.mem_singleton]
    rintro rfl
    exact hreturn rfl

theorem return_notMem_digits (n : Nat) : '\r' ∉ Nat.toDigits 10 n := by
  intro h
  exact absurd (isDigit_toDigits n '\r' h) (by decide)

theorem return_notMem_shortest (q : Rat) : '\r' ∉ (Double.shortest q).1 := by
  unfold Double.shortest
  dsimp only
  intro h
  have hdigits := (List.dropWhile_sublist _).subset (List.mem_reverse.mp h)
  exact return_notMem_digits _ (List.mem_reverse.mp hdigits)

theorem return_notMem_positiveText (q : Rat) : '\r' ∉ (Double.positiveText q).toList := by
  have hdigits := return_notMem_shortest q
  have htake : ∀ n, '\r' ∉ (Double.shortest q).1.take n := fun n h => hdigits (List.mem_of_mem_take h)
  have hdrop : ∀ n, '\r' ∉ (Double.shortest q).1.drop n := fun n h => hdigits (List.mem_of_mem_drop h)
  have htail : '\r' ∉ (Double.shortest q).1.tail := fun h => hdigits (List.mem_of_mem_tail h)
  have hsize := return_notMem_digits (Double.shortest q).2.natAbs
  unfold Double.positiveText
  rw [String.toList_ofList]
  by_cases hpower : (Double.shortest q).2 < -4 ∨ 16 ≤ (Double.shortest q).2
  · simp only [if_pos hpower]
    split_ifs <;> simp [htake, htail, hsize]
  · simp only [if_neg hpower]
    split_ifs <;> simp [htake, hdrop, hdigits]

theorem return_notMem_writeScalar (v : Value) : '\r' ∉ (writeScalar false v).toList := by
  cases v with
  | int i =>
    rw [writeScalar, toList_toString_int]
    have hdigits := return_notMem_digits i.natAbs
    split_ifs <;> simp [hdigits]
  | real d =>
    have hpositive := return_notMem_positiveText
    cases d with
    | finite q =>
      rw [writeScalar, Double.text]
      split_ifs <;> simp [hpositive]
    | infinite negative => cases negative <;> simp [writeScalar, Double.text]
    | _ => simp [writeScalar, Double.text]
  | str s =>
    rw [writeScalar, toList_writeString]
    simp [return_notMem_stringChar]
  | bool b => cases b <;> simp [writeScalar]
  | _ => simp [writeScalar]

theorem return_notMem_newline (level : Nat) : '\r' ∉ (newline level).toList := by
  simp [newline]

theorem return_notMem_joined {comma : List Char} (hcomma : '\r' ∉ comma) : ∀ {parts : List (List Char)},
    (∀ part ∈ parts, '\r' ∉ part) → '\r' ∉ joined comma parts
  | [], _ => by simp [joined]
  | [part], h => h part List.mem_cons_self
  | part :: next :: parts, h => by
    rw [List.forall_mem_cons] at h
    simp [joined, h.1, hcomma, return_notMem_joined hcomma h.2]

theorem return_notMem_bracketed {a b : Char} (ha : '\r' ≠ a) (hb : '\r' ≠ b) (level : Nat) {parts : List (List Char)}
    (h : ∀ part ∈ parts, '\r' ∉ part) : '\r' ∉ bracketed overLines level a b parts := by
  have hparts := return_notMem_joined (return_notMem_newline (level + 1)) h
  cases parts with
  | nil => simp [bracketed, ha, hb]
  | cons part parts => simp [bracketed, overLines, return_notMem_newline, ha, hb, hparts]

theorem return_notMem_laid (v : Value) (level : Nat) : '\r' ∉ laid overLines level v := by
  induction v using Value.ind generalizing level with
  | list items ih =>
    rw [laid, laidItems_eq_map]
    exact return_notMem_bracketed (by decide) (by decide) level (List.forall_mem_map.mpr fun v hv => ih v hv _)
  | object fields ih =>
    rw [laid, laidFields_eq_map]
    refine return_notMem_bracketed (by decide) (by decide) level (List.forall_mem_map.mpr fun f hf => ?_)
    simp [laidField, toList_writeString, return_notMem_stringChar, ih f hf]
  | null | bool _ | int _ | real _ | str _ =>
    simp only [laid]
    exact return_notMem_writeScalar _

/-- **A written value has no carriage return.** -/
theorem return_notMem_writePretty (v : Value) : '\r' ∉ (writePretty v).toList := by
  rw [writePretty, toList_writeLayout]
  exact return_notMem_laid v 0

/-! ### What is read -/

/-- A property that all parts of a value have that is read. -/
structure OfRead (P : Value → Prop) : Prop where
  scalar : ∀ {cs rest : List Char} {v : Value}, Json.scalar cs = .ok (v, rest) → v.Throughout P
  str : ∀ s, P (.str s)
  list : ∀ items, P (.list items)
  object : ∀ fields : Fields, (fields.map (·.1)).Nodup → P (.object fields)

section

variable {P : Value → Prop} (hP : OfRead P)
include hP

/-- Fields are set one after the other, so that no name comes twice. -/
theorem throughout_ofPairs {pairs : List (String × Value)} (h : ∀ p ∈ pairs, p.2.Throughout P) :
    (Value.object (Fields.ofPairs pairs)).Throughout P := by
  have hfold : ∀ (pairs : List (String × Value)) (done : Fields), (done.map (·.1)).Nodup →
      (∀ f ∈ done, f.2.Throughout P) → (∀ p ∈ pairs, p.2.Throughout P) →
      ((pairs.foldl (fun fs p => Fields.set p.1 p.2 fs) done).map (·.1)).Nodup ∧
        ∀ f ∈ pairs.foldl (fun fs p => Fields.set p.1 p.2 fs) done, f.2.Throughout P := by
    intro pairs
    induction pairs with
    | nil => exact fun done hnodup hdone _ => ⟨hnodup, hdone⟩
    | cons p pairs ih =>
      intro done hnodup hdone hpairs
      refine ih _ (Fields.nodup_set hnodup) ?_ fun q hq => hpairs q (List.mem_cons_of_mem _ hq)
      intro f hf
      rcases Fields.mem_set hf with hf | hf
      · rw [hf]
        exact hpairs p List.mem_cons_self
      · exact hdone f hf
  obtain ⟨hnodup, hall⟩ := hfold pairs [] (by simp) (by simp) h
  exact Value.throughout_object.mpr ⟨hP.object _ hnodup, hall⟩

mutual

theorem throughout_value : ∀ {fuel : Nat} {cs rest : List Char} {v : Value}, value fuel cs = .ok (v, rest) →
    v.Throughout P
  | 0, cs, rest, v, h => absurd h (by simp [value])
  | fuel + 1, cs, rest, v, h => by
    unfold value at h
    split at h
    · unfold Except.map at h
      split at h
      · cases h
      · rw [← (Prod.mk.inj (Except.ok.inj h)).1]
        exact hP.str _
    · split at h
      · rw [← (Prod.mk.inj (Except.ok.inj h)).1]
        exact Value.throughout_list.mpr ⟨hP.list _, by simp⟩
      · exact throughout_listItems (by simp) h
    · split at h
      · rw [← (Prod.mk.inj (Except.ok.inj h)).1]
        exact Value.throughout_object.mpr ⟨hP.object _ List.nodup_nil, by simp⟩
      · exact throughout_objectFields (by simp) h
    · exact hP.scalar h

theorem throughout_listItems : ∀ {fuel : Nat} {done : List Value} {cs rest : List Char} {v : Value},
    (∀ w ∈ done, w.Throughout P) → listItems fuel done cs = .ok (v, rest) → v.Throughout P
  | 0, done, cs, rest, v, _, h => absurd h (by simp [listItems])
  | fuel + 1, done, cs, rest, v, hdone, h => by
    rw [listItems] at h
    split at h
    · cases h
    · rename_i w more hw
      have hmore : ∀ x ∈ w :: done, x.Throughout P := List.forall_mem_cons.mpr ⟨throughout_value hw, hdone⟩
      split at h
      · rw [← (Prod.mk.inj (Except.ok.inj h)).1]
        exact Value.throughout_list.mpr ⟨hP.list _, fun x hx => hmore x (List.mem_reverse.mp hx)⟩
      · exact throughout_listItems hmore h
      · cases h

theorem throughout_objectFields : ∀ {fuel : Nat} {done : Fields} {cs rest : List Char} {v : Value},
    (∀ f ∈ done, f.2.Throughout P) → objectFields fuel done cs = .ok (v, rest) → v.Throughout P
  | 0, done, cs, rest, v, _, h => absurd h (by simp [objectFields])
  | fuel + 1, done, cs, rest, v, hdone, h => by
    unfold objectFields at h
    split at h
    · split at h
      · cases h
      · split at h
        · split at h
          · cases h
          · rename_i w more hw
            have hmore : ∀ name : String, ∀ f ∈ (name, w) :: done, f.2.Throughout P := by
              intro name f hf
              rcases List.mem_cons.mp hf with rfl | hf
              · exact throughout_value hw
              · exact hdone f hf
            split at h
            · rw [← (Prod.mk.inj (Except.ok.inj h)).1]
              exact throughout_ofPairs hP fun f hf => hmore _ f (List.mem_reverse.mp hf)
            · exact throughout_objectFields (hmore _) h
            · cases h
        · cases h
    · cases h

end

theorem throughout_of_read {s : String} (h : read s = .ok v) : v.Throughout P := by
  unfold read at h
  split at h
  · rename_i w hw
    rw [Except.ok.inj h, readChars] at hw
    split at hw
    · cases hw
    · split at hw
      · cases hw
      · rename_i x rest hx
        split at hw
        · rw [← Except.ok.inj hw]
          exact throughout_value hP hx
        · cases hw
  · cases h

end

theorem scalar_cases (h : scalar cs = .ok (v, rest)) :
    (∃ w ∈ wordValues, v = w.2) ∨ (∃ i, v = .int i) ∨ ∃ negative n s, v = .real (.ofDecimal negative n s) := by
  unfold scalar at h
  split at h
  · rename_i word w hword
    exact .inl ⟨_, List.mem_of_find?_eq_some hword, (Prod.mk.inj (Except.ok.inj h)).1.symm⟩
  · split at h
    · rename_i r hr
      rw [Except.ok.inj h, number?_eq, unsigned?] at hr
      split at hr
      · cases hr
      · dsimp only at hr
        split at hr
        · exact .inr (.inl ⟨_, (Prod.mk.inj (Option.some.inj hr)).1.symm⟩)
        · exact .inr (.inr ⟨_, _, _, (Prod.mk.inj (Option.some.inj hr)).1.symm⟩)
    · cases h

theorem distinct_scalar (h : scalar cs = .ok (v, rest)) : v.Distinct := by
  rcases scalar_cases h with ⟨w, hw, rfl⟩ | ⟨i, rfl⟩ | ⟨negative, n, s, rfl⟩
  · have hwords : ∀ p ∈ wordValues, p.2.Distinct := by
      simp [wordValues, Value.Distinct, Value.Throughout, Value.NamesDiffer]
    exact hwords w hw
  · trivial
  · trivial

/-- **What is read has no object with two fields of one name.** -/
theorem distinct_of_read {s : String} (h : read s = .ok v) : v.Distinct :=
  throughout_of_read ⟨distinct_scalar, fun _ => trivial, fun _ => trivial, fun _ hnodup => hnodup⟩ h

end SourceAudit.Json
