/-
# Where open actions are reported

A finding names a method that is declared in the file (`Declares`) and listed as open, and
points at the first risky call in its body. The body ends at the brace that closes the one
before it, or with the file if none does (`IsBody`). Counting open braces from left to right
finds that place (`ends_bodyLength`).
-/
import SourceAudit.Php.RouteAuth
import SourceAudit.Proofs.Pattern.Ways

namespace SourceAudit.Php

open Pattern (cut)

variable {content : String} {f : RouteFinding}

/-! ### Bodies -/

/-- The brace before `start` is closed at `stop`: a closing brace stands there, and of the braces
between the two as many open as close. -/
def ClosesAt (text : Array Char) (start stop : Nat) : Prop :=
  start ≤ stop ∧ text[stop]? = some '\x7d' ∧ (cut text start stop).count '\x7b' = (cut text start stop).count '\x7d'

/-- The text from `start` up to `stop` is what the brace before `start` opens. -/
structure IsBody (text : Array Char) (start stop : Nat) : Prop where
  inside : start ≤ stop ∧ stop ≤ text.size
  open_before : ∀ n ≤ stop, (cut text start n).count '\x7d' ≤ (cut text start n).count '\x7b'
  ends : ClosesAt text start stop ∨ stop = text.size ∧ ∀ n, ¬ClosesAt text start n

/-- Of the braces that are open before a text, the last is closed at the place `n`, or none is. -/
structure Ends (depth : Nat) (cs : List Char) (n : Nat) : Prop where
  le : n ≤ cs.length
  before : ∀ m ≤ n, (cs.take m).count '\x7d' < depth + (cs.take m).count '\x7b'
  last : cs[n]? = some '\x7d' ∧ (cs.take n).count '\x7d' + 1 = depth + (cs.take n).count '\x7b' ∨ n = cs.length

theorem Ends.cons {depth next n : Nat} {c : Char} {cs : List Char} (h : Ends next cs n) (hdepth : 0 < depth)
    (hnext : next + (if c = '\x7d' then 1 else 0) = depth + if c = '\x7b' then 1 else 0) :
    Ends depth (c :: cs) (n + 1) := by
  have htake (m : Nat) (x : Char) :
      ((c :: cs).take (m + 1)).count x = (cs.take m).count x + if c = x then 1 else 0 := by
    simp [List.take_succ_cons, List.count_cons]
  refine ⟨Nat.succ_le_succ h.le, fun m hm => ?_, ?_⟩
  · cases m with
    | zero => simpa using hdepth
    | succ m =>
      have hbefore := h.before m (Nat.le_of_succ_le_succ hm)
      rw [htake, htake]
      omega
  · rcases h.last with ⟨hclose, hlast⟩ | hlast
    · refine Or.inl ⟨hclose, ?_⟩
      rw [htake, htake]
      omega
    · exact Or.inr (congrArg (· + 1) hlast)

theorem ends_bodyLength : ∀ (cs : List Char) (size depth : Nat), 0 < depth →
    ∃ n, bodyLength size depth cs = size + n ∧ Ends depth cs n
  | [], size, depth, hdepth => ⟨0, rfl, Nat.le_refl _, fun m _ => by simpa using hdepth, Or.inr rfl⟩
  | c :: cs, size, depth, hdepth => by
    -- a brace is opened, the last one is closed, another one is closed, or none is touched
    rw [bodyLength]
    split_ifs with hopen hclose hlast
    · obtain ⟨n, heq, hends⟩ := ends_bodyLength cs (size + 1) (depth + 1) (by omega)
      exact ⟨n + 1, by omega, hends.cons hdepth (by simp [beq_iff_eq.mp hopen])⟩
    · refine ⟨0, rfl, Nat.zero_le _, fun m hm => ?_, Or.inl ⟨congrArg some (beq_iff_eq.mp hclose), ?_⟩⟩
      · rw [Nat.le_zero.mp hm]
        simpa using hdepth
      · simp only [List.take_zero, List.count_nil]
        omega
    · obtain ⟨n, heq, hends⟩ := ends_bodyLength cs (size + 1) (depth - 1) (by omega)
      refine ⟨n + 1, by omega, hends.cons hdepth ?_⟩
      simp only [beq_iff_eq.mp hclose, if_true, show ¬('\x7d' : Char) = '\x7b' by decide, if_false]
      omega
    · obtain ⟨n, heq, hends⟩ := ends_bodyLength cs (size + 1) depth hdepth
      rw [beq_iff_eq] at hopen hclose
      exact ⟨n + 1, by omega, hends.cons hdepth (by rw [if_neg hopen, if_neg hclose])⟩

/-- What follows an open brace, up to the length that is counted, is its body. -/
theorem isBody_bodyLength {cs : List Char} {start : Nat} (hstart : start ≤ cs.length) :
    IsBody cs.toArray start (start + bodyLength 0 1 (cs.drop start)) := by
  obtain ⟨n, heq, hends⟩ := ends_bodyLength (cs.drop start) 0 1 Nat.one_pos
  have hcut (m : Nat) : cut cs.toArray start m = (cs.drop start).take (m - start) := by
    rw [Pattern.cut_eq, List.drop_take]
  have hsize : start + (cs.drop start).length = cs.length := by
    rw [List.length_drop]
    omega
  have hle := hends.le
  rw [heq, Nat.zero_add]
  refine ⟨⟨Nat.le_add_right _ _, by rw [List.size_toArray]; omega⟩, fun m hm => ?_, ?_⟩
  · have hbefore := hends.before (m - start) (by omega)
    rw [hcut]
    omega
  · rcases hends.last with ⟨hclose, hlast⟩ | hlast
    · refine Or.inl ⟨Nat.le_add_right _ _, ?_, ?_⟩
      · rwa [List.getElem?_toArray, ← List.getElem?_drop]
      · rw [hcut, Nat.add_sub_cancel_left]
        omega
    · refine Or.inr ⟨by rw [List.size_toArray]; omega, fun m ⟨hm, hclose, hequal⟩ => ?_⟩
      -- behind such a place one brace more would be closed than opened
      have hhere : (cs.drop start)[m - start]? = some '\x7d' := by
        rw [List.getElem?_drop, Nat.add_sub_cancel' hm, ← List.getElem?_toArray]
        exact hclose
      have hlt := (List.getElem?_eq_some_iff.mp hhere).1
      have hbefore := hends.before (m - start + 1) (by omega)
      simp only [List.take_add_one, hhere, Option.toList_some, List.count_append, List.count_singleton_self,
        List.count_singleton, show (('\x7d' : Char) == '\x7b') = false by decide, Bool.false_eq_true, if_false] at hbefore
      rw [hcut] at hequal
      omega

/-! ### Findings -/

/-- A public method of that name is declared, and its body starts at `start`, behind a brace. -/
def Declares (text : Array Char) (name : String) (start : Nat) : Prop :=
  ∃ i < start, methodHead.MatchesWith text 1 name i start ∧ text[start - 1]? = some '\x7b'

/-- The head of a method is a plain expression that sets the name and ends in a brace. -/
theorem plain_methodHead : methodHead.regex.isPlain = true ∧ methodHead.regex.sets 1 = true ∧
    methodHead.regex.endsIn '\x7b' = true := by
  decide +kernel

theorem plain_riskyCall : riskyCall.regex.isPlain = true ∧ riskyCall.regex.endsIn '(' = true := by
  decide +kernel

theorem declares_of_mem_findAll {text : Array Char} {m : Pattern.Match} (hm : m ∈ methodHead.findAll text) :
    Declares text ((m.group? text 1).getD "") m.stop := by
  obtain ⟨hplain, hsets, hbrace⟩ := plain_methodHead
  obtain ⟨k, hk, hlast, hat⟩ := Pattern.stop_of_mem_findAll hbrace hm
  refine ⟨m.start, hlast ▸ Nat.lt_succ_of_le hk, Pattern.matchesWith_of_mem_findAll hplain hsets hm, ?_⟩
  rwa [hlast, Nat.add_sub_cancel]

theorem mem_publicMethods {m : Method} (hm : m ∈ publicMethods content) :
    ∃ stop, Declares content.toList.toArray m.name m.start ∧ IsBody content.toList.toArray m.start stop ∧
      m.body.toList = cut content.toList.toArray m.start stop := by
  obtain ⟨head, hhead, hfound⟩ := List.mem_filterMap.mp hm
  have hbounds := Pattern.bounds_of_mem_findAll hhead
  rw [List.size_toArray] at hbounds
  dsimp only at hfound
  split_ifs at hfound
  rw [← Option.some.inj hfound]
  refine ⟨_, declares_of_mem_findAll hhead, isBody_bodyLength hbounds.2, ?_⟩
  rw [String.toList_ofList, Pattern.cut_eq, List.drop_take, Nat.add_sub_cancel_left]

theorem count_eq (c : Char) (cs : List Char) : Text.count c cs = cs.count c := by
  have hfold : ∀ n, cs.foldl (fun n d => if d == c then n + 1 else n) n = n + cs.count c := by
    induction cs with
    | nil => exact fun n => rfl
    | cons d cs ih =>
      intro n
      rw [List.foldl_cons, ih, List.count_cons]
      split <;> omega
  rw [Text.count, hfold, Nat.zero_add]

theorem methodFinding?_some {m : Method} {withoutLogin : Bool} {stop : Nat}
    (hinside : m.start ≤ stop ∧ stop ≤ content.toList.length)
    (hbody : m.body.toList = cut content.toList.toArray m.start stop)
    (h : methodFinding? content m withoutLogin = some f) :
    f.method = m.name ∧ f.withoutLogin = withoutLogin ∧ ∃ i j, i < j ∧ m.start + j ≤ stop ∧
      riskyCall.Leftmost (cut content.toList.toArray m.start stop).toArray i j ∧
      f.call = String.ofList (cut content.toList.toArray (m.start + i) (m.start + j)) ∧
      f.line = 1 + (content.toList.take (m.start + i)).count '\n' := by
  simp only [methodFinding?, Option.bind_eq_bind, Option.bind_eq_some_iff] at h
  obtain ⟨sink, hsink, source, -, h⟩ := h
  obtain ⟨hplain, hparen⟩ := plain_riskyCall
  rw [hbody] at hsink
  have hforward := Pattern.start_lt_stop_of_search? hparen hsink
  have hend := (Pattern.search?_spans hsink).2.2.1
  have hsize : (cut content.toList.toArray m.start stop).length = stop - m.start := by
    rw [Pattern.cut_eq, List.length_drop, List.length_take, List.toList_toArray, Nat.min_eq_left hinside.2]
  rw [List.size_toArray, hsize] at hend
  rw [← Option.some.inj h]
  refine ⟨rfl, rfl, sink.start, sink.stop, by omega, by omega, Pattern.search?_leftmost hplain hsink, ?_, ?_⟩
  · dsimp only
    rw [hbody, Pattern.Match.chars, Pattern.cut_cut (by omega)]
  · dsimp only
    rw [count_eq, Nat.add_comm]

theorem mem_openActions (hf : f ∈ openActions content) :
    ∃ m ∈ publicMethods content, ∃ withoutLogin, methodFinding? content m withoutLogin = some f ∧
      (withoutLogin = true ∧ m.name ∈ namesOf content "notNeedLogin" ∨
        withoutLogin = false ∧ m.name ∈ namesOf content "notNeedAuth" ∧ m.name ∉ namesOf content "notNeedLogin") := by
  obtain ⟨m, hm, hfound⟩ := List.mem_filterMap.mp hf
  split_ifs at hfound with hlogin hauth
  · exact ⟨m, hm, true, hfound, Or.inl ⟨rfl, List.contains_iff_mem.mp hlogin⟩⟩
  · exact ⟨m, hm, false, hfound,
      Or.inr ⟨rfl, List.contains_iff_mem.mp hauth, fun h => hlogin (List.contains_iff_mem.mpr h)⟩⟩

theorem mem_openActions_of_mem_routeFindings {context : Option ProjectContext} {path : String}
    (h : f ∈ routeFindings context path content) : f ∈ openActions content := by
  unfold routeFindings at h
  split at h
  · cases h
  · split_ifs at h
    · exact h
    · cases h

/-- **Findings point at the right place.** A finding is about a public method that the file declares
and lists as open. The body of the method runs from behind its brace to the place where that brace is
closed, or to the end of the file. What is shown is the leftmost risky call of the body, at its offset
and line in the file. -/
theorem routeFindings_place (context : Option ProjectContext) (path content : String) (f : RouteFinding)
    (h : f ∈ routeFindings context path content) :
    ∃ start stop, Declares content.toList.toArray f.method start ∧ IsBody content.toList.toArray start stop ∧
      (f.method ∈ namesOf content "notNeedLogin" ∧
          (f.toRow path).field "rule_id" = .str "PHP_MVC_UNAUTHENTICATED_RISKY_ACTION" ∧
          (f.toRow path).field "severity" = .str "Critical" ∨
        f.method ∈ namesOf content "notNeedAuth" ∧ f.method ∉ namesOf content "notNeedLogin" ∧
          (f.toRow path).field "rule_id" = .str "PHP_MVC_UNAUTHORIZED_RISKY_ACTION" ∧
          (f.toRow path).field "severity" = .str "High") ∧
      ∃ i j, i < j ∧ start + j ≤ stop ∧
        riskyCall.Leftmost (cut content.toList.toArray start stop).toArray i j ∧
        (f.toRow path).field "match" = .str (String.ofList (cut content.toList.toArray (start + i) (start + j))) ∧
        (f.toRow path).field "line" = .int ↑(1 + (content.toList.take (start + i)).count '\n') := by
  obtain ⟨m, hm, withoutLogin, hfound, hlisted⟩ := mem_openActions (mem_openActions_of_mem_routeFindings h)
  obtain ⟨stop, hdeclares, hbody, hcut⟩ := mem_publicMethods hm
  have hinside : m.start ≤ stop ∧ stop ≤ content.toList.length := by simpa using hbody.inside
  obtain ⟨hname, hwithout, i, j, hij, hj, hleft, hcall, hline⟩ := methodFinding?_some hinside hcut hfound
  rw [← hname] at hdeclares hlisted
  refine ⟨m.start, stop, hdeclares, hbody, ?_, i, j, hij, hj, hleft, congrArg Value.str hcall, ?_⟩
  · rcases hlisted with ⟨hopen, hlogin⟩ | ⟨hopen, hauth, hlogin⟩
    · refine Or.inl ⟨hlogin, ?_⟩
      rw [RouteFinding.toRow, hwithout, hopen]
      exact ⟨rfl, rfl⟩
    · refine Or.inr ⟨hauth, hlogin, ?_⟩
      rw [RouteFinding.toRow, hwithout, hopen]
      exact ⟨rfl, rfl⟩
  · rw [← hline]
    rfl

/-- A controller with an action that needs no login, and its finding. -/
def openController : String :=
  "$notNeedLogin=['f'];public function f()\x7b\n\x7beval(input())\x7d\x7d"

def openFinding : RouteFinding :=
  ⟨"f", true, 2, "eval", "eval(", "input("⟩

theorem routeFindings_place_openController :
    openFinding ∈ routeFindings (some ⟨default, true, [], false, false⟩) "controller/A.php" openController ∧
      ∃ start stop, Declares openController.toList.toArray "f" start ∧ IsBody openController.toList.toArray start stop ∧
        ∃ i j, start + j ≤ stop ∧ riskyCall.Leftmost (cut openController.toList.toArray start stop).toArray i j := by
  have hmem : openFinding ∈
      routeFindings (some ⟨default, true, [], false, false⟩) "controller/A.php" openController := by
    decide +kernel
  obtain ⟨start, stop, hdeclares, hbody, -, i, j, -, hj, hleft, -⟩ := routeFindings_place _ _ _ _ hmem
  exact ⟨hmem, start, stop, hdeclares, hbody, i, j, hj, hleft⟩

end SourceAudit.Php
