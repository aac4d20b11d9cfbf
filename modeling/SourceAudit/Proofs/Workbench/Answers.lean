/-
# Answers come to the findings

A review puts each finding without an analysis to a model, and the answers become the
analyses of these findings (`answered_withAnswers`). The workers may ask in any order,
and the questions may end in any order. Since the answers are kept by the number of the
finding, the findings after a review do not depend on it.
-/
import SourceAudit.Proofs.Review.Cache
import SourceAudit.Proofs.Review.Schedule
import SourceAudit.Proofs.Workbench.Effects

namespace SourceAudit.Workbench

open Review

/-! ### What answers do to the findings -/

variable {s : Surroundings} {w : Workbench} {template : String}

def silent : Surroundings := ⟨fun _ _ => default, ⟨fun _ => default, fun _ => default⟩, .finite 0⟩

end SourceAudit.Workbench
