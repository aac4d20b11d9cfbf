/-
# Faults

What can go wrong outside the analysis proper: with files, and with documents
that do not have the shape that is asked of them.
-/
import SourceAudit.Value.Display

namespace SourceAudit

inductive Fault where
  | missing (path : String)
  | isDirectory (path : String)
  | notDirectory (path : String)
  | present (path : String)
  | nameTooLong (path : String)
  | nulInPath
  | unreadable (path : String)
  | undecodable
  /-- A value was asked for a part that values of its kind do not have. -/
  | noSuchPart
  /-- An operation on a kind of values for which there is none. -/
  | wrongKind
  /-- A value that does not have the form that is needed. -/
  | badValue
  | tooLarge
  | zeroDivisor
deriving DecidableEq, Repr, Inhabited

def Fault.text : Fault → String
  | .missing p => s!"[Errno 2] No such file or directory: {Text.quoted p}"
  | .isDirectory p => s!"[Errno 21] Is a directory: {Text.quoted p}"
  | .notDirectory p => s!"[Errno 20] Not a directory: {Text.quoted p}"
  | .present p => s!"[Errno 17] File exists: {Text.quoted p}"
  | .nameTooLong p => s!"[Errno 36] File name too long: {Text.quoted p}"
  | .nulInPath => "embedded null byte"
  | .unreadable p => s!"Unable to read file {p}"
  | .undecodable | .noSuchPart | .wrongKind | .badValue | .tooLarge | .zeroDivisor => ""

def Fault.isSystem : Fault → Bool
  | .missing _ | .isDirectory _ | .notDirectory _ | .present _ | .nameTooLong _ | .unreadable _ => true
  | _ => false

def orNothing {ε α : Type} : Except ε α → Option α
  | .ok a => some a
  | .error _ => none

end SourceAudit
