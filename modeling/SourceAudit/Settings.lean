/-
# Settings

What the program keeps between its runs: values by name. A name without a value
has the value that the reader asks for.
-/
import SourceAudit.Value.Display

namespace SourceAudit

abbrev Settings := Fields

namespace Settings

def value (s : Settings) (name : String) (other : Value) : Value :=
  (Fields.get? s name).getD other

def text (s : Settings) (name other : String) : String :=
  (s.value name (.str other)).display

def flag (s : Settings) (name : String) (other : Bool) : Bool :=
  (s.value name (.bool other)).truthy

def store (s : Settings) (name : String) (v : Value) : Settings :=
  Fields.set name v s

end Settings

end SourceAudit
