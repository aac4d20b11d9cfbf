/-
# The start of the program

The steps in which the window is set up and shown. The program ends with an error
if the window has nothing in it, and else as the run of the window does.
-/
import SourceAudit.Files.Path

namespace SourceAudit.Startup

inductive Service where
  | style
  | audit
  | rules
deriving DecidableEq, Repr

inductive Step where
  | applicationName (name : String)
  | organizationName (name : String)
  | windowIcon (path : String)
  | importPath (path : String)
  | offerService (name : String) (service : Service)
  | offerText (name text : String)
  | loadWindow (url : String)
  | run
deriving DecidableEq, Repr

/-- The steps before it is known whether the window can be shown, for a program in `root`. -/
def preparation (root : String) (hasIcon hasFont : Bool) : List Step :=
  [.applicationName "PineSawFly", .organizationName "PineSawFly"] ++
    (if hasIcon then [.windowIcon (root ++ "/assets/icons/app.ico")] else []) ++
    [.importPath (root ++ "/qml"), .offerService "styleManager" .style,
      .offerService "auditBridge" .audit, .offerService "ruleManager" .rules,
      .offerText "materialIconsFontUrl"
        (if hasFont then fileUrl (root ++ "/assets/fonts/MaterialIcons-Regular.ttf") else ""),
      .loadWindow (fileUrl (root ++ "/qml/App/Main.qml"))]

def steps (root : String) (hasIcon hasFont : Bool) (objects : Nat) : List Step :=
  preparation root hasIcon hasFont ++ (if objects = 0 then [] else [.run])

/-- The code with which the program ends; `ran` is that of the run of the window. -/
def exitCode (objects : Nat) (ran : Int) : Int :=
  if objects = 0 then 1 else ran

end SourceAudit.Startup
