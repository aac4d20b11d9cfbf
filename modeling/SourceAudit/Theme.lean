/-
# The look of the program

A theme has a seed color, which chooses one of a few palettes, a light and a dark
scheme made from the palette, and two font families. Changes are stored.
-/
import SourceAudit.Fault
import SourceAudit.Settings

namespace SourceAudit

structure Palette where
  primary : String
  secondary : String
  tertiary : String
  error : String
  lightPrimaryContainer : String
  lightOnPrimaryContainer : String
  lightSurface : String
  lightSurfaceContainer : String
  lightSurfaceContainerHigh : String
  lightSurfaceVariant : String
  darkPrimaryContainer : String
  darkOnPrimaryContainer : String
deriving DecidableEq, Repr, Inhabited

namespace Palette

def violet : Palette :=
  ⟨"#6750A4", "#625B71", "#7D5260", "#B3261E", "#EADDFF", "#21005D",
    "#FFFBFE", "#F3EDF7", "#ECE6F0", "#E7E0EC", "#4F378B", "#EADDFF"⟩

def teal : Palette :=
  ⟨"#006A60", "#4A635F", "#456179", "#B3261E", "#9FF2E5", "#00201C",
    "#F4FFFC", "#DCEDEA", "#D1E5E1", "#DAE5E1", "#005047", "#9FF2E5"⟩

def red : Palette :=
  ⟨"#8C1D18", "#775653", "#705C2E", "#B3261E", "#FFDAD5", "#410001",
    "#FFFBFF", "#F9E4E1", "#F1D8D5", "#F5DDDA", "#73342D", "#FFDAD5"⟩

def blue : Palette :=
  ⟨"#00639B", "#526070", "#695779", "#B3261E", "#CFE5FF", "#001D33",
    "#FCFCFF", "#E3EEF8", "#D8E6F2", "#DDE3EA", "#004A77", "#CFE5FF"⟩

/-- The palette of a seed color; unknown colors have that of teal. -/
def ofSeed (seed : String) : Palette :=
  match Text.upper seed with
  | "#6750A4" => violet
  | "#8C1D18" => red
  | "#00639B" => blue
  | _ => teal

def colors (p : Palette) : List (String × String) :=
  [("primary", p.primary), ("secondary", p.secondary), ("tertiary", p.tertiary), ("error", p.error),
    ("lightPrimaryContainer", p.lightPrimaryContainer),
    ("lightOnPrimaryContainer", p.lightOnPrimaryContainer), ("lightSurface", p.lightSurface),
    ("lightSurfaceContainer", p.lightSurfaceContainer),
    ("lightSurfaceContainerHigh", p.lightSurfaceContainerHigh),
    ("lightSurfaceVariant", p.lightSurfaceVariant), ("darkPrimaryContainer", p.darkPrimaryContainer),
    ("darkOnPrimaryContainer", p.darkOnPrimaryContainer)]

end Palette

abbrev Scheme := List (String × String)

namespace Scheme

def inTheDark (color : String) : String :=
  match Text.upper color with
  | "#006A60" => "#80D5C8"
  | "#8C1D18" => "#FFB4AB"
  | "#00639B" => "#9DCAFF"
  | _ => "#D0BCFF"

def set (s : Scheme) (use : String × String) : Scheme :=
  if s.any (·.1 == use.1) then s.map fun x => if x.1 == use.1 then use else x else s ++ [use]

def light (p : Palette) : Scheme :=
  [("onPrimary", "#FFFFFF"), ("primaryContainer", p.lightPrimaryContainer),
    ("onPrimaryContainer", p.lightOnPrimaryContainer), ("onSecondary", "#FFFFFF"),
    ("surface", p.lightSurface), ("surfaceContainer", p.lightSurfaceContainer),
    ("surfaceContainerHigh", p.lightSurfaceContainerHigh), ("surfaceVariant", p.lightSurfaceVariant),
    ("onSurface", "#1D1B20"), ("onSurfaceVariant", "#49454F"), ("outline", "#79747E"),
    ("outlineVariant", "#CAC4D0"), ("background", p.lightSurface), ("scrim", "#000000"),
    ("onError", "#FFFFFF")].foldl set p.colors

def dark (p : Palette) : Scheme :=
  [("primary", inTheDark p.primary), ("onPrimary", "#1F1A24"),
    ("primaryContainer", p.darkPrimaryContainer), ("onPrimaryContainer", p.darkOnPrimaryContainer),
    ("secondary", "#CCC2DC"), ("onSecondary", "#332D41"), ("surface", "#141218"),
    ("surfaceContainer", "#211F26"), ("surfaceContainerHigh", "#2B2930"),
    ("surfaceVariant", "#49454F"), ("onSurface", "#E6E0E9"), ("onSurfaceVariant", "#CAC4D0"),
    ("outline", "#938F99"), ("outlineVariant", "#49454F"), ("background", "#141218"),
    ("scrim", "#000000"), ("error", "#F2B8B5"), ("onError", "#601410")].foldl set p.colors

end Scheme

/-- The theme in use. The stored values may be of any kind. -/
structure Theme where
  seed : Value
  isDark : Value
  uiFont : Value
  editorFont : Value
  light : Scheme
  dark : Scheme
  settings : Settings
  changes : Nat
deriving Inhabited

/-- An operation on the theme; what it has done before a fault stays done. -/
abbrev Restyle := ExceptT Fault (StateM Theme)

namespace Theme

def paletteOf : Value → Except Fault Palette
  | .str seed => .ok (.ofSeed seed)
  | _ => .error .noSuchPart

def load (settings : Settings) : Except Fault Theme := do
  let seed := settings.value "theme/seedColor" (.str "#006A60")
  let p ← paletteOf seed
  return {
    seed
    isDark := settings.value "theme/isDarkTheme" (.bool false)
    uiFont := settings.value "fonts/uiFamily" (.str "Segoe UI")
    editorFont := settings.value "fonts/editorFamily" (.str "Cascadia Mono")
    light := .light p
    dark := .dark p
    settings
    changes := 0 }

def current (t : Theme) : Scheme :=
  if t.isDark.truthy then t.dark else t.light

def tell : Restyle Unit :=
  modify fun t => { t with changes := t.changes + 1 }

/-- Sets the seed color; nothing and the same color change nothing. -/
def setSeed (v : Value) : Restyle Unit := do
  if v.truthy && !v.same (← get).seed then
    modify fun t => { t with seed := v, settings := t.settings.store "theme/seedColor" v }
    match paletteOf v with
    | .ok p => modify fun t => { t with light := .light p, dark := .dark p }
    | .error e => throw e
    tell

def setDark (v : Value) : Restyle Unit := do
  if !v.same (← get).isDark then
    modify fun t => { t with isDark := v, settings := t.settings.store "theme/isDarkTheme" v }
    tell

/-- The name of a font family without blanks around it, or another for nothing. -/
def fontName (v : Value) (other : String) : Except Fault Value :=
  if !v.truthy then .ok (.str other)
  else
    match v with
    | .str s => .ok (.str (Text.strip s))
    | _ => .error .noSuchPart

def setUiFont (v : Value) : Restyle Unit := do
  match fontName v "Segoe UI" with
  | .error e => throw e
  | .ok font =>
    if !font.same (← get).uiFont then
      modify fun t => { t with uiFont := font, settings := t.settings.store "fonts/uiFamily" font }
      tell

def setEditorFont (v : Value) : Restyle Unit := do
  match fontName v "Cascadia Mono" with
  | .error e => throw e
  | .ok font =>
    if !font.same (← get).editorFont then
      modify fun t =>
        { t with editorFont := font, settings := t.settings.store "fonts/editorFamily" font }
      tell

end Theme

end SourceAudit
