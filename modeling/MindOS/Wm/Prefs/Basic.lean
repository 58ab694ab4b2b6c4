import MindOS.Json.Basic
import MindOS.Wm.Idle.Basic
import MindOS.Wm.Layout
import Mathlib.Data.Rat.Defs
import Mathlib.Algebra.Order.Ring.Rat

/-!
# The preferences

What the compositor changes at runtime and keeps between sessions, together with what of it
is in effect: the layout, the pointer, the keyboard and the colour of its chrome. Reading
and writing JSON by the derived serialisers is a parameter, and so is the keymap compiler.
That a write of the preferences file fails, which is only logged, is left out.
-/

namespace MindOS.Wm

open Text

structure MouseSettings where
  mouseProfile : Text := "default"
  mouseSpeed : Rat := 0
  mouseLeftHanded : Bool := false
  mouseNaturalScroll : Bool := false
  deriving DecidableEq

structure InputSettings extends MouseSettings where
  keyboardLayout : Text := []
  keyboardVariant : Text := []
  keyboardOptions : Text := []
  repeatRate : Int := 25
  repeatDelay : Int := 200
  deriving DecidableEq

structure IdlePrefs extends Idle.IdleSettings where
  /-- Lock when the machine suspends. -/
  lockOnSleep : Bool := true

structure OutputPrefs where
  enabled : Option Bool := none
  /-- `WIDTHxHEIGHT@REFRESH_MHZ`. -/
  mode : Option Text := none
  scale : Option Rat := none
  position : Option Point := none
  transform : Option Text := none
  vrr : Option Bool := none
  deriving DecidableEq

structure Prefs where
  layoutMode : Option LayoutMode := none
  mindShowTools : Option Bool := none
  primaryOutput : Option Text := none
  cursorTheme : Option Text := none
  /-- The colour of the chrome as `#rrggbb`. -/
  accent : Option Text := none
  cursorSize : Option Nat := none
  idle : IdlePrefs := {}
  input : InputSettings := {}
  /-- The configuration of an output, by its name; one that has none stored is as by default. -/
  outputs : Text → OutputPrefs := fun _ => {}

/-- What is broadcast to the shell. -/
inductive Announcement where
  | layoutMode (mode : LayoutMode)
  | prefs (prefs : Prefs)

structure XkbConfig where
  layout : Text
  variant : Text
  options : Option Text
  deriving DecidableEq

/-- The compositor as far as the preferences reach. -/
structure Compositor where
  wm : State := {}
  idle : Idle.Session
  prefs : Prefs := {}
  /-- The preferences as they were last saved. -/
  saved : Prefs := {}
  announced : List Announcement := []
  keymap : XkbConfig := ⟨[], [], none⟩
  /-- The rate and the delay of the repetition of keys. -/
  repeatInfo : Int × Int := (25, 200)
  /-- What the mice were last set to. -/
  mouse : MouseSettings := {}
  /-- The theme and the size of the pointer in the environment, if they are there. -/
  xcursorTheme : Option Text := none
  xcursorSize : Option Nat := none
  /-- The theme and the size of the pointer that the compositor draws. -/
  pointer : Text × Nat := ("MindOS", 24)
  accentRgb : Nat := 0x3ddc97
  /-- What the Mind bar shows of the tools, and its colour. -/
  showTools : Bool := false
  barAccent : Nat := 0x3ddc97

/-- What the preferences depend on from outside. -/
structure Externals where
  /-- The colour that the configuration file asks for. -/
  configAccent : Text
  hasKeyboard : Bool
  /-- The keymap compiler finds a layout, with its variant and options. -/
  loadsKeymap : XkbConfig → Bool
  inputToValue : InputSettings → List (Text × Json)
  inputFromValue : List (Text × Json) → Except Text InputSettings
  idleToValue : IdlePrefs → List (Text × Json)
  idleFromValue : List (Text × Json) → Except Text IdlePrefs
  placement : Placement := {}
  now : Nat

namespace InputSettings

def xkb (settings : InputSettings) : XkbConfig where
  layout := settings.keyboardLayout
  variant := settings.keyboardVariant
  options := if settings.keyboardOptions = [] then none else some settings.keyboardOptions

/-- A name of the keyboard database. -/
def isXkbName (text : Text) : Bool :=
  decide (len text ≤ 256) && text.all fun c =>
    ('a' ≤ c ∧ c ≤ 'z') ∨ ('A' ≤ c ∧ c ≤ 'Z') ∨ ('0' ≤ c ∧ c ≤ '9') ∨ c ∈ "_,-:".toList

def validate (settings : InputSettings) : Except Text Unit :=
  if ¬(0 ≤ settings.repeatRate ∧ settings.repeatRate ≤ 100) ∨
      ¬(100 ≤ settings.repeatDelay ∧ settings.repeatDelay ≤ 2000) then
    .error "Repeat rate must be 0–100 keys/s and delay 100–2000 ms"
  else if ¬(-1 ≤ settings.mouseSpeed ∧ settings.mouseSpeed ≤ 1) then
    .error "Mouse speed must be between -1 and 1"
  else if settings.mouseProfile ∉ (["default", "flat", "adaptive"] : List Text) then
    .error "Mouse acceleration must be default, flat or adaptive"
  else if ¬[settings.keyboardLayout, settings.keyboardVariant, settings.keyboardOptions].all
      isXkbName then
    .error "Keyboard names must use XKB identifiers (letters, digits, _, -, comma or colon)"
  else .ok ()

end InputSettings

/-- Fields set in an object that has them already; the first other one is an error. -/
def mergeFields (unknown : Text) (merged : List (Text × Json)) :
    List (Text × Json) → Except Text (List (Text × Json))
  | [] => .ok merged
  | (key, value) :: patch =>
      match merged.lookup key with
      | none => .error (unknown ++ key)
      | some _ => mergeFields unknown (Json.setField key value merged) patch

/-- The settings with some of them changed. -/
def InputSettings.patched (settings : InputSettings) (o : Externals) :
    Json → Except Text InputSettings
  | .obj patch => do
      let merged ← mergeFields "Unknown input setting: " (o.inputToValue settings) patch
      let next ← (o.inputFromValue merged).mapError ("Invalid input settings: ".toList ++ ·)
      next.validate
      return next
  | _ => .error "input must be an object"

namespace LayoutMode

def parse (s : Text) : Option LayoutMode :=
  let name := (trim s).map Char.toLower
  if name ∈ (["floating", "float", "kde", "stacking"] : List Text) then some .floating
  else if name ∈ (["dwindle", "tiles", "tiling", "hyprland"] : List Text) then some .dwindle
  else if name ∈ (["columns", "scroll", "scrolling", "niri"] : List Text) then some .columns
  else none

end LayoutMode

/-! ## Colours -/

/-- The text from an offset on, in bytes, unless a character lies across it. -/
def dropBytes : Nat → Text → Option Text
  | 0, t => some t
  | _ + 1, [] => none
  | n + 1, c :: t => if c.utf8Size ≤ n + 1 then dropBytes (n + 1 - c.utf8Size) t else none

def takeBytes : Nat → Text → Option Text
  | 0, _ => some []
  | _ + 1, [] => none
  | n + 1, c :: t =>
      if c.utf8Size ≤ n + 1 then (takeBytes (n + 1 - c.utf8Size) t).map (c :: ·) else none

/-- `&s[i..i + n]`, which panics where a character lies across an end of it. -/
def slice (s : Text) (i n : Nat) : Option Text := (dropBytes i s).bind (takeBytes n)

theorem takeBytes_append (p t : Text) : takeBytes (len p) (p ++ t) = some p := by
  induction p with
  | nil => cases t <;> rfl
  | cons c p ih =>
      have hpos := c.utf8Size_pos
      obtain ⟨n, hn⟩ := Nat.exists_eq_succ_of_ne_zero (by
        rw [len_cons]; omega : len (c :: p) ≠ 0)
      rw [hn, List.cons_append, takeBytes, if_pos (by rw [len_cons] at hn; omega)]
      rw [show n + 1 - c.utf8Size = len p by rw [len_cons] at hn; omega, ih]
      rfl

theorem dropBytes_append (p t : Text) : dropBytes (len p) (p ++ t) = some t := by
  induction p with
  | nil => cases t <;> rfl
  | cons c p ih =>
      have hpos := c.utf8Size_pos
      obtain ⟨n, hn⟩ := Nat.exists_eq_succ_of_ne_zero (by
        rw [len_cons]; omega : len (c :: p) ≠ 0)
      rw [hn, List.cons_append, dropBytes, if_pos (by rw [len_cons] at hn; omega)]
      rw [show n + 1 - c.utf8Size = len p by rw [len_cons] at hn; omega, ih]

theorem slice_append (p q t : Text) : slice (p ++ (q ++ t)) (len p) (len q) = some q := by
  rw [slice, dropBytes_append, Option.bind_some, takeBytes_append]

def hexDigit (c : Char) : Option Nat :=
  if '0' ≤ c ∧ c ≤ '9' then some (c.toNat - '0'.toNat)
  else if 'a' ≤ c ∧ c ≤ 'f' then some (c.toNat - 'a'.toNat + 10)
  else if 'A' ≤ c ∧ c ≤ 'F' then some (c.toNat - 'A'.toNat + 10)
  else none

/-- `u8::from_str_radix` with radix 16, which takes a plus sign before the digits. -/
def u8FromHex (s : Text) : Option Nat :=
  let digits := match s with
    | '+' :: c :: rest => c :: rest
    | _ => s
  if digits = [] then none
  else (digits.foldlM (fun n c => (hexDigit c).map (16 * n + ·)) 0).filter (· < 256)

/-- `#rgb`, `#rrggbb` or `#rrggbbaa`, without the alpha. It can panic, which is the outer
`none`. -/
def parseColor (s : Text) : OptionT Option (Nat × Nat × Nat) :=
  let s := trimStartMatches (trim s) "#"
  let hex (i n : Nat) : OptionT Option Nat := OptionT.mk ((slice s i n).map u8FromHex)
  match len s with
  | 3 => do
      let r ← hex 0 1
      let g ← hex 1 1
      let b ← hex 2 1
      return (r * 17, g * 17, b * 17)
  | 6 => do
      let r ← hex 0 2
      let g ← hex 2 2
      let b ← hex 4 2
      return (r, g, b)
  | 8 => do
      let r ← hex 0 2
      let g ← hex 2 2
      let b ← hex 4 2
      let _ ← hex 6 2
      return (r, g, b)
  | _ => OptionT.mk (some none)

/-- The colour as one number. -/
def parseAccent (s : Text) : OptionT Option Nat := do
  let (r, g, b) ← parseColor s
  return r * 2 ^ 16 + g * 2 ^ 8 + b

/-- `#{rgb:06x}` -/
def accentHex (rgb : Nat) : Text :=
  let digits := Nat.toDigits 16 rgb
  '#' :: (List.replicate (6 - digits.length) '0' ++ digits)

/-! ## The compositor -/

namespace Compositor

/-- The theme and the size of the pointer for the whole session. -/
def configured (s : Compositor) : Text × Nat :=
  (s.xcursorTheme.getD "MindOS", s.xcursorSize.getD 24)

/-- Save the preferences and tell the shell. -/
def prefsChanged (s : Compositor) : Compositor :=
  { s with saved := s.prefs, announced := s.announced ++ [.prefs s.prefs] }

/-- Switch the layout mode, which is saved and announced on its own. -/
def setLayoutMode (s : Compositor) (o : Externals) (mode : LayoutMode) : Compositor :=
  if s.wm.layout.mode = mode then s
  else
    let prefs := { s.prefs with layoutMode := some mode }
    { s with
      wm := s.wm.setLayoutMode o.placement mode
      prefs := prefs
      saved := prefs
      announced := s.announced ++ [.layoutMode mode] }

end Compositor

end MindOS.Wm
