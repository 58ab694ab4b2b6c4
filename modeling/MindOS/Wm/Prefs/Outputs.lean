import MindOS.Apps.Entry
import MindOS.Steps
import MindOS.Wm.Prefs.Basic

/-!
# Configuring an output

A change to an output is checked and made setting by setting, some of them by the display
driver, which can refuse. What the driver does is a parameter; a refused call of it is taken
to leave the hardware as it was. Where the outputs and windows go afterwards is left out.
-/

namespace MindOS.Wm

open Text Steps

structure VideoMode where
  width : Int
  height : Int
  /-- In millihertz. -/
  refresh : Int
  deriving DecidableEq

inductive Scale where
  | integer (n : Int)
  | fractional (scale : Rat)
  deriving DecidableEq

inductive Transform where
  | normal
  | _90
  | _180
  | _270
  | flipped
  | flipped90
  | flipped180
  | flipped270
  deriving DecidableEq

/-- The change that `set_output` asks for. -/
structure OutputChange where
  mode : Option VideoMode := none
  scale : Option Rat := none
  position : Option Point := none
  transform : Option Text := none
  enabled : Option Bool := none
  vrr : Option Bool := none
  primary : Option Bool := none

/-- An output that is switched on. -/
structure Head where
  name : Text
  modes : List VideoMode
  current : Option VideoMode
  scale : Scale := .integer 1
  transform : Transform := .normal
  deriving DecidableEq

/-- What a connector offers when it comes up. -/
structure Connector where
  preferred : VideoMode
  others : List VideoMode

/-- The display driver, over the states of its hardware. -/
structure Driver (β : Type) where
  /-- Why no output can be switched on or off. -/
  fixed : Option Text := none
  /-- Why an output of the hardware cannot be switched off now. -/
  keepsOn : β → Text → Option Text := fun _ _ => none
  /-- A display on the same device is being reset. -/
  resetting : β → Text → Bool := fun _ _ => false
  /-- What a connector offers, unless it stays dark. -/
  connector : β → Text → Option Connector := fun _ _ => none
  light : β → Text → β := fun hardware _ => hardware
  darken : β → Text → β := fun hardware _ => hardware
  setMode : β → Text → VideoMode → Except Text β
  setVrr : β → Text → Bool → Except Text β

/-- The compositor with its outputs. -/
structure Displays (β : Type) where
  heads : List Head := []
  prefs : Prefs := {}
  saved : Prefs := {}
  announced : List Announcement := []
  /-- The connectors that are switched off. -/
  disabled : List Text := []
  hardware : β

def modeKey (mode : VideoMode) : Text :=
  (toString mode.width).toList ++ 'x' :: (toString mode.height).toList ++
    '@' :: (toString mode.refresh).toList

/-- A whole number in 32 bits, as `str::parse` reads it. -/
def parseI32 (s : Text) : Option Int :=
  let (negative, digits) := match s with
    | '-' :: digits => (true, digits)
    | '+' :: digits => (false, digits)
    | digits => (false, digits)
  if digits = [] ∨ ¬digits.all Char.isDigit then none
  else
    let n : Int := digits.foldl (fun n c => 10 * n + (c.toNat - '0'.toNat)) (0 : Nat)
    let n := if negative then -n else n
    if -2 ^ 31 ≤ n ∧ n < 2 ^ 31 then some n else none

/-- `WIDTHxHEIGHT@REFRESH_MHZ` -/
def parseModeKey (key : Text) : Option VideoMode := do
  let (size, refresh) ← Apps.splitOnce key '@'
  let (w, h) ← Apps.splitOnce size 'x'
  return ⟨← parseI32 (trim w), ← parseI32 (trim h), ← parseI32 (trim refresh)⟩

namespace Transform

def parse (name : Text) : Option Transform :=
  let name := (trim name).map Char.toLower
  if name ∈ (["normal", "0"] : List Text) then some .normal
  else if name = "90" then some ._90
  else if name = "180" then some ._180
  else if name = "270" then some ._270
  else if name = "flipped" then some .flipped
  else if name ∈ (["flipped-90", "flipped90"] : List Text) then some .flipped90
  else if name ∈ (["flipped-180", "flipped180"] : List Text) then some .flipped180
  else if name ∈ (["flipped-270", "flipped270"] : List Text) then some .flipped270
  else none

def name : Transform → Text
  | normal => "normal"
  | _90 => "90"
  | _180 => "180"
  | _270 => "270"
  | flipped => "flipped"
  | flipped90 => "flipped-90"
  | flipped180 => "flipped-180"
  | flipped270 => "flipped-270"

end Transform

/-- Millihertz as hertz with three decimals. -/
def hertz (refresh : Int) : Text :=
  let decimals := Nat.toDigits 10 (refresh.natAbs % 1000)
  (if refresh < 0 then ['-'] else []) ++ Nat.toDigits 10 (refresh.natAbs / 1000) ++
    '.' :: (List.replicate (3 - decimals.length) '0' ++ decimals)

/-- Change the first head of a name. -/
def updateHead (name : Text) (f : Head → Head) : List Head → List Head
  | [] => []
  | head :: heads =>
      if head.name = name then f head :: heads else head :: updateHead name f heads

namespace Displays

variable {β : Type}

def head (s : Displays β) (name : Text) : Option Head := s.heads.find? (·.name = name)

def setHead (s : Displays β) (name : Text) (f : Head → Head) : Displays β :=
  { s with heads := updateHead name f s.heads }

/-- Change the stored preferences of an output. -/
def setStored (s : Displays β) (name : Text) (f : OutputPrefs → OutputPrefs) : Displays β :=
  { s with prefs := { s.prefs with
    outputs := Function.update s.prefs.outputs name (f (s.prefs.outputs name)) } }

/-- Save the preferences and tell the shell. -/
def prefsChanged (s : Displays β) : Displays β :=
  { s with saved := s.prefs, announced := s.announced ++ [.prefs s.prefs] }

/-- A connector comes up as its stored preferences say, unless it stays dark. -/
def connectorConnected (d : Driver β) (s : Displays β) (name : Text) : Displays β :=
  match d.connector s.hardware name with
  | none => s
  | some connector =>
      let prefs := s.prefs.outputs name
      if prefs.enabled = some false then { s with disabled := s.disabled ++ [name] }
      else
        let modes := connector.preferred :: connector.others
        let mode := ((prefs.mode.bind parseModeKey).filter (· ∈ modes)).getD connector.preferred
        let scale := prefs.scale.filter fun scale => 1 / 2 ≤ scale ∧ scale ≤ 4
        let transform := prefs.transform.bind Transform.parse
        { s with
          heads := s.heads ++ [{
            name := name
            modes := modes
            current := some mode
            scale := (scale.map Scale.fractional).getD (.integer 1)
            transform := transform.getD .normal }]
          hardware := d.light s.hardware name }

/-- The driver switches an output on or off. -/
def setOutputEnabled (d : Driver β) (s : Displays β) (name : Text) (enabled : Bool) :
    Displays β × Except Text Unit :=
  match d.fixed with
  | some message => (s, .error message)
  | none =>
      if enabled then
        if name ∉ s.disabled then (s, .error (name ++ " is not a switched-off output".toList))
        else if d.resetting s.hardware name then
          (s, .error "a display is being reset; try again in a moment")
        else
          let s := { s with disabled := s.disabled.erase name }
          let s := s.setStored name fun prefs => { prefs with enabled := some true }
          let s := s.connectorConnected d name
          if (s.head name).isNone then
            (s, .error (name ++ " could not be switched on".toList))
          else (s, .ok ())
      else if s.heads.length ≤ 1 then
        (s, .error "the last display cannot be switched off")
      else if (s.head name).isNone then (s, .error ("no such output: ".toList ++ name))
      else
        match d.keepsOn s.hardware name with
        | some message => (s, .error message)
        | none =>
            if d.resetting s.hardware name then
              (s, .error "a display is being reset; try again in a moment")
            else
              ({ s with
                heads := s.heads.eraseP (·.name = name)
                disabled := s.disabled ++ [name]
                hardware := d.darken s.hardware name }, .ok ())

/-! ## The settings of an output that is on -/

inductive Setting where
  | mode
  | scale
  | transform
  | position
  deriving DecidableEq

/-- The settings, in the order they are looked at. -/
def Setting.all : List Setting := [.mode, .scale, .transform, .position]

variable (d : Driver β) (name : Text) (change : OutputChange)

/-- The mode to set, and the hardware once it has it. -/
def readMode (hardware : β) (s : Displays β) : Except Text (Option (VideoMode × β)) :=
  match change.mode, s.head name with
  | some mode, some head =>
      if mode ∉ head.modes then
        .error (name ++ " has no ".toList ++ (toString mode.width).toList ++ 'x' ::
          (toString mode.height).toList ++ " @ ".toList ++ hertz mode.refresh ++
            " Hz mode".toList)
      else if head.current = some mode then .ok (some (mode, hardware))
      else (d.setMode hardware name mode).map fun hardware => some (mode, hardware)
  | _, _ => .ok none

def setMode (mode : VideoMode × β) (s : Displays β) : Displays β :=
  (({ s with hardware := mode.2 }.setHead name fun head => { head with current := some mode.1 })
    |>.setStored name fun prefs => { prefs with mode := some (modeKey mode.1) })

def readScale : Except Text (Option Rat) :=
  match change.scale with
  | none => .ok none
  | some scale =>
      if 1 / 2 ≤ scale ∧ scale ≤ 4 then .ok (some scale)
      else .error "scale must be between 0.5 and 4"

def setScale (scale : Rat) (s : Displays β) : Displays β :=
  ((s.setHead name fun head => { head with scale := .fractional scale })
    |>.setStored name fun prefs => { prefs with scale := some scale })

def readTransform : Except Text (Option Transform) :=
  match change.transform with
  | none => .ok none
  | some transform =>
      match Transform.parse transform with
      | none => .error ("unknown transform: ".toList ++ transform)
      | some t => .ok (some t)

def setTransform (t : Transform) (s : Displays β) : Displays β :=
  ((s.setHead name fun head => { head with transform := t })
    |>.setStored name fun prefs => { prefs with transform := some t.name })

def setPosition (position : Point) (s : Displays β) : Displays β :=
  s.setStored name fun prefs => { prefs with position := some position }

/-- Look at one setting, with the hardware as it was before them all. -/
def applySetting (hardware : β) (s : Displays β) : Setting → Except Text (Displays β)
  | .mode => taking (s.readMode d name change hardware) (s.setMode name ·) s
  | .scale => taking (readScale change) (s.setScale name ·) s
  | .transform => taking (readTransform change) (s.setTransform name ·) s
  | .position => taking (.ok change.position) (s.setPosition name ·) s

/-- Switch an output on or off, and store that it is. -/
def switchOutput (s : Displays β) : Displays β × Except Text Unit :=
  match change.enabled with
  | none => (s, .ok ())
  | some enabled =>
      let wasOn := (s.head name).isSome
      match if enabled ≠ wasOn then s.setOutputEnabled d name enabled else (s, .ok ()) with
      | (s, .error message) => (s, .error message)
      | (s, .ok ()) =>
          (s.setStored name fun prefs => { prefs with enabled := some enabled }, .ok ())

/-- The settings of an output that is on, variable refresh and whether it is the primary one,
which are then saved. -/
def configure (s : Displays β) : Displays β × Except Text Unit :=
  match run (Setting.all.map fun setting t => applySetting d name change s.hardware t setting) s
  with
  | (s, .error message) => (s, .error message)
  | (s, .ok ()) =>
      let primary (s : Displays β) : Displays β :=
        if change.primary = some true then
          { s with prefs := { s.prefs with primaryOutput := some name } }
        else s
      match change.vrr with
      | none => ((primary s).prefsChanged, .ok ())
      | some vrr =>
          match d.setVrr s.hardware name vrr with
          | .error message => (s, .error message)
          | .ok hardware =>
              let s := { s with hardware := hardware }
              let s := s.setStored name fun prefs => { prefs with vrr := some vrr }
              ((primary s).prefsChanged, .ok ())

/-- The Displays settings: apply a change to one output and remember it. -/
def setOutputConfig (s : Displays β) : Displays β × Except Text Unit :=
  match s.switchOutput d name change with
  | (s, .error message) => (s, .error message)
  | (s, .ok ()) =>
      if change.enabled = some false then (s.prefsChanged, .ok ())
      else if (s.head name).isNone then (s, .error ("no such output: ".toList ++ name))
      else s.configure d name change

/-! ## What a change leaves -/

/-- The mode, the scale and the transform of an output. -/
def shown (s : Displays β) : Option (Option VideoMode × Scale × Transform) :=
  (s.head name).map fun head => (head.current, head.scale, head.transform)

/-- Nothing of an output, and nothing that is stored of the outputs, is changed. -/
def Same (s t : Displays β) : Prop :=
  t.shown name = s.shown name ∧ t.prefs.outputs = s.prefs.outputs

/-- A change that is refused changes nothing. -/
def Whole (s : Displays β) : Prop :=
  ∀ t message, s.setOutputConfig d name change = (t, .error message) → Same name s t

/-- Why a setting is refused. -/
def refusal (s : Displays β) : Setting → Option Text
  | .mode =>
      match s.readMode d name change s.hardware with
      | .error message => some message
      | .ok _ => none
  | .scale =>
      match readScale change with
      | .error message => some message
      | .ok _ => none
  | .transform =>
      match readTransform change with
      | .error message => some message
      | .ok _ => none
  | .position => none

/-- What a setting is to be is what it is, and is stored. -/
def Holds (s : Displays β) : Setting → Prop
  | .mode => ∀ mode, change.mode = some mode → ∀ head, s.head name = some head →
      head.current = some mode ∧ (s.prefs.outputs name).mode = some (modeKey mode)
  | .scale => ∀ scale, change.scale = some scale → ∀ head, s.head name = some head →
      head.scale = .fractional scale ∧ (s.prefs.outputs name).scale = some scale
  | .transform => ∀ t, change.transform.bind Transform.parse = some t →
      ∀ head, s.head name = some head →
        head.transform = t ∧ (s.prefs.outputs name).transform = some t.name
  | .position => ∀ position, change.position = some position →
      (s.prefs.outputs name).position = some position

/-- The hardware once the mode is set. -/
def hardwareAfter (s : Displays β) : β :=
  match s.readMode d name change s.hardware with
  | .ok (some (_, hardware)) => hardware
  | _ => s.hardware

/-- The driver refuses to switch variable refresh. -/
def VrrRefused (s : Displays β) : Prop :=
  ∃ vrr, change.vrr = some vrr ∧
    ∃ message, d.setVrr (s.hardwareAfter d name change) name vrr = .error message

/-- No setting is refused. -/
def Accepted (s : Displays β) : Prop :=
  (∀ k ∈ Setting.all, s.refusal d name change k = none) ∧ ¬s.VrrRefused d name change

/-- All settings before the first that is refused are as they are to be. -/
def NothingNew (s : Displays β) : Prop :=
  (∀ before setting after message, Setting.all = before ++ setting :: after →
    (∀ k ∈ before, s.refusal d name change k = none) →
      s.refusal d name change setting = some message → ∀ k ∈ before, s.Holds name change k) ∧
  ((∀ k ∈ Setting.all, s.refusal d name change k = none) → s.VrrRefused d name change →
    ∀ k ∈ Setting.all, s.Holds name change k)

/-- The driver tries to switch an output on. -/
def Tried (s : Displays β) : Prop :=
  d.fixed = none ∧ name ∈ s.disabled ∧ d.resetting s.hardware name = false

/-- The outputs with one more that the driver was told to switch on. -/
def switchedOn (s : Displays β) : Displays β :=
  (({ s with disabled := s.disabled.erase name }).setStored name fun prefs =>
    { prefs with enabled := some true }).connectorConnected d name

/-- When a change is made as a whole or not at all. -/
def Clean (s : Displays β) : Prop :=
  match change.enabled, s.head name with
  | some false, _ => True
  | none, none => True
  | none, some _ => s.NothingNew d name change
  | some true, some _ =>
      if (s.prefs.outputs name).enabled = some true then s.NothingNew d name change
      else s.Accepted d name change
  | some true, none => s.Tried d name →
      if (d.connector s.hardware name).isNone then (s.prefs.outputs name).enabled = some true
      else (s.switchedOn d name).Accepted d name change

/-! ### The settings and their parts -/

section

variable {d : Driver β} {name : Text} {change : OutputChange} {hardware : β} {s t : Displays β}
  {k : Setting} {message : Text}

@[simp] theorem head_setHead {f : Head → Head} (hf : ∀ head, (f head).name = head.name) :
    (s.setHead name f).head name = (s.head name).map f := by
  have hfind : ∀ heads : List Head, (updateHead name f heads).find? (·.name = name) =
      (heads.find? (·.name = name)).map f := by
    intro heads
    induction heads with
    | nil => rfl
    | cons head heads ih =>
        rw [updateHead]
        by_cases h : head.name = name
        · simp [h, hf]
        · simp [h, ih]
  exact hfind s.heads

@[simp] theorem head_setStored (f : OutputPrefs → OutputPrefs) :
    (s.setStored name f).head name = s.head name := rfl

theorem outputs_setStored (f : OutputPrefs → OutputPrefs) :
    (s.setStored name f).prefs.outputs =
      Function.update s.prefs.outputs name (f (s.prefs.outputs name)) := rfl

@[simp] theorem stored_setStored (f : OutputPrefs → OutputPrefs) :
    (s.setStored name f).prefs.outputs name = f (s.prefs.outputs name) :=
  Function.update_self ..

/-- The part of the outputs that a setting sets. -/
def Setting.Value : Setting → Type
  | .mode => Option (List VideoMode × Option VideoMode) × Option Text
  | .scale => Option Scale × Option Rat
  | .transform => Option Transform × Option Text
  | .position => Option Point

def Setting.get (name : Text) : (k : Setting) → Displays β → k.Value
  | .mode, s =>
      ((s.head name).map fun head => (head.modes, head.current), (s.prefs.outputs name).mode)
  | .scale, s => ((s.head name).map Head.scale, (s.prefs.outputs name).scale)
  | .transform, s => ((s.head name).map Head.transform, (s.prefs.outputs name).transform)
  | .position, s => (s.prefs.outputs name).position

/-- What no setting sets. -/
def rest (name : Text) (s : Displays β) :
    Option (List VideoMode) × Option Bool × Option Bool × (Text → OutputPrefs) :=
  ((s.head name).map Head.modes, (s.prefs.outputs name).enabled, (s.prefs.outputs name).vrr,
    Function.update s.prefs.outputs name {})

theorem readMode_congr (h : Setting.mode.get name s = Setting.mode.get name t) :
    s.readMode d name change hardware = t.readMode d name change hardware := by
  have hhead := (Prod.mk.inj h).1
  rw [readMode, readMode]
  cases hs : s.head name with
  | none => cases ht : t.head name <;> simp_all
  | some head =>
      cases ht : t.head name with
      | none => simp [hs, ht] at hhead
      | some head' =>
          obtain ⟨hmodes, hcurrent⟩ : head.modes = head'.modes ∧ head.current = head'.current := by
            simpa [hs, ht] using hhead
          cases change.mode with
          | none => rfl
          | some mode => simp only [hmodes, hcurrent]

theorem get_setMode (mode : VideoMode × β) : Setting.mode.get name (s.setMode name mode) =
    ((Setting.mode.get name s).1.map fun head => (head.1, some mode.1),
      some (modeKey mode.1)) := by
  refine Prod.ext ?_ (congrArg OutputPrefs.mode (stored_setStored _))
  simp only [Setting.get, setMode, head_setStored, head_setHead, implies_true, Option.map_map]
  rfl

theorem get_setScale (scale : Rat) : Setting.scale.get name (s.setScale name scale) =
    ((Setting.scale.get name s).1.map fun _ => .fractional scale, some scale) := by
  refine Prod.ext ?_ (congrArg OutputPrefs.scale (stored_setStored _))
  simp only [Setting.get, setScale, head_setStored, head_setHead, implies_true, Option.map_map]
  rfl

theorem get_setTransform (transform : Transform) :
    Setting.transform.get name (s.setTransform name transform) =
      ((Setting.transform.get name s).1.map fun _ => transform, some transform.name) := by
  refine Prod.ext ?_ (congrArg OutputPrefs.transform (stored_setStored _))
  simp only [Setting.get, setTransform, head_setStored, head_setHead, implies_true,
    Option.map_map]
  rfl

theorem get_setPosition (position : Point) :
    Setting.position.get name (s.setPosition name position) = some position :=
  congrArg OutputPrefs.position (stored_setStored _)

/-- Each setting is looked at on its own part. -/
def Setting.part (d : Driver β) (name : Text) (change : OutputChange) (hardware : β)
    (k : Setting) : Part (Displays β) Text where
  step s := applySetting d name change hardware s k
  same := Setoid.ker (k.get name)
  refused := by
    intro s t message h
    cases k <;> simp only [applySetting, taking_error]
    case mode => rw [readMode_congr h]; exact id
    all_goals exact id
  taken := by
    intro s t s' t' h hs ht
    have hget : k.get name s = k.get name t := h
    cases k <;> simp only [applySetting] at hs ht
    case mode =>
      refine taking_congr (Setting.mode.get name) (readMode_congr h) h (fun mode => ?_) hs ht
      rw [get_setMode, get_setMode, hget]
    case scale =>
      refine taking_congr (Setting.scale.get name) rfl h (fun scale => ?_) hs ht
      rw [get_setScale, get_setScale, hget]
    case transform =>
      refine taking_congr (Setting.transform.get name) rfl h (fun transform => ?_) hs ht
      rw [get_setTransform, get_setTransform, hget]
    case position =>
      refine taking_congr (Setting.position.get name) rfl h (fun position => ?_) hs ht
      rw [get_setPosition, get_setPosition]

theorem Setting.frames {k l : Setting} (hne : l ≠ k) :
    (k.part d name change hardware).Frames (l.part d name change hardware) := by
  intro s t h
  cases k
  all_goals
    refine taking_frame (l.get name) (fun a => ?_) h
    cases l <;> first
      | exact absurd rfl hne
      | simp [Setting.get, setMode, setScale, setTransform, setPosition, Function.comp_def]
        rfl

theorem Setting.separate :
    (Setting.all.map (Setting.part d name change hardware)).Pairwise Separate := by
  rw [List.pairwise_map]
  exact (by decide : Setting.all.Pairwise (· ≠ ·)).imp fun hne => ⟨frames hne.symm, frames hne⟩

/-- What no setting sets, as a part. -/
def restPart (name : Text) : Part (Displays β) Text := .still (Setoid.ker (rest name))

theorem rest_setStored {f : OutputPrefs → OutputPrefs} (henabled : ∀ p, (f p).enabled = p.enabled)
    (hvrr : ∀ p, (f p).vrr = p.vrr) : rest name (s.setStored name f) = rest name s := by
  simp only [rest, head_setStored, stored_setStored, henabled, hvrr, outputs_setStored,
    Function.update_idem]

theorem rest_setHead {f : Head → Head} (hname : ∀ head, (f head).name = head.name)
    (hmodes : ∀ head, (f head).modes = head.modes) :
    rest name (s.setHead name f) = rest name s := by
  simp only [rest, head_setHead hname, Option.map_map, Function.comp_def, hmodes]
  rfl

theorem Setting.frames_rest (k : Setting) :
    (k.part d name change hardware).Frames (restPart name) := by
  intro s t h
  cases k
  all_goals refine taking_frame (rest name) (fun a => ?_) h
  case mode => rw [setMode, rest_setStored, rest_setHead] <;> first | rfl | exact fun _ => rfl
  case scale => rw [setScale, rest_setStored, rest_setHead] <;> exact fun _ => rfl
  case transform => rw [setTransform, rest_setStored, rest_setHead] <;> exact fun _ => rfl
  case position => rw [setPosition, rest_setStored] <;> exact fun _ => rfl

theorem same_iff (h : rest name t = rest name s) :
    Same name s t ↔ ∀ k ∈ Setting.all, k.get name t = k.get name s := by
  obtain ⟨hmodes, h⟩ := Prod.mk.inj h
  obtain ⟨henabled, h⟩ := Prod.mk.inj h
  obtain ⟨hvrr, hothers⟩ := Prod.mk.inj h
  constructor
  · rintro ⟨hshown, houtputs⟩ k -
    cases hs : s.head name <;> cases ht : t.head name <;>
      cases k <;> simp_all [shown, Setting.get] <;> rfl
  · intro h
    have hmode := Prod.mk.inj (h .mode (by decide))
    have hscale := Prod.mk.inj (h .scale (by decide))
    have htransform := Prod.mk.inj (h .transform (by decide))
    have hposition : (t.prefs.outputs name).position = (s.prefs.outputs name).position :=
      h .position (by decide)
    constructor
    · cases hs : s.head name <;> cases ht : t.head name <;> simp_all [shown]
    · have hstored : t.prefs.outputs name = s.prefs.outputs name := by
        cases ht : t.prefs.outputs name
        cases hs : s.prefs.outputs name
        simp_all
      funext n
      obtain rfl | hn := eq_or_ne n name
      · exact hstored
      · simpa [hn] using congrFun hothers n

theorem refusal_eq : refusal d name change s k = some message ↔
    (k.part d name change s.hardware).step s = .error message := by
  cases k
  case mode =>
    refine Iff.trans ?_ taking_error.symm
    cases h : s.readMode d name change s.hardware <;> simp [refusal, h]
  case scale =>
    refine Iff.trans ?_ taking_error.symm
    cases h : readScale change <;> simp [refusal, h]
  case transform =>
    refine Iff.trans ?_ taking_error.symm
    cases h : readTransform change <;> simp [refusal, h]
  case position =>
    refine Iff.trans ?_ taking_error.symm
    simp [refusal]

theorem refusal_eq_none : refusal d name change s k = none ↔
    (k.part d name change s.hardware).Accepted s := by
  rw [Option.eq_none_iff_forall_ne_some]
  exact forall_congr' fun message => not_congr refusal_eq

theorem readMode_eq {mode : VideoMode × β}
    (h : s.readMode d name change hardware = .ok (some mode)) :
    change.mode = some mode.1 := by
  rw [readMode] at h
  split at h
  · next wanted head hwanted hhead =>
      split at h
      · cases h
      · split at h
        · cases h
          exact hwanted
        · cases hset : d.setMode hardware name wanted with
          | error e => simp [hset, Except.map] at h
          | ok hardware' =>
              rw [hset] at h
              cases h
              exact hwanted
  · cases h

theorem readMode_of_accepted {head : Head} {mode : VideoMode} (hhead : s.head name = some head)
    (haccepted : refusal d name change s .mode = none) (hmode : change.mode = some mode) :
    ∃ hardware, s.readMode d name change s.hardware = .ok (some (mode, hardware)) := by
  cases hread : s.readMode d name change s.hardware with
  | error message => simp [refusal, hread] at haccepted
  | ok read =>
      cases read with
      | some read =>
          obtain rfl := Option.some.inj (hmode.symm.trans (readMode_eq hread))
          exact ⟨read.2, rfl⟩
      | none =>
          rw [readMode, hmode, hhead] at hread
          simp only at hread
          split at hread
          · cases hread
          · split at hread
            · cases hread
            · cases hset : d.setMode s.hardware name mode <;> simp [hset, Except.map] at hread

theorem readScale_of_accepted (haccepted : refusal d name change s .scale = none) :
    readScale change = .ok change.scale := by
  cases hscale : change.scale with
  | none => rw [readScale, hscale]
  | some scale =>
      have hread : readScale change = if 1 / 2 ≤ scale ∧ scale ≤ 4 then .ok (some scale)
          else .error "scale must be between 0.5 and 4".toList := by
        rw [readScale, hscale]
      split at hread
      · exact hread
      · rw [refusal, hread] at haccepted
        cases haccepted

theorem readTransform_of_accepted (haccepted : refusal d name change s .transform = none) :
    readTransform change = .ok (change.transform.bind Transform.parse) := by
  cases htransform : change.transform with
  | none => rw [readTransform, htransform]; rfl
  | some transform =>
      cases hparse : Transform.parse transform with
      | none => simp [refusal, readTransform, htransform, hparse] at haccepted
      | some t => simp [readTransform, htransform, hparse]

theorem get_setMode_eq_iff {head : Head} (hhead : s.head name = some head)
    (mode : VideoMode × β) :
    Setting.mode.get name (s.setMode name mode) = Setting.mode.get name s ↔
      head.current = some mode.1 ∧ (s.prefs.outputs name).mode = some (modeKey mode.1) := by
  rw [get_setMode]
  refine Prod.ext_iff.trans (and_congr ?_ eq_comm)
  simp [Setting.get, hhead, eq_comm]

theorem get_setScale_eq_iff {head : Head} (hhead : s.head name = some head) (scale : Rat) :
    Setting.scale.get name (s.setScale name scale) = Setting.scale.get name s ↔
      head.scale = .fractional scale ∧ (s.prefs.outputs name).scale = some scale := by
  rw [get_setScale]
  refine Prod.ext_iff.trans (and_congr ?_ eq_comm)
  simp [Setting.get, hhead, eq_comm]

theorem get_setTransform_eq_iff {head : Head} (hhead : s.head name = some head)
    (transform : Transform) :
    Setting.transform.get name (s.setTransform name transform) = Setting.transform.get name s ↔
      head.transform = transform ∧ (s.prefs.outputs name).transform = some transform.name := by
  rw [get_setTransform]
  refine Prod.ext_iff.trans (and_congr ?_ eq_comm)
  simp [Setting.get, hhead, eq_comm]

theorem holds_iff {head : Head} (hhead : s.head name = some head)
    (haccepted : refusal d name change s k = none) :
    Holds name change s k ↔ (k.part d name change s.hardware).AsIs s := by
  cases k
  case mode =>
    refine Iff.trans ?_ (taking_asIs (Setting.mode.get name)).symm
    simp only [Holds, hhead, Option.some.injEq, forall_eq']
    constructor
    · intro h mode hread
      exact (get_setMode_eq_iff hhead mode).mpr (h mode.1 (readMode_eq hread))
    · intro h mode hmode
      obtain ⟨hardware, hread⟩ := readMode_of_accepted hhead haccepted hmode
      exact (get_setMode_eq_iff hhead (mode, hardware)).mp (h _ hread)
  case scale =>
    refine Iff.trans ?_ (taking_asIs (Setting.scale.get name)).symm
    simp only [Holds, hhead, Option.some.injEq, forall_eq', ← get_setScale_eq_iff hhead]
    rw [readScale_of_accepted haccepted]
    exact forall_congr' fun scale => imp_congr_left (Except.ok.injEq ..).symm.to_iff
  case transform =>
    refine Iff.trans ?_ (taking_asIs (Setting.transform.get name)).symm
    simp only [Holds, hhead, Option.some.injEq, forall_eq', ← get_setTransform_eq_iff hhead]
    rw [readTransform_of_accepted haccepted]
    exact forall_congr' fun transform => imp_congr_left (Except.ok.injEq ..).symm.to_iff
  case position =>
    refine Iff.trans ?_ (taking_asIs (Setting.position.get name)).symm
    refine forall_congr' fun position => imp_congr (Except.ok.injEq ..).symm.to_iff ?_
    rw [get_setPosition]
    exact eq_comm

/-! ### The whole change -/

/-- The parts of all settings, for a change that starts from `s`. -/
def parts (d : Driver β) (name : Text) (change : OutputChange) (s : Displays β) :
    List (Part (Displays β) Text) :=
  Setting.all.map (Setting.part d name change s.hardware)

theorem steps_eq :
    (Setting.all.map fun setting t => applySetting d name change s.hardware t setting) =
      (parts d name change s).map Part.step := by
  rw [parts, List.map_map]
  rfl

theorem refusal_all_iff : (∀ k ∈ Setting.all, s.refusal d name change k = none) ↔
    ∃ t, run ((parts d name change s).map Part.step) s = (t, .ok ()) := by
  rw [parts, run_eq_ok_iff Setting.separate, List.forall_mem_map]
  exact forall₂_congr fun k _ => refusal_eq_none

theorem rest_of_run {r : Except Text Unit}
    (h : run ((parts d name change s).map Part.step) s = (t, r)) : rest name t = rest name s :=
  same_of_run (q := restPart name) (List.forall_mem_map.mpr fun k _ => k.frames_rest) h

theorem Setting.frames_hardware (hk : k ≠ .mode) : (k.part d name change hardware).Frames
    (.still (Setoid.ker fun s : Displays β => s.hardware)) := by
  intro s t h
  cases k
  case mode => exact absurd rfl hk
  all_goals
    refine taking_frame (fun s : Displays β => s.hardware) (fun a => ?_) h
    rfl

theorem hardware_of_run (h : run ((parts d name change s).map Part.step) s = (t, .ok ())) :
    t.hardware = s.hardwareAfter d name change := by
  rw [parts, Setting.all, List.map_cons, List.map_cons, run] at h
  cases hmode : (Setting.mode.part d name change s.hardware).step s with
  | error message => simp [hmode] at h
  | ok u =>
      rw [hmode] at h
      have hu : t.hardware = u.hardware := same_of_run
        (List.forall_mem_map.mpr fun k hk => k.frames_hardware (by rintro rfl; simp at hk)) h
      rw [hu, hardwareAfter]
      obtain ⟨hread, rfl⟩ | ⟨mode, hread, rfl⟩ := taking_ok.mp hmode
      · rw [hread]
      · rw [hread]
        rfl

/-- Configuring an output that is on is refused without a trace exactly if all settings before
the first that is refused are as they are to be. -/
theorem configure_iff {head : Head} (hhead : s.head name = some head) :
    (∀ t message, s.configure d name change = (t, .error message) → Same name s t) ↔
      s.NothingNew d name change := by
  cases hrun : run ((parts d name change s).map Part.step) s with
  | mk t result =>
      have hsame : Same name s t ↔ ∀ k ∈ Setting.all, k.get name t = k.get name s :=
        same_iff (rest_of_run hrun)
      cases result with
      | error message =>
          have hconfigure : s.configure d name change = (t, .error message) := by
            rw [configure, steps_eq, hrun]
          have hseparate : (Setting.all.map
              (Setting.part d name change s.hardware)).Pairwise Separate := Setting.separate
          have hkept := kept_map_iff (s := s) hseparate fun _ => True
          rw [← parts, hrun] at hkept
          constructor
          · intro h
            refine ⟨fun before setting after message' hall hbefore hrefused k hk => ?_, ?_⟩
            · refine (holds_iff hhead (hbefore k hk)).mpr (hkept.mp (fun t' e he _ => ?_) before
                setting after message' hall (fun j hj => refusal_eq_none.mp (hbefore j hj))
                  (refusal_eq.mp hrefused) trivial k hk)
              obtain ⟨rfl, -⟩ := Prod.mk.inj he
              exact hsame.mp (h t message hconfigure)
            · intro hall
              obtain ⟨t', ht'⟩ := refusal_all_iff.mp hall
              simp [hrun] at ht'
          · intro h t' message' h'
            obtain ⟨rfl, -⟩ := Prod.mk.inj (hconfigure.symm.trans h')
            refine hsame.mpr (hkept.mpr ?_ t message rfl trivial)
            intro before setting after message' hall hbefore hrefused _ k hk
            have hnone := refusal_eq_none.mpr (hbefore k hk)
            exact (holds_iff hhead hnone).mp (h.1 before setting after message' hall
              (fun j hj => refusal_eq_none.mpr (hbefore j hj)) (refusal_eq.mpr hrefused) k hk)
      | ok u =>
          have hall := refusal_all_iff.mpr ⟨t, hrun⟩
          have hholds : Same name s t ↔ ∀ k ∈ Setting.all, s.Holds name change k := by
            rw [hsame]
            refine forall₂_congr fun k hk => ?_
            rw [holds_iff hhead (hall k hk)]
            exact same_iff_asIs Setting.separate hrun (List.mem_map_of_mem hk)
          have hfirst : ∀ before setting after message, Setting.all = before ++ setting :: after →
              (∀ k ∈ before, s.refusal d name change k = none) →
                s.refusal d name change setting = some message →
                  ∀ k ∈ before, s.Holds name change k := by
            intro before setting after message hsplit _ hrefused
            have hmem : setting ∈ Setting.all := by simp [hsplit]
            rw [hall setting hmem] at hrefused
            cases hrefused
          have hiff : s.NothingNew d name change ↔
              (s.VrrRefused d name change → Same name s t) := by
            rw [hholds]
            exact ⟨fun h => h.2 hall, fun h => ⟨hfirst, fun _ => h⟩⟩
          rw [hiff, VrrRefused, ← hardware_of_run hrun, configure, steps_eq, hrun]
          cases hvrr : change.vrr with
          | none => simp
          | some vrr =>
              cases hset : d.setVrr t.hardware name vrr with
              | error message => simp [hset]
              | ok hardware => simp [hset]

theorem rest_of_configure (h : s.configure d name change = (t, .error message)) :
    rest name t = rest name s := by
  rw [configure, steps_eq] at h
  cases hrun : run ((parts d name change s).map Part.step) s with
  | mk u result =>
      rw [hrun] at h
      have hrest := rest_of_run hrun
      cases result with
      | error message' =>
          obtain ⟨rfl, -⟩ := Prod.mk.inj h
          exact hrest
      | ok _ =>
          cases hvrr : change.vrr with
          | none => simp [hvrr] at h
          | some vrr =>
              cases hset : d.setVrr u.hardware name vrr with
              | ok hardware => simp [hvrr, hset] at h
              | error message' =>
                  simp only [hvrr, hset] at h
                  obtain ⟨rfl, -⟩ := Prod.mk.inj h
                  exact hrest

theorem configure_ok_iff :
    (∀ t message, s.configure d name change ≠ (t, .error message)) ↔
      s.Accepted d name change := by
  rw [Accepted, refusal_all_iff, configure, steps_eq]
  cases hrun : run ((parts d name change s).map Part.step) s with
  | mk t result =>
      cases result with
      | error message => simp
      | ok u =>
          rw [VrrRefused, ← hardware_of_run hrun]
          cases hvrr : change.vrr with
          | none => simp
          | some vrr => cases hset : d.setVrr t.hardware name vrr <;> simp [hset]

theorem setOutputEnabled_false (h : s.setOutputEnabled d name false = (t, .error message)) :
    t = s := by
  rw [setOutputEnabled] at h
  split at h
  · exact (Prod.mk.inj h).1.symm
  · simp only [Bool.false_eq_true, if_false] at h
    split at h
    · exact (Prod.mk.inj h).1.symm
    · split at h
      · exact (Prod.mk.inj h).1.symm
      · split at h
        · exact (Prod.mk.inj h).1.symm
        · split at h
          · exact (Prod.mk.inj h).1.symm
          · cases (Prod.mk.inj h).2

theorem Same.refl (name : Text) (s : Displays β) : Same name s s := ⟨rfl, rfl⟩

theorem accepted_setStored {f : OutputPrefs → OutputPrefs} :
    (s.setStored name f).Accepted d name change ↔ s.Accepted d name change := by
  refine and_congr (forall₂_congr fun k _ => ?_) Iff.rfl
  cases k <;> exact Iff.rfl

theorem setStored_enabled (h : (s.prefs.outputs name).enabled = some true) :
    (s.setStored name fun prefs => { prefs with enabled := some true }) = s := by
  have hsame : ({ s.prefs.outputs name with enabled := some true } : OutputPrefs) =
      s.prefs.outputs name := by
    rw [← h]
  rw [setStored, hsame, Function.update_eq_self]

theorem connectorConnected_of_dark (h : d.connector s.hardware name = none) :
    s.connectorConnected d name = s := by
  rw [connectorConnected, h]

theorem head_connectorConnected {connector : Connector}
    (h : d.connector s.hardware name = some connector)
    (henabled : (s.prefs.outputs name).enabled = some true) :
    ((s.connectorConnected d name).head name).isSome = true := by
  have hfalse : (s.prefs.outputs name).enabled ≠ some false := by simp [henabled]
  rw [connectorConnected, h]
  simp only [if_neg hfalse, head, List.find?_append]
  simp

theorem setOutputEnabled_of_tried (h : s.Tried d name) : s.setOutputEnabled d name true =
    if ((s.switchedOn d name).head name).isNone then
      (s.switchedOn d name, .error (name ++ " could not be switched on".toList))
    else (s.switchedOn d name, .ok ()) := by
  obtain ⟨hfixed, hdisabled, hresetting⟩ := h
  rw [setOutputEnabled, hfixed]
  simp only [if_true, if_neg (not_not.mpr hdisabled), hresetting, Bool.false_eq_true, if_false]
  rfl

theorem setOutputEnabled_of_not_tried (h : ¬s.Tried d name) :
    ∃ message, s.setOutputEnabled d name true = (s, .error message) := by
  rw [setOutputEnabled]
  cases hfixed : d.fixed with
  | some message => exact ⟨message, rfl⟩
  | none =>
      simp only [if_true]
      by_cases hdisabled : name ∈ s.disabled
      · have hresetting : d.resetting s.hardware name = true := by
          rw [← Bool.not_eq_false]
          exact fun hresetting => h ⟨hfixed, hdisabled, hresetting⟩
        exact ⟨_, by rw [if_neg (not_not.mpr hdisabled), if_pos hresetting]⟩
      · exact ⟨_, by rw [if_pos hdisabled]⟩

theorem setOutputConfig_eq (hswitch : s.switchOutput d name change = (t, .ok ()))
    (henabled : change.enabled ≠ some false) (hhead : (t.head name).isSome = true) :
    s.setOutputConfig d name change = t.configure d name change := by
  have hon : ¬(t.head name).isNone = true := by
    rw [Option.isNone_iff_eq_none, ← Option.not_isSome_iff_eq_none, not_not]
    exact hhead
  rw [setOutputConfig, hswitch]
  simp only [if_neg henabled, if_neg hon]

theorem whole_of_none (henabled : change.enabled = none) :
    s.Whole d name change ↔ s.Clean d name change := by
  have hswitch : s.switchOutput d name change = (s, .ok ()) := by
    rw [switchOutput, henabled]
  rw [Whole, Clean, henabled]
  cases hhead : s.head name with
  | some head =>
      rw [setOutputConfig_eq hswitch (by simp [henabled]) (by simp [hhead])]
      exact configure_iff hhead
  | none =>
      refine iff_of_true (fun t message h => ?_) trivial
      have hoff : (s.head name).isNone = true := by simp [hhead]
      rw [setOutputConfig, hswitch] at h
      simp only [henabled, reduceCtorEq, if_false, if_pos hoff] at h
      rw [← (Prod.mk.inj h).1]
      exact .refl name s

theorem whole_of_false (henabled : change.enabled = some false) :
    s.Whole d name change ↔ s.Clean d name change := by
  rw [Clean, henabled]
  refine iff_of_true (fun t message h => ?_) trivial
  rw [setOutputConfig] at h
  cases hswitch : s.switchOutput d name change with
  | mk u result =>
      rw [hswitch] at h
      cases result with
      | ok _ =>
          simp only [henabled, if_true] at h
          cases (Prod.mk.inj h).2
      | error message' =>
          obtain ⟨rfl, -⟩ := Prod.mk.inj h
          have hcall : ∀ v message, (if false ≠ (s.head name).isSome then
              s.setOutputEnabled d name false else (s, .ok ())) = (v, .error message) → v = s := by
            intro v message h
            split at h
            · exact setOutputEnabled_false h
            · cases (Prod.mk.inj h).2
          rw [switchOutput, henabled] at hswitch
          simp only at hswitch
          split at hswitch
          · next v message hv =>
              rw [← (Prod.mk.inj hswitch).1, hcall v message hv]
              exact .refl name s
          · cases (Prod.mk.inj hswitch).2

theorem whole_of_on (henabled : change.enabled = some true) {head : Head}
    (hhead : s.head name = some head) : s.Whole d name change ↔ s.Clean d name change := by
  have hswitch : s.switchOutput d name change =
      (s.setStored name fun prefs => { prefs with enabled := some true }, .ok ()) := by
    rw [switchOutput, henabled]
    simp [hhead]
  rw [Whole, Clean, henabled, hhead,
    setOutputConfig_eq hswitch (by simp [henabled]) (by simp [hhead])]
  by_cases hstored : (s.prefs.outputs name).enabled = some true
  · rw [setStored_enabled hstored]
    simp only [if_pos hstored]
    exact configure_iff hhead
  · simp only [if_neg hstored]
    rw [← accepted_setStored, ← configure_ok_iff]
    refine forall₂_congr fun t message => ⟨fun h hconfigure => ?_, fun h hconfigure => ?_⟩
    · have hrest := (Prod.mk.inj (Prod.mk.inj (rest_of_configure hconfigure)).2).1
      rw [(h hconfigure).2, stored_setStored] at hrest
      exact hstored hrest
    · exact absurd hconfigure h

theorem whole_of_off (henabled : change.enabled = some true) (hhead : s.head name = none) :
    s.Whole d name change ↔ s.Clean d name change := by
  have hcall : (if true ≠ (s.head name).isSome then s.setOutputEnabled d name true
      else (s, .ok ())) = s.setOutputEnabled d name true := by
    rw [hhead]
    rfl
  rw [Whole, Clean, henabled, hhead]
  by_cases htried : s.Tried d name
  · simp only [htried, forall_const]
    cases hconnector : d.connector s.hardware name with
    | none =>
        have hdark : s.switchedOn d name = ({ s with disabled := s.disabled.erase name }).setStored
            name fun prefs => { prefs with enabled := some true } :=
          connectorConnected_of_dark hconnector
        have hoff : ((s.switchedOn d name).head name).isNone = true := by
          rw [hdark, Option.isNone_iff_eq_none]
          exact hhead
        have hconfig : s.setOutputConfig d name change =
            (s.switchedOn d name, .error (name ++ " could not be switched on".toList)) := by
          have hset := setOutputEnabled_of_tried htried
          rw [if_pos hoff] at hset
          rw [setOutputConfig, switchOutput, henabled]
          simp only
          rw [hcall, hset]
        have hsame : Same name s (s.switchedOn d name) ↔
            (s.prefs.outputs name).enabled = some true := by
          rw [hdark]
          constructor
          · intro h
            have hstored := congrArg OutputPrefs.enabled (congrFun h.2 name)
            rw [stored_setStored] at hstored
            exact hstored.symm
          · intro h
            have hstored := congrArg (fun t : Displays β => t.prefs.outputs)
              (setStored_enabled (s := { s with disabled := s.disabled.erase name }) h)
            exact ⟨rfl, hstored⟩
        rw [hconfig, ← hsame]
        refine ⟨fun h => h _ _ rfl, fun h t message ht => ?_⟩
        rw [← (Prod.mk.inj ht).1]
        exact h
    | some connector =>
        have hon : ((s.switchedOn d name).head name).isSome = true :=
          head_connectorConnected hconnector (congrArg OutputPrefs.enabled (stored_setStored _))
        have hswitch : s.switchOutput d name change = ((s.switchedOn d name).setStored name
            fun prefs => { prefs with enabled := some true }, .ok ()) := by
          have hset := setOutputEnabled_of_tried htried
          rw [if_neg (by rw [Bool.not_eq_true, Option.isNone_eq_false_iff]; exact hon)] at hset
          rw [switchOutput, henabled]
          simp only
          rw [hcall, hset]
        rw [setOutputConfig_eq hswitch (by simp [henabled]) hon, ← accepted_setStored,
          ← configure_ok_iff]
        refine forall₂_congr fun t message => ⟨fun h hconfigure => ?_, fun h hconfigure => ?_⟩
        · -- The output is there now, which it was not before.
          have hmodes := (Prod.mk.inj (rest_of_configure hconfigure)).1
          have hshown := (h hconfigure).1
          rw [shown, shown, hhead, Option.map_none, Option.map_eq_none_iff] at hshown
          rw [hshown, head_setStored, Option.map_none, eq_comm, Option.map_eq_none_iff] at hmodes
          rw [hmodes] at hon
          cases hon
        · exact absurd hconfigure h
  · refine iff_of_true (fun t message h => ?_) fun h => absurd h htried
    obtain ⟨message', hset⟩ := setOutputEnabled_of_not_tried htried
    have hswitch : s.switchOutput d name change = (s, .error message') := by
      rw [switchOutput, henabled]
      simp only
      rw [hcall, hset]
    rw [setOutputConfig, hswitch] at h
    rw [← (Prod.mk.inj h).1]
    exact .refl name s

/-- A change to an output is made as a whole or refused without a trace exactly if it is
clean. -/
theorem whole_iff (d : Driver β) (name : Text) (change : OutputChange) (s : Displays β) :
    s.Whole d name change ↔ s.Clean d name change := by
  cases henabled : change.enabled with
  | none => exact whole_of_none henabled
  | some enabled =>
      cases enabled with
      | false => exact whole_of_false henabled
      | true =>
          cases hhead : s.head name with
          | some head => exact whole_of_on henabled hhead
          | none => exact whole_of_off henabled hhead

end

/-- A transform that there is not, after a mode that stays set. -/
theorem not_always_whole : ¬∀ (β : Type) (d : Driver β) (name : Text) (change : OutputChange)
    (s : Displays β), s.Whole d name change := by
  intro h
  let d : Driver Unit :=
    { setMode := fun hardware _ _ => .ok hardware, setVrr := fun hardware _ _ => .ok hardware }
  let fast : VideoMode := ⟨2560, 1440, 143912⟩
  let slow : VideoMode := ⟨2560, 1440, 59951⟩
  let head : Head := { name := "DP-1", modes := [slow, fast], current := some slow }
  let change : OutputChange := { mode := some fast, transform := some "sideways" }
  have hsame := h Unit d "DP-1" change { heads := [head], hardware := () } _
    "unknown transform: sideways" rfl
  exact absurd hsame.1 (by decide)

end Displays

end MindOS.Wm
