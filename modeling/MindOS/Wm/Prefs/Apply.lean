import MindOS.Steps
import MindOS.Wm.Prefs.Basic

/-!
# Setting preferences

The keys of a `set_prefs` request are read, checked and put into effect one after the other.
A key that is refused ends the request, with the keys before it in effect.
-/

namespace MindOS.Wm

open Text Steps

/-- Why a request ends early. -/
inductive Stop where
  | err (message : Text)
  | panic
  deriving DecidableEq

/-- The fields of a request. -/
abbrev Fields := List (Text × Json)

def Fields.value (object : Fields) (key : Text) : Option Json := object.lookup key

namespace Compositor

variable (o : Externals) (object : Fields)

/-! ## The keys -/

/-- The settings that `input` asks for, with a keyboard they can be given to. -/
def readInput (s : Compositor) : Except Stop (Option InputSettings) :=
  match object.value "input" with
  | none => .ok none
  | some patch =>
      match s.prefs.input.patched o patch with
      | .error message => .error (.err message)
      | .ok next =>
          if !o.hasKeyboard then .error (.err "No keyboard available")
          else if (next.keyboardLayout ≠ s.prefs.input.keyboardLayout ∨
              next.keyboardVariant ≠ s.prefs.input.keyboardVariant ∨
              next.keyboardOptions ≠ s.prefs.input.keyboardOptions) ∧ !o.loadsKeymap next.xkb then
            .error (.err "That keyboard layout, variant or option could not be loaded")
          else .ok (some next)

def setInput (next : InputSettings) (s : Compositor) : Compositor :=
  let changed := next.keyboardLayout ≠ s.prefs.input.keyboardLayout ∨
    next.keyboardVariant ≠ s.prefs.input.keyboardVariant ∨
    next.keyboardOptions ≠ s.prefs.input.keyboardOptions
  { s with
    keymap := if changed then next.xkb else s.keymap
    repeatInfo := (next.repeatRate, next.repeatDelay)
    mouse := next.toMouseSettings
    prefs := { s.prefs with input := next } }

def readLayoutMode : Except Stop (Option LayoutMode) :=
  match object.value "layout_mode" with
  | none => .ok none
  | some mode =>
      match mode.asStr with
      | none => .error (.err "layout_mode must be a string")
      | some name =>
          match LayoutMode.parse name with
          | none => .error (.err ("unknown layout mode: ".toList ++ name))
          | some mode => .ok (some mode)

def readShowTools : Except Stop (Option Bool) :=
  match object.value "mind_show_tools" with
  | none => .ok none
  | some show' =>
      match show'.asBool with
      | none => .error (.err "mind_show_tools must be true or false")
      | some show' => .ok (some show')

def setShowTools (show' : Bool) (s : Compositor) : Compositor :=
  { s with prefs := { s.prefs with mindShowTools := some show' }, showTools := show' }

def readPrimaryOutput : Except Stop (Option (Option Text)) :=
  match object.value "primary_output" with
  | none => .ok none
  | some .null => .ok (some none)
  | some (.str name) => .ok (some (some name))
  | some _ => .error (.err "primary_output must be a string or null")

def setPrimaryOutput (primary : Option Text) (s : Compositor) : Compositor :=
  { s with prefs := { s.prefs with primaryOutput := primary } }

/-- The theme and the size that `cursor_theme` and `cursor_size` ask for; one that is not
there is as configured. -/
def readCursor (s : Compositor) : Except Stop (Option (Text × Nat)) :=
  match object.value "cursor_theme", object.value "cursor_size" with
  | none, none => .ok none
  | askedTheme, askedSize => do
      let theme ← match askedTheme with
        | none => .ok s.configured.1
        | some value =>
            match value.asStr with
            | none => .error (.err "cursor_theme must be a string")
            | some theme => .ok theme
      let size ← match askedSize with
        | none => .ok s.configured.2
        | some value =>
            match value.asU64.filter fun size => 8 ≤ size ∧ size ≤ 256 with
            | none => .error (.err "cursor_size must be a number between 8 and 256")
            | some size => .ok size
      return some (theme, size)

def setCursor (cursor : Text × Nat) (s : Compositor) : Compositor :=
  { s with
    prefs := { s.prefs with cursorTheme := some cursor.1, cursorSize := some cursor.2 }
    xcursorTheme := some cursor.1
    xcursorSize := some cursor.2
    pointer := cursor }

def readIdle (s : Compositor) : Except Stop (Option IdlePrefs) :=
  match object.value "idle" with
  | none => .ok none
  | some (.obj patch) =>
      match mergeFields "unknown idle setting: " (o.idleToValue s.prefs.idle) patch with
      | .error message => .error (.err message)
      | .ok merged =>
          match o.idleFromValue merged with
          | .error err => .error (.err ("invalid idle settings: ".toList ++ err))
          | .ok settings => .ok (some settings)
  | some _ => .error (.err "idle must be an object")

/-- A new timeout counts from now. -/
def setIdle (settings : IdlePrefs) (s : Compositor) : Compositor :=
  let idle := { s.idle with settings := settings.toIdleSettings, since := some o.now }
  { s with
    prefs := { s.prefs with idle := settings }
    idle := (idle.armIdleTimer o.now).idleChanged }

/-- What the preferences keep of `accent`, and the colour. -/
def readAccent : Except Stop (Option (Option Text × Nat)) :=
  match object.value "accent" with
  | none => .ok none
  | some .null =>
      match (parseAccent o.configAccent).run with
      | none => .error .panic
      | some rgb => .ok (some (none, rgb.getD 0x3ddc97))
  | some (.str text) =>
      match (parseAccent text).run with
      | none => .error .panic
      | some none => .error (.err "accent must be a colour like #67dce5")
      | some (some rgb) => .ok (some (some (accentHex rgb), rgb))
  | some _ => .error (.err "accent must be a colour or null")

def setAccent (accent : Option Text × Nat) (s : Compositor) : Compositor :=
  { s with
    prefs := { s.prefs with accent := accent.1 }
    accentRgb := accent.2 % 2 ^ 24
    barAccent := accent.2 % 2 ^ 24 }

/-! ## The request -/

inductive Key where
  | input
  | layoutMode
  | showTools
  | primaryOutput
  | cursor
  | idle
  | accent
  deriving DecidableEq

/-- The keys, in the order they are looked at. -/
def Key.all : List Key :=
  [.input, .layoutMode, .showTools, .primaryOutput, .cursor, .idle, .accent]

/-- Look at one key. -/
def applyKey (s : Compositor) : Key → Except Stop Compositor
  | .input => taking (s.readInput o object) (s.setInput ·) s
  | .layoutMode => taking (readLayoutMode object) (s.setLayoutMode o) s
  | .showTools => taking (readShowTools object) (s.setShowTools ·) s
  | .primaryOutput => taking (readPrimaryOutput object) (s.setPrimaryOutput ·) s
  | .cursor => taking (s.readCursor object) (s.setCursor ·) s
  | .idle => taking (s.readIdle o object) (s.setIdle o ·) s
  | .accent => taking (readAccent o object) (s.setAccent ·) s

/-- The `set_prefs` of the shell: any of the keys. -/
def applyPrefs (s : Compositor) : Json → Compositor × Except Stop Unit
  | .obj object =>
      match Steps.run (Key.all.map fun key s => applyKey o object s key) s with
      | (s, .ok ()) => (s.prefsChanged, .ok ())
      | (s, .error stop) => (s, .error stop)
  | _ => (s, .error (.err "prefs must be an object"))

/-! ## What a request leaves -/

/-- What a request sets: the preferences, the layout mode, the accent and the pointer. -/
@[ext] structure Settings where
  prefs : Prefs
  layoutMode : LayoutMode
  accentRgb : Nat
  configured : Text × Nat
  pointer : Text × Nat
  mouse : MouseSettings

def settings (s : Compositor) : Settings :=
  ⟨s.prefs, s.wm.layout.mode, s.accentRgb, s.configured, s.pointer, s.mouse⟩

/-- A request that fails leaves the settings as they were, and one that succeeds has saved and
announced them. -/
def Atomic (s : Compositor) (value : Json) : Prop :=
  match s.applyPrefs o value with
  | (t, .ok ()) => t.saved = t.prefs ∧ t.announced.getLast? = some (.prefs t.prefs)
  | (t, .error (.err _)) => t.settings = s.settings
  | (_, .error .panic) => True

/-- Why a value is refused. -/
def refusalOf {α : Type} : Except Stop α → Option Stop
  | .error stop => some stop
  | .ok _ => none

/-- Why a key is refused. -/
def refusal (s : Compositor) : Key → Option Stop
  | .input => refusalOf (s.readInput o object)
  | .layoutMode => refusalOf (readLayoutMode object)
  | .showTools => refusalOf (readShowTools object)
  | .primaryOutput => refusalOf (readPrimaryOutput object)
  | .cursor => refusalOf (s.readCursor object)
  | .idle => refusalOf (s.readIdle o object)
  | .accent => refusalOf (readAccent o object)

/-- What a key asks for is already so. -/
def Holds (s : Compositor) : Key → Prop
  | .input => ∀ next, s.readInput o object = .ok (some next) →
      next = s.prefs.input ∧ next.toMouseSettings = s.mouse
  | .layoutMode => ∀ mode, readLayoutMode object = .ok (some mode) → s.wm.layout.mode = mode
  | .showTools => ∀ show', readShowTools object = .ok (some show') →
      some show' = s.prefs.mindShowTools
  | .primaryOutput => ∀ primary, readPrimaryOutput object = .ok (some primary) →
      primary = s.prefs.primaryOutput
  | .cursor => ∀ cursor, s.readCursor object = .ok (some cursor) →
      (some cursor.1, some cursor.2) = (s.prefs.cursorTheme, s.prefs.cursorSize) ∧
        cursor = s.configured ∧ cursor = s.pointer
  | .idle => ∀ settings, s.readIdle o object = .ok (some settings) → settings = s.prefs.idle
  | .accent => ∀ accent, readAccent o object = .ok (some accent) →
      accent.1 = s.prefs.accent ∧ accent.2 % 2 ^ 24 = s.accentRgb

/-- All keys before the first that is refused ask for what is already so. -/
def NothingNew (s : Compositor) : Json → Prop
  | .obj object => ∀ before key after message, Key.all = before ++ key :: after →
      (∀ k ∈ before, refusal o object s k = none) →
        refusal o object s key = some (.err message) → ∀ k ∈ before, Holds o object s k
  | _ => True

/-! ### The keys and their parts -/

/-- The part of the compositor that a key sets. -/
def Key.Value : Key → Type
  | .input => InputSettings × MouseSettings
  | .layoutMode => Option LayoutMode × LayoutMode
  | .showTools => Option Bool
  | .primaryOutput => Option Text
  | .cursor => (Option Text × Option Nat) × (Text × Nat) × (Text × Nat)
  | .idle => IdlePrefs
  | .accent => Option Text × Nat

def Key.get : (key : Key) → Compositor → key.Value
  | .input, s => (s.prefs.input, s.mouse)
  | .layoutMode, s => (s.prefs.layoutMode, s.wm.layout.mode)
  | .showTools, s => s.prefs.mindShowTools
  | .primaryOutput, s => s.prefs.primaryOutput
  | .cursor, s => ((s.prefs.cursorTheme, s.prefs.cursorSize), s.configured, s.pointer)
  | .idle, s => s.prefs.idle
  | .accent, s => (s.prefs.accent, s.accentRgb)

end Compositor

namespace State

theorem layout_unmaximizeWindow (s : State) (g : Placement) (w : Window) :
    (s.unmaximizeWindow g w).layout = s.layout := by
  rw [unmaximizeWindow]
  split
  · rfl
  · split <;> rfl

theorem mode_setLayoutMode (s : State) (g : Placement) (mode : LayoutMode) :
    (s.setLayoutMode g mode).layout.mode = mode := by
  rw [setLayoutMode]
  split
  · assumption
  · split
    · have hfold : ∀ (windows : List Window) (t : State), (windows.foldl (fun t w =>
          if (t.client w).pendingMaximized && t.tileable w then t.unmaximizeWindow g w
          else t) t).layout = t.layout := by
        intro windows
        induction windows with
        | nil => exact fun _ => rfl
        | cons w windows ih =>
            intro t
            rw [List.foldl_cons, ih]
            split
            · exact layout_unmaximizeWindow t g w
            · rfl
      rw [hfold]
    · rfl

end State

namespace Compositor

variable {o : Externals} {object : Fields} {s t : Compositor}

theorem get_layoutMode_setLayoutMode (s : Compositor) (mode : LayoutMode) :
    Key.layoutMode.get (s.setLayoutMode o mode) =
      (if s.wm.layout.mode = mode then s.prefs.layoutMode else some mode, mode) := by
  rw [setLayoutMode]
  split
  · next h => exact Prod.ext rfl h
  · exact Prod.ext rfl (State.mode_setLayoutMode _ _ _)

theorem readInput_congr (h : s.prefs.input = t.prefs.input) :
    s.readInput o object = t.readInput o object := by
  simp only [readInput, h]

theorem readCursor_congr (h : s.configured = t.configured) :
    s.readCursor object = t.readCursor object := by
  simp only [readCursor, h]

theorem readIdle_congr (h : s.prefs.idle = t.prefs.idle) :
    s.readIdle o object = t.readIdle o object := by
  simp only [readIdle, h]

/-- Each key is looked at on its own part. -/
def Key.part (o : Externals) (object : Fields) (key : Key) : Steps.Part Compositor Stop where
  step s := applyKey o object s key
  same := Setoid.ker key.get
  refused := by
    intro s t stop h
    cases key <;> simp only [applyKey, taking_error]
    case input => rw [readInput_congr (Prod.mk.inj h).1]; exact id
    case cursor => rw [readCursor_congr (Prod.mk.inj (Prod.mk.inj h).2).1]; exact id
    case idle => rw [readIdle_congr h]; exact id
    all_goals exact id
  taken := by
    intro s t s' t' h hs ht
    cases key <;> simp only [applyKey] at hs ht
    case input =>
      refine taking_congr Key.input.get (readInput_congr (Prod.mk.inj h).1) h ?_ hs ht
      exact fun _ => rfl
    case layoutMode =>
      refine taking_congr Key.layoutMode.get rfl h (fun mode => ?_) hs ht
      rw [get_layoutMode_setLayoutMode, get_layoutMode_setLayoutMode, (Prod.mk.inj h).1,
        (Prod.mk.inj h).2]
    case cursor =>
      refine taking_congr Key.cursor.get (readCursor_congr (Prod.mk.inj (Prod.mk.inj h).2).1) h
        ?_ hs ht
      exact fun _ => rfl
    case idle =>
      refine taking_congr Key.idle.get (readIdle_congr h) h ?_ hs ht
      exact fun _ => rfl
    case showTools =>
      refine taking_congr Key.showTools.get rfl h ?_ hs ht
      exact fun _ => rfl
    case primaryOutput =>
      refine taking_congr Key.primaryOutput.get rfl h ?_ hs ht
      exact fun _ => rfl
    case accent =>
      refine taking_congr Key.accent.get rfl h ?_ hs ht
      exact fun _ => rfl

theorem get_setLayoutMode {key : Key} (hkey : key ≠ .layoutMode) (s : Compositor)
    (mode : LayoutMode) : key.get (s.setLayoutMode o mode) = key.get s := by
  rw [setLayoutMode]
  split
  · rfl
  · cases key <;> first | rfl | exact absurd rfl hkey

theorem Key.frames {key other : Key} (hne : other ≠ key) :
    (key.part o object).Frames (other.part o object) := by
  intro s t h
  cases key
  case layoutMode => exact taking_frame other.get (get_setLayoutMode hne s) h
  all_goals
    refine taking_frame other.get (fun a => ?_) h
    cases other <;> first | rfl | exact absurd rfl hne

theorem Key.separate : (Key.all.map (Key.part o object)).Pairwise Steps.Separate := by
  rw [List.pairwise_map]
  exact (by decide : Key.all.Pairwise (· ≠ ·)).imp fun hne => ⟨frames hne.symm, frames hne⟩

/-- The configuration of the outputs, which no key sets. -/
def outputsPart : Steps.Part Compositor Stop := .still (Setoid.ker fun s => s.prefs.outputs)

theorem Key.frames_outputs (key : Key) : (key.part o object).Frames outputsPart := by
  intro s t h
  cases key
  case layoutMode =>
    refine taking_frame (fun s => s.prefs.outputs) (fun a => ?_) h
    rw [setLayoutMode]
    split <;> rfl
  all_goals
    refine taking_frame (fun s => s.prefs.outputs) (fun a => ?_) h
    rfl

theorem settings_eq_iff : t.settings = s.settings ↔
    t.prefs.outputs = s.prefs.outputs ∧ ∀ key ∈ Key.all, key.get t = key.get s := by
  constructor
  · intro h
    obtain ⟨hprefs, hmode, haccent, hconfigured, hpointer, hmouse⟩ := Settings.mk.inj h
    refine ⟨by rw [hprefs], fun key _ => ?_⟩
    cases key <;> simp only [Key.get, hprefs, hmode, haccent, hconfigured, hpointer, hmouse] <;> rfl
  · rintro ⟨houtputs, h⟩
    have hinput := Prod.mk.inj (h .input (by decide))
    have hlayout := Prod.mk.inj (h .layoutMode (by decide))
    have htools : t.prefs.mindShowTools = s.prefs.mindShowTools := h .showTools (by decide)
    have hprimary : t.prefs.primaryOutput = s.prefs.primaryOutput := h .primaryOutput (by decide)
    obtain ⟨hcursor, hpointer⟩ := Prod.mk.inj (h .cursor (by decide))
    have hidle : t.prefs.idle = s.prefs.idle := h .idle (by decide)
    have haccent := Prod.mk.inj (h .accent (by decide))
    have hprefs : t.prefs = s.prefs := by
      cases ht : t.prefs
      cases hs : s.prefs
      simp_all
    exact Settings.ext hprefs hlayout.2 haccent.2 (Prod.mk.inj hpointer).1
      (Prod.mk.inj hpointer).2 hinput.2

theorem refusalOf_eq {α : Type} {read : Except Stop α} {stop : Stop} :
    refusalOf read = some stop ↔ read = .error stop := by
  cases read <;> simp [refusalOf]

theorem refusal_eq {key : Key} {stop : Stop} : refusal o object s key = some stop ↔
    (key.part o object).step s = .error stop := by
  cases key <;> exact refusalOf_eq.trans taking_error.symm

theorem refusal_eq_none {key : Key} : refusal o object s key = none ↔
    (key.part o object).Accepted s := by
  rw [Option.eq_none_iff_forall_ne_some]
  exact forall_congr' fun stop => not_congr refusal_eq

theorem holds_iff {key : Key} : Holds o object s key ↔ (key.part o object).AsIs s := by
  cases key
  case input =>
    refine Iff.trans ?_ (taking_asIs Key.input.get).symm
    exact forall₂_congr fun next _ => (Prod.mk.injEq ..).symm.to_iff
  case layoutMode =>
    refine Iff.trans (forall₂_congr fun mode _ => ?_) (taking_asIs Key.layoutMode.get).symm
    rw [get_layoutMode_setLayoutMode]
    constructor
    · intro h
      rw [if_pos h, ← h]
      rfl
    · exact fun h => (Prod.mk.inj h).2.symm
  case cursor =>
    refine Iff.trans (forall₂_congr fun cursor _ => ?_) (taking_asIs Key.cursor.get).symm
    exact ((and_congr Iff.rfl (Prod.mk.injEq ..).symm.to_iff).trans
      (Prod.mk.injEq ..).symm.to_iff)
  case accent =>
    refine Iff.trans ?_ (taking_asIs Key.accent.get).symm
    exact forall₂_congr fun accent _ => (Prod.mk.injEq ..).symm.to_iff
  case showTools =>
    refine Iff.trans ?_ (taking_asIs Key.showTools.get).symm
    exact forall₂_congr fun _ _ => Iff.rfl
  case primaryOutput =>
    refine Iff.trans ?_ (taking_asIs Key.primaryOutput.get).symm
    exact forall₂_congr fun _ _ => Iff.rfl
  case idle =>
    refine Iff.trans ?_ (taking_asIs Key.idle.get).symm
    exact forall₂_congr fun _ _ => Iff.rfl

/-! ### The whole request -/

theorem nothingNew_iff : NothingNew o s (.obj object) ↔
    ∀ before key after stop, Key.all = before ++ key :: after →
      (∀ k ∈ before, (k.part o object).Accepted s) → (key.part o object).step s = .error stop →
        stop ≠ .panic → ∀ k ∈ before, (k.part o object).AsIs s := by
  simp only [← refusal_eq, ← refusal_eq_none, ← holds_iff]
  constructor
  · intro h before key after stop hall hbefore hkey hstop
    cases stop with
    | panic => exact absurd rfl hstop
    | err message => exact h before key after message hall hbefore hkey
  · intro h before key after message hall hbefore hkey
    exact h before key after (.err message) hall hbefore hkey (by simp)

/-- A request fails without a trace exactly if all keys before the first that is refused ask
for what is so already. -/
theorem atomic_iff (o : Externals) (s : Compositor) (value : Json) :
    Atomic o s value ↔ NothingNew o s value := by
  cases value
  case obj object =>
    rw [nothingNew_iff, ← kept_map_iff Key.separate, Atomic, applyPrefs]
    have hsteps : (Key.all.map fun key s => applyKey o object s key) =
        (Key.all.map (Key.part o object)).map Steps.Part.step := by
      rw [List.map_map]; rfl
    rw [hsteps]
    cases hrun : Steps.run ((Key.all.map (Key.part o object)).map Steps.Part.step) s with
    | mk t result =>
        have houtputs : t.prefs.outputs = s.prefs.outputs :=
          Steps.same_of_run (q := outputsPart) (List.forall_mem_map.mpr fun key _ =>
            key.frames_outputs) hrun
        cases result with
        | ok u => simp [prefsChanged]
        | error stop =>
            cases stop with
            | panic => simp
            | err message =>
                simp only [settings_eq_iff, houtputs, true_and]
                constructor
                · rintro h t' stop ht - key hkey
                  obtain ⟨rfl, -⟩ := Prod.mk.inj ht
                  exact h key hkey
                · exact fun h key hkey => h t _ rfl (by simp) key hkey
  all_goals simp [Atomic, applyPrefs, NothingNew]

/-- A colour that is none, after a change that stays in effect. -/
theorem not_always_atomic : ¬∀ o s value, Atomic o s value := by
  intro h
  let o : Externals :=
    { configAccent := "#3ddc97", hasKeyboard := true, loadsKeymap := fun _ => true,
      inputToValue := fun _ => [], inputFromValue := fun _ => .ok {},
      idleToValue := fun _ => [], idleFromValue := fun _ => .ok {}, now := 0 }
  let value : Json := .obj [("accent", .str "green"), ("mind_show_tools", .bool true)]
  have hkept : Settings.mk _ _ _ _ _ _ = Settings.mk _ _ _ _ _ _ :=
    h o { idle := { settings := {} } } value
  exact absurd (congrArg Prefs.mindShowTools (Settings.mk.inj hkept).1) (by decide)

end Compositor

end MindOS.Wm
