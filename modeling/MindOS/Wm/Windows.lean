import MindOS.Stack
import MindOS.Text.Basic

/-!
# The windows of the compositor

A window is mapped in the space, where it is stacked, or it has been taken out: put
away with its desk, or minimised. What its client says of it and what the layout keeps
with it stay with the window wherever it is.

A surface has one window at a time, so that the surface a dialog names as its parent is
told by its window. What a window shows on the screen and its scanout slot are left out.
-/

namespace MindOS.Wm

/-- A window, by the id it keeps for its life. -/
abbrev Window := Nat

structure Point where
  x : Int
  y : Int
  deriving DecidableEq

structure Size where
  w : Int
  h : Int
  deriving DecidableEq

structure Rect where
  loc : Point
  size : Size
  deriving DecidableEq

/-- The area that two rectangles have in common. -/
def Rect.shared (a b : Rect) : Int :=
  max 0 (min (a.loc.x + a.size.w) (b.loc.x + b.size.w) - max a.loc.x b.loc.x) *
    max 0 (min (a.loc.y + a.size.h) (b.loc.y + b.size.h) - max a.loc.y b.loc.y)

/-- What a client says of its window. -/
structure Client where
  alive : Bool := true
  appId : Text := []
  /-- The window that it is a dialog of. -/
  parent : Option Window := none
  /-- A dialog for what X11 says of it: its type, a fixed size, a setup program. -/
  dialogLike : Bool := false
  /-- The size of its geometry, nothing before it has drawn. -/
  size : Size := ⟨0, 0⟩
  pendingFullscreen : Bool := false
  pendingMaximized : Bool := false
  deriving DecidableEq

/-- A window a game sent to another screen: where it came from, where it went, and the
geometry to give it back. -/
structure Away where
  origin : Text
  dest : Text
  rect : Rect
  deriving DecidableEq

/-- What the layout keeps with a window. -/
structure TileData where
  /-- The output that owns it. -/
  output : Option Text := none
  /-- Taken out of the tiling by the user. -/
  floating : Bool := false
  snap : Option Text := none
  /-- Where a game moved it from, while it is moved. -/
  away : Option Away := none
  deriving DecidableEq

/-- A window that was taken out of the space. -/
structure Minimized where
  window : Window
  location : Point
  output : Option Text
  deriving DecidableEq

/-- The mapped windows as they are stacked, and where each is. -/
structure Space where
  stack : Stack Window := {}
  location : Window → Point := fun _ => ⟨0, 0⟩

structure Output where
  name : Text
  geometry : Rect
  deriving DecidableEq

/-- The connected outputs; their names differ. -/
structure Outputs where
  list : List Output := []
  distinct : (list.map Output.name).Nodup := by exact List.nodup_nil

def Outputs.single (o : Output) : Outputs := ⟨[o], List.nodup_singleton _⟩

inductive LayoutMode where
  | floating
  | dwindle
  | columns
  deriving DecidableEq

def LayoutMode.isTiling : LayoutMode → Bool
  | .floating => false
  | .dwindle => true
  | .columns => true

structure Layout where
  mode : LayoutMode := .floating
  /-- The tiles of each output, in layout order. -/
  outputs : List (Text × List Window) := []
  /-- New windows and the window that was focused when they opened. -/
  pending : List (Window × Option Window) := []

/-- The current desk, the applications on every desk and the windows put away. -/
structure Desks where
  /-- Empty until the shell first sets one. -/
  current : Text := []
  sticky : List Text := []
  /-- Windows of other desks, bottom of the stack first. -/
  stashed : List Minimized := []
  /-- The window that had the keyboard when each desk was last left. -/
  lastFocus : Text → Option Window := fun _ => none

/-- What has the keyboard. -/
inductive KeyboardFocusTarget where
  | window (w : Window)
  | layerSurface (lock alive : Bool)
  | popup
  deriving DecidableEq

structure State where
  nextId : Window := 1
  space : Space := {}
  minimized : List Minimized := []
  desks : Desks := {}
  /-- The desk of a window, once it has been seen. -/
  deskTag : Window → Option Text := fun _ => none
  client : Window → Client := fun _ => {}
  tile : Window → TileData := fun _ => {}
  layout : Layout := {}
  outputs : Outputs := {}
  focus : Option KeyboardFocusTarget := none
  locked : Bool := false

namespace State

/-- The mapped windows, bottom first. -/
def elements (s : State) : List Window := s.space.stack.items

theorem nodup_elements (s : State) : s.elements.Nodup := s.space.stack.nodup

def stashedWindows (s : State) : List Window := s.desks.stashed.map Minimized.window

def minimizedWindows (s : State) : List Window := s.minimized.map Minimized.window

/-- Every window the compositor manages: in the space, stashed, minimised. -/
def allWindows (s : State) : List Window := s.elements ++ s.stashedWindows ++ s.minimizedWindows

def isStashed (s : State) (w : Window) : Bool := s.stashedWindows.contains w

def isMinimized (s : State) (w : Window) : Bool := s.minimizedWindows.contains w

def alive (s : State) (w : Window) : Bool := (s.client w).alive

/-- Map a window, or move it, and put it on top. -/
def mapElement (s : State) (w : Window) (loc : Point) : State :=
  { s with space :=
    { stack := s.space.stack.put w, location := Function.update s.space.location w loc } }

def raiseElement (s : State) (w : Window) : State :=
  { s with space := { s.space with stack := s.space.stack.raise w } }

def unmapElem (s : State) (w : Window) : State :=
  { s with space := { s.space with stack := s.space.stack.remove w } }

def elementLocation (s : State) (w : Window) : Option Point :=
  if w ∈ s.elements then some (s.space.location w) else none

def elementGeometry (s : State) (w : Window) : Option Rect :=
  (s.elementLocation w).map fun loc => ⟨loc, (s.client w).size⟩

def focusedWindow (s : State) : Option Window :=
  match s.focus with
  | some (.window w) => some w
  | _ => none

/-- Dialogs always float. -/
def isDialog (s : State) (w : Window) : Bool :=
  (s.client w).parent.isSome || (s.client w).dialogLike

/-- A window the tiling modes manage: not a dialog, not floating. -/
def tileable (s : State) (w : Window) : Bool :=
  !s.isDialog w && !(s.tile w).floating && (s.tile w).snap.isNone

end State

/-- The output with the most of a window on it, the last of several. -/
def mostShared (geometry : Option Rect) (outputs : List Output) : Option Output :=
  let share (o : Output) : Int := (geometry.map fun g => o.geometry.shared g).getD 0
  outputs.foldl (fun best o =>
    match best with
    | none => some o
    | some b => if share b ≤ share o then some o else some b) none

/-- A connected owner is preferred over geometry where ownership is kept. -/
def outputOwner (saved : Option Text) (sticky : Bool) (geometry : Option Rect)
    (outputs : List Output) : Option Text :=
  match if sticky then outputs.find? fun o => some o.name = saved else none with
  | some o => some o.name
  | none => (mostShared geometry outputs).map Output.name

namespace State

/-- A tiled window stays with its monitor even when its column is off-screen. -/
def windowHome (s : State) (w : Window) : Option Text :=
  outputOwner (s.tile w).output (s.layout.mode.isTiling || (s.tile w).snap.isSome)
    (s.elementGeometry w) s.outputs.list

/-- Unmap a window, remembering where it was. -/
def takeOutOfSpace (s : State) (w : Window) : Option (State × Minimized) :=
  (s.elementLocation w).map fun loc => (s.unmapElem w, ⟨w, loc, s.windowHome w⟩)

/-- Map a window that was taken out back where it was; `false` if it has gone meanwhile. -/
def putBackInSpace (s : State) (entry : Minimized) : State × Bool :=
  if s.alive entry.window then (s.mapElement entry.window entry.location, true) else (s, false)

/-- Give a window keyboard focus. -/
def focusWindow (s : State) (w : Window) : State :=
  if s.locked then s else { s with focus := some (.window w) }

/-- The windows above a parent: its dialogs, theirs, and so on. Each member in turn adds
the windows of the space that are dialogs of it; there are no more members than windows. -/
def groupFrom (s : State) : Nat → List Window → Nat → List Window
  | 0, group, _ => group
  | fuel + 1, group, index =>
      match group[index]? with
      | none => group
      | some parent =>
          let children := s.elements.filter fun child =>
            !group.contains child && (s.client child).parent == some parent
          s.groupFrom fuel (group ++ children) (index + 1)

def group (s : State) (w : Window) : List Window := s.groupFrom (s.elements.length + 1) [w] 0

/-- Raise a window to the top of the stack and give it the keyboard. -/
def activateWindow (s : State) (w : Window) : State :=
  if s.locked || s.isMinimized w || s.isStashed w then s
  else
    let group := s.group w
    ((group.foldl raiseElement s).focusWindow) (group.getLast?.getD w)

/-- What has the keyboard is still there; popups are left alone. -/
def focusOk (s : State) : Bool :=
  match s.focus with
  | none => false
  | some (.window w) => s.alive w && s.elements.contains w
  | some (.layerSurface _ alive) => alive
  | some .popup => true

/-- The top window takes the keyboard when what had it is gone. -/
def refreshFocus (s : State) : State :=
  if s.locked then
    match s.focus with
    | none => s
    | some (.layerSurface true true) => s
    | some _ => { s with focus := none }
  else if s.focusOk then s
  else { s with focus := s.elements.getLast?.map KeyboardFocusTarget.window }

/-! ## What activating a window changes -/

theorem focusWindow_eq (s : State) (w : Window) :
    ∃ focus, s.focusWindow w = { s with focus := focus } := by
  unfold focusWindow
  split
  · exact ⟨s.focus, rfl⟩
  · exact ⟨some (.window w), rfl⟩

theorem refreshFocus_eq (s : State) : ∃ focus, s.refreshFocus = { s with focus := focus } := by
  unfold refreshFocus
  split
  · split
    · exact ⟨s.focus, rfl⟩
    · exact ⟨s.focus, rfl⟩
    · exact ⟨none, rfl⟩
  · split
    · exact ⟨s.focus, rfl⟩
    · exact ⟨_, rfl⟩

theorem foldl_raiseElement_eq (ws : List Window) (s : State) :
    ws.foldl raiseElement s =
      { s with space := { s.space with stack := ws.foldl Stack.raise s.space.stack } } := by
  induction ws generalizing s with
  | nil => rfl
  | cons w ws ih => exact ih (s.raiseElement w)

theorem group_eq (s : State) (w : Window) :
    ∃ dialogs, s.group w = w :: dialogs ∧ ∀ x ∈ dialogs, (s.client x).parent ≠ none := by
  have hfrom : ∀ fuel group index, ∃ dialogs, s.groupFrom fuel group index = group ++ dialogs ∧
      ∀ x ∈ dialogs, (s.client x).parent ≠ none := by
    intro fuel
    induction fuel with
    | zero => exact fun group index => ⟨[], by simp [groupFrom], fun x hx => (nomatch hx)⟩
    | succ fuel ih =>
        intro group index
        rw [groupFrom]
        cases group[index]? with
        | none => exact ⟨[], by simp, fun x hx => (nomatch hx)⟩
        | some parent =>
            let children := s.elements.filter fun child =>
              !group.contains child && (s.client child).parent == some parent
            obtain ⟨dialogs, heq, hdialogs⟩ := ih (group ++ children) (index + 1)
            refine ⟨children ++ dialogs, by rw [← List.append_assoc]; exact heq, fun x hx => ?_⟩
            rcases List.mem_append.mp hx with hx | hx
            · have hx := (Bool.and_eq_true_iff.mp (List.mem_filter.mp hx).2).2
              rw [beq_iff_eq.mp hx]
              exact nofun
            · exact hdialogs x hx
  exact hfrom (s.elements.length + 1) [w] 0

theorem activateWindow_eq (s : State) (w : Window) :
    ∃ stack : Stack Window, ∃ focus,
      s.activateWindow w = { s with space := { s.space with stack := stack }, focus := focus } ∧
        ∀ x, x ∈ stack.items ↔ x ∈ s.elements := by
  unfold activateWindow
  split
  · exact ⟨s.space.stack, s.focus, rfl, fun _ => Iff.rfl⟩
  · simp only
    rw [foldl_raiseElement_eq]
    obtain ⟨focus, hfocus⟩ := focusWindow_eq
      { s with space := { s.space with stack := (s.group w).foldl Stack.raise s.space.stack } }
      ((s.group w).getLast?.getD w)
    exact ⟨_, focus, hfocus, fun x => Stack.mem_foldl_raise⟩

end State

end MindOS.Wm
