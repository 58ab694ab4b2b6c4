import MindOS.Text.Basic
import MindOS.Transition

/-!
# The lock screen

## The keyboard of the seat

A surface gets the keys because it has the focus, or because it has a grab. Every change
of the focus and every key goes through the grab that is on: a popup grab keeps the
keyboard with the topmost popup until it has ended, a grab of XWayland with its window
until it is released. A popup grab is held on the pointer too, and gives the keyboard
back to the window that the popup belongs to when it is taken off there.
-/

namespace MindOS.Lock

/-- The namespace of the surfaces of the lock screen. -/
def lockNamespace : Text := "mindshell-lock".toList

abbrev Serial := Nat

inductive WlrLayer where
  | background
  | bottom
  | top
  | overlay
  deriving DecidableEq

inductive KeyboardInteractivity where
  | none
  | exclusive
  | onDemand
  deriving DecidableEq

structure Layer where
  nameSpace : Text
  alive : Bool := true
  /-- The output whose layer map has it. -/
  output : Option Nat := none
  layer : WlrLayer := .top
  interactivity : KeyboardInteractivity := .none
  /-- It has a buffer. -/
  mapped : Bool := false
  /-- It was handed the keyboard when it came up. -/
  focusGiven : Bool := false

inductive KeyboardFocusTarget where
  | window (w : Nat)
  | layerSurface (l : Nat)
  | popup (p : Nat)
  deriving DecidableEq

structure Popup where
  /-- Nothing until a panel adopts it. -/
  parent : Option KeyboardFocusTarget
  alive : Bool := true
  committed : Bool := false

/-- The popups that asked for a grab, the topmost last. -/
structure PopupGrabInternal where
  serial : Option Serial := none
  active : List Nat := []
  dismissed : List Nat := []

structure PopupGrab where
  root : KeyboardFocusTarget
  serial : Serial
  previousSerial : Option Serial

inductive KeyboardGrab where
  | popup (g : PopupGrab)
  /-- A grab of an X11 client, for a window. -/
  | xwayland (x w : Nat)
  | inputMethod

/-- The surface that a keyboard grab lives with. -/
def KeyboardGrab.startFocus : KeyboardGrab → Option KeyboardFocusTarget
  | .popup g => some g.root
  | .xwayland _ w => some (.window w)
  | .inputMethod => none

inductive PointerGrab where
  | popup (g : PopupGrab)
  /-- A click, a drag, a window that is moved or resized. -/
  | other

/-- What is read of the windows. -/
structure Windows where
  /-- The mapped ones, bottom first. -/
  elements : List Nat := []
  alive : Nat → Bool := fun _ => true
  /-- Minimised, or put away with another desk. -/
  hidden : Nat → Bool := fun _ => false
  /-- The last of a window and the dialogs above it. -/
  groupTop : Nat → Nat := id
  /-- A game has the whole screen of an output. -/
  gameScreen : Nat → Bool := fun _ => false

structure Seat where
  locked : Bool := false
  focus : Option KeyboardFocusTarget := none
  grab : Option (Serial × KeyboardGrab) := none
  pointerGrab : Option (Serial × PointerGrab) := none
  popupGrabs : PopupGrabInternal := {}
  popup : Nat → Option Popup := fun _ => none
  /-- How many popups there were. -/
  popups : Nat := 0
  windows : Windows := {}
  /-- The layer surfaces in the order they came. -/
  layers : List Nat := []
  layer : Nat → Option Layer := fun _ => none
  /-- The grabs of X11 clients, and whether they are still held. -/
  xgrab : Nat → Option Bool := fun _ => none
  /-- An input method has asked for the keys. -/
  inputMethodGrab : Bool := false
  /-- The targets that the keys of this step were forwarded to. -/
  sent : List KeyboardFocusTarget := []

namespace Seat

def layerAlive (s : Seat) (l : Nat) : Bool := (s.layer l).any Layer.alive

def popupAlive (s : Seat) (p : Nat) : Bool := (s.popup p).any Popup.alive

def targetAlive (s : Seat) : KeyboardFocusTarget → Bool
  | .window w => s.windows.alive w
  | .layerSurface l => s.layerAlive l
  | .popup p => s.popupAlive p

/-- What a popup belongs to through its parents, so many of them. -/
def rootWithin (s : Seat) : Nat → KeyboardFocusTarget → Option KeyboardFocusTarget
  | 0, _ => none
  | n + 1, .popup p => ((s.popup p).bind Popup.parent).bind (s.rootWithin n)
  | _ + 1, .window w => some (.window w)
  | _ + 1, .layerSurface l => some (.layerSurface l)

/-- The window or the layer surface that a target belongs to. -/
def rootOf (s : Seat) (t : KeyboardFocusTarget) : Option KeyboardFocusTarget :=
  s.rootWithin (s.popups + 1) t

/-! ### Popup grabs -/

/-- The topmost popup with a grab that is still there. -/
def grabbedPopup (s : Seat) : Option Nat := s.popupGrabs.active.reverse.find? s.popupAlive

def popupGrabsActive (s : Seat) : Bool :=
  !s.popupGrabs.active.isEmpty || !s.popupGrabs.dismissed.isEmpty

/-- All popups were dismissed or are gone, or what they belong to is. -/
def hasEnded (s : Seat) (g : PopupGrab) : Bool := !s.targetAlive g.root || !s.popupGrabsActive

/-- Where a popup grab has the keyboard. -/
def currentGrab (s : Seat) (g : PopupGrab) : KeyboardFocusTarget :=
  (s.grabbedPopup.map KeyboardFocusTarget.popup).getD g.root

def cleanupPopups (s : Seat) : Seat :=
  { s with popupGrabs :=
    { s.popupGrabs with
      active := s.popupGrabs.active.filter s.popupAlive
      dismissed := s.popupGrabs.dismissed.filter s.popupAlive } }

/-- Dismiss all popups. -/
def ungrabAll (s : Seat) (g : PopupGrab) : Seat :=
  let dismissed :=
    match s.popupGrabs.active with
    | [] => s.popupGrabs.dismissed
    | p :: rest =>
        if s.targetAlive g.root then s.popupGrabs.dismissed ++ p :: p :: rest
        else s.popupGrabs.dismissed
  { s with popupGrabs := { s.popupGrabs with active := [], dismissed := dismissed } }

/-! ### The keyboard -/

/-- A grab whose surface is gone is discarded. -/
def discardDeadGrab (s : Seat) : Seat :=
  match s.grab with
  | some (_, g) => if g.startFocus.all s.targetAlive then s else { s with grab := none }
  | none => s

/-- The key goes to what has the focus. -/
def send (s : Seat) : Seat := { s with sent := s.sent ++ s.focus.toList }

/-- Change the focus, as far as the grab lets it change. -/
def setFocus (s : Seat) (focus : Option KeyboardFocusTarget) : Seat :=
  let s := s.discardDeadGrab
  match s.grab with
  | none => { s with focus := focus }
  | some (_, .popup g) =>
      if s.hasEnded g then { s with focus := focus, grab := none }
      else if some (s.currentGrab g) = focus then { s with focus := focus }
      else s
  | some (_, .xwayland x _) =>
      if s.xgrab x = some true then s else { s with focus := focus, grab := none }
  | some (_, .inputMethod) => { s with focus := focus }

/-- A key that nothing intercepted. -/
def inputForward (s : Seat) : Seat :=
  let s := s.discardDeadGrab
  match s.grab with
  | none => s.send
  | some (_, .popup g) =>
      { s with
        focus := some (s.currentGrab g)
        grab := if s.hasEnded g then none else s.grab }.send
  | some (_, .xwayland x w) =>
      { s with
        focus := some (.window w)
        grab := if s.xgrab x = some true then s.grab else none }.send
  | some (_, .inputMethod) => s

/-- The keyboard is grabbed with one of the serials of a popup grab, or would be with one. -/
def hasGrabOf (grabbed : Option Serial) (serial : Serial) (previous : Option Serial) : Bool :=
  grabbed = some serial || grabbed = some (previous.getD serial)

/-- The keyboard goes back to what the popups of a grab belong to. -/
def unsetKeyboardGrab (s : Seat) (g : PopupGrab) : Seat :=
  if hasGrabOf (s.grab.map Prod.fst) g.serial g.previousSerial then
    { s with grab := none }.setFocus (some g.root)
  else s

/-! ### The pointer -/

/-- A pointer grab that is taken off: that of a popup is taken off the keyboard too. -/
def unsetHandler (s : Seat) : Seat :=
  match s.pointerGrab with
  | some (_, .popup g) => s.unsetKeyboardGrab g
  | _ => s

def unsetPointerGrab (s : Seat) : Seat := { s.unsetHandler with pointerGrab := none }

def setPointerGrab (s : Seat) (serial : Serial) (g : PointerGrab) : Seat :=
  { s.unsetHandler with pointerGrab := some (serial, g) }

/-- The pointer moves, or a button is released. -/
def pointerMotion (s : Seat) : Seat :=
  match s.pointerGrab with
  | some (_, .popup g) => if s.hasEnded g then s.unsetPointerGrab else s
  | _ => s

/-- A button is pressed, over a surface of the client with the popup or not. -/
def pointerPress (s : Seat) (serial : Serial) (sameClient : Bool) : Seat :=
  match s.pointerGrab with
  | none => s.setPointerGrab serial .other
  | some (_, .popup g) =>
      if !s.targetAlive g.root then s.unsetPointerGrab.setPointerGrab serial .other
      else if s.hasEnded g then s.unsetPointerGrab
      else if sameClient then s
      else (s.ungrabAll g).unsetPointerGrab
  | some (_, .other) => s

end Seat

/-!
## The lock and the keyboard focus

Locking takes the focus away from what has it. After that every place that gives a
surface the focus has its own check of the lock: new windows, windows that are activated,
panels that come up, exclusive panels with each key, and the refresh of each turn, which
takes the focus back from whatever is not the lock screen.

Where a press falls is told with the press; what a shortcut intercepts, with the key.
-/

/-- What is under a press: a fullscreen window, the layer surface above the windows, a
window, the layer surface below them. -/
structure Under where
  fullscreen : Option Nat := none
  upper : Option Nat := none
  window : Option Nat := none
  lower : Option Nat := none

namespace Seat

/-- A surface of the lock screen, or a popup that belongs to one. -/
def ofLockScreen (s : Seat) (t : KeyboardFocusTarget) : Bool :=
  match s.rootOf t with
  | some (.layerSurface l) => (s.layer l).any fun layer => layer.nameSpace = lockNamespace
  | _ => false

/-- Lock or unlock the session. -/
def setLocked (s : Seat) (locked : Bool) : Seat :=
  if s.locked = locked then s
  else
    let s := { s with locked := locked }
    if locked then (s.setFocus none).unsetPointerGrab else s

/-- Give a window the keyboard. -/
def focusWindow (s : Seat) (w : Nat) : Seat :=
  if s.locked then s else s.setFocus (some (.window w))

/-- Raise a window with its dialogs and give the last of them the keyboard. -/
def activateWindow (s : Seat) (w : Nat) : Seat :=
  if s.locked || s.windows.hidden w then s else s.focusWindow (s.windows.groupTop w)

/-- A window that has just been mapped, unless a game on its screen keeps the keyboard. -/
def focusNewWindow (s : Seat) (w : Nat) (mayInterrupt : Bool) : Seat :=
  if mayInterrupt then s.focusWindow w else s

/-- What has the focus is still there; popups are left alone. -/
def focusOk (s : Seat) : Bool :=
  match s.focus with
  | none => false
  | some (.window w) => s.windows.alive w && s.windows.elements.contains w
  | some (.layerSurface l) => s.layerAlive l
  | some (.popup _) => true

/-- The lock screen has the focus. -/
def holdsLock (s : Seat) : Bool :=
  match s.focus with
  | some (.layerSurface l) =>
      s.layerAlive l && (s.layer l).any fun layer => layer.nameSpace = lockNamespace
  | _ => false

/-- The top window gets the keyboard when what had it is gone. -/
def refreshFocus (s : Seat) : Seat :=
  if s.locked then
    if !s.holdsLock && s.focus.isSome then s.setFocus none else s
  else if s.focusOk then s
  else
    match s.windows.elements.getLast? with
    | none => if s.focus.isNone then s else s.setFocus none
    | some w => s.setFocus (some (.window w))

/-! ### Panels -/

/-- A panel that asks for the keyboard on demand gets it when it comes up. -/
def focusNewLayer (s : Seat) (l : Nat) : Seat :=
  match s.layer l with
  | none => s
  | some layer =>
      if layer.output.isNone then s
      else if layer.interactivity ≠ .onDemand ∨ (layer.layer ≠ .top ∧ layer.layer ≠ .overlay) then
        { s with layer := Function.update s.layer l (some { layer with focusGiven := false }) }
      else if !layer.mapped || layer.focusGiven then s
      else
        let s := { s with
          layer := Function.update s.layer l (some { layer with focusGiven := true }) }
        if s.grab.isSome || (s.locked && layer.nameSpace ≠ lockNamespace) then s
        else s.setFocus (some (.layerSurface l))

/-- A commit of a layer surface. -/
def commitLayer (s : Seat) (l : Nat) (output : Option Nat) (wlrLayer : WlrLayer)
    (interactivity : KeyboardInteractivity) (mapped : Bool) : Seat :=
  match s.layer l with
  | none => s
  | some layer =>
      let layer := { layer with
        output := output
        layer := wlrLayer
        interactivity := interactivity
        mapped := mapped }
      { s with layer := Function.update s.layer l (some layer) }.focusNewLayer l

/-- An exclusive panel that is on the screen takes every key, but behind the lock screen. -/
def takesKeys (s : Seat) (l : Nat) : Bool :=
  match s.layer l with
  | none => false
  | some layer =>
      layer.interactivity = .exclusive && (layer.layer = .top || layer.layer = .overlay) &&
      match layer.output with
      | none => false
      | some o =>
          !(s.locked && layer.nameSpace ≠ lockNamespace) &&
            !(layer.layer = .top && s.windows.gameScreen o)

/-- A key, forwarded unless it is intercepted. -/
def keyboardKey (s : Seat) (forward : Bool) : Seat :=
  let s :=
    match s.layers.reverse.find? s.takesKeys with
    | some l => s.setFocus (some (.layerSurface l))
    | none => s
  if forward then s.inputForward else s

/-- All keys that are held are released. -/
def releaseAllKeys (s : Seat) : Nat → Seat
  | 0 => s
  | n + 1 => s.inputForward.releaseAllKeys n

/-! ### Presses -/

def canReceiveKeyboardFocus (s : Seat) (l : Nat) : Bool :=
  (s.layer l).any fun layer => layer.interactivity ≠ .none

/-- A press may move the focus: nothing but an input method has a grab. -/
def pressMovesFocus (s : Seat) (touchGrabbed : Bool) : Bool :=
  s.pointerGrab.isNone && (s.grab.isNone || s.inputMethodGrab) && !touchGrabbed

/-- The focus follows a press. -/
def updateKeyboardFocus (s : Seat) (under : Under) (touchGrabbed : Bool) : Seat :=
  if s.pressMovesFocus touchGrabbed then
    match under.fullscreen, under.upper, under.window, under.lower with
    | some w, _, _, _ => s.setFocus (some (.window w))
    | none, some l, _, _ =>
        if s.canReceiveKeyboardFocus l then s.setFocus (some (.layerSurface l)) else s
    | none, none, some w, _ => s.activateWindow w
    | none, none, none, some l =>
        if s.canReceiveKeyboardFocus l then s.setFocus (some (.layerSurface l)) else s
    | none, none, none, none => s
  else s

/-- A button is pressed. A drag that takes the press activates its window; there is none
on the lock screen. -/
def onPointerPress (s : Seat) (under : Under) (drag : Option Nat) (serial : Serial)
    (sameClient touchGrabbed : Bool) : Seat :=
  let s :=
    match if s.locked || s.pointerGrab.isSome then none else drag with
    | some w => (s.activateWindow w).setPointerGrab serial .other
    | none => s.updateKeyboardFocus under touchGrabbed
  s.pointerPress serial sameClient

/-! ### Popups -/

def newPopup (s : Seat) (p : Nat) (parent : Option KeyboardFocusTarget) : Seat :=
  { s with
    popups := s.popups + 1
    popup := Function.update s.popup p (some { parent := parent }) }

/-- A popup of a panel, which adopts it after it was made. -/
def adoptPopup (s : Seat) (p l : Nat) : Seat :=
  match s.popup p with
  | none => s
  | some popup =>
      if popup.parent.isSome then s
      else
        let popup := { popup with parent := some (.layerSurface l) }
        { s with popup := Function.update s.popup p (some popup) }

def commitPopup (s : Seat) (p : Nat) : Seat :=
  match s.popup p with
  | none => s
  | some popup =>
      { s with popup := Function.update s.popup p (some { popup with committed := true }) }

def destroyPopup (s : Seat) (p : Nat) : Seat :=
  match s.popup p with
  | none => s
  | some popup =>
      { s with popup := Function.update s.popup p (some { popup with alive := false }) }

def appendGrab (s : Seat) (p : Nat) (root : KeyboardFocusTarget) (serial : Serial) :
    Seat × Option PopupGrab :=
  ({ s with popupGrabs :=
      { s.popupGrabs with active := s.popupGrabs.active ++ [p], serial := some serial } },
    some ⟨root, serial, s.popupGrabs.serial⟩)

/-- A popup joins those with a grab, if it is above the topmost of them. -/
def grabPopup (s : Seat) (p : Nat) (popup : Popup) (root : KeyboardFocusTarget)
    (serial : Serial) : Seat × Option PopupGrab :=
  if popup.committed then (s, none)
  else
    match popup.parent with
    | none => (s, none)
    | some parent =>
        let s := s.cleanupPopups
        match s.grabbedPopup with
        | none => s.appendGrab p root serial
        | some top => if parent = .popup top then s.appendGrab p root serial else (s, none)

/-- The mapped window, or the panel on the screen, that a popup belongs to. -/
def popupRoot (s : Seat) (p : Nat) : Option KeyboardFocusTarget :=
  match s.rootOf (.popup p) with
  | some (.window w) => if s.windows.elements.contains w then some (.window w) else none
  | some (.layerSurface l) =>
      if (s.layer l).any fun layer => layer.output.isSome then some (.layerSurface l) else none
  | _ => none

/-- The grab of a popup takes the keyboard, unless another grab has it, and the pointer. -/
def takeGrab (s : Seat) (g : PopupGrab) : Seat :=
  if s.grab.isSome && !hasGrabOf (s.grab.map Prod.fst) g.serial g.previousSerial then s.ungrabAll g
  else
    let s := { s.setFocus (some (s.currentGrab g)) with grab := some (g.serial, .popup g) }
    if s.pointerGrab.isSome && !hasGrabOf (s.pointerGrab.map Prod.fst) g.serial g.previousSerial
    then s.ungrabAll g
    else s.setPointerGrab g.serial (.popup g)

/-- A client asks for a grab for its popup. -/
def popupGrab (s : Seat) (p : Nat) (serial : Serial) : Seat :=
  match s.popup p with
  | none => s
  | some popup =>
      match s.popupRoot p with
      | none => s
      | some root =>
          match s.grabPopup p popup root serial with
          | (s, none) => s
          | (s, some g) => s.takeGrab g

/-- An X11 client takes the keyboard for its window. -/
def xwaylandGrab (s : Seat) (x w : Nat) (serial : Serial) : Seat :=
  let s := { s with xgrab := Function.update s.xgrab x (some true) }
  if s.windows.elements.contains w then { s with grab := some (serial, .xwayland x w) } else s

/-! ### Steps -/

end Seat

inductive Event where
  | lock
  | unlock
  | turn
  | key (forward : Bool)
  | releaseKeys (n : Nat)
  /-- A key of a virtual keyboard, which goes past the grabs. -/
  | virtualKey
  | press (under : Under) (drag : Option Nat) (serial : Serial) (sameClient touchGrabbed : Bool)
  /-- The tip of a tablet's tool, or a finger. -/
  | tap (under : Under) (touchGrabbed : Bool)
  | motion
  /-- A drag, a move or a resize starts, and ends. -/
  | pointerGrab (serial : Serial)
  | pointerRelease
  /-- The windows change. -/
  | windows (ws : Windows)
  /-- The windows change, and the focus is looked at again. -/
  | hide (ws : Windows)
  | mapWindow (w : Nat) (mayInterrupt : Bool)
  /-- A request of a client, of X11 or of the shell for a window. -/
  | activate (w : Nat)
  | newLayer (l : Nat) (nameSpace : Text)
  | commitLayer (l : Nat) (output : Option Nat) (layer : WlrLayer)
      (interactivity : KeyboardInteractivity) (mapped : Bool)
  | destroyLayer (l : Nat)
  | newPopup (p : Nat) (parent : Option KeyboardFocusTarget)
  | adoptPopup (p l : Nat)
  | commitPopup (p : Nat)
  | destroyPopup (p : Nat)
  | popupGrab (p : Nat) (serial : Serial)
  | xwaylandGrab (x w : Nat) (serial : Serial)
  | xwaylandRelease (x : Nat)
  | inputMethodGrab (serial : Serial)
  | inputMethodRelease

namespace Seat

def newLayer (s : Seat) (l : Nat) (nameSpace : Text) : Seat :=
  { s with
    layers := s.layers ++ [l]
    layer := Function.update s.layer l (some { nameSpace := nameSpace }) }

def destroyLayer (s : Seat) (l : Nat) : Seat :=
  match s.layer l with
  | none => s
  | some layer =>
      { s with
        layers := s.layers.filter (· ≠ l)
        layer := Function.update s.layer l (some { layer with alive := false, output := none }) }

/-- What an event does. New surfaces and grabs have new ids. -/
def apply (s : Seat) : Event → Option Seat
  | .lock => some (s.setLocked true)
  | .unlock => some (s.setLocked false)
  | .turn => some s.refreshFocus.cleanupPopups
  | .key forward => some (s.keyboardKey forward)
  | .releaseKeys n => some (s.releaseAllKeys n)
  | .virtualKey => some s.send
  | .press under drag serial sameClient touchGrabbed =>
      some (s.onPointerPress under drag serial sameClient touchGrabbed)
  | .tap under touchGrabbed => some (s.updateKeyboardFocus under touchGrabbed)
  | .motion => some s.pointerMotion
  | .pointerGrab serial => some (s.setPointerGrab serial .other)
  | .pointerRelease => some s.unsetPointerGrab
  | .windows ws => some { s with windows := ws }
  | .hide ws => some { s with windows := ws }.refreshFocus
  | .mapWindow w mayInterrupt => some (s.focusNewWindow w mayInterrupt)
  | .activate w => some (s.activateWindow w)
  | .newLayer l nameSpace =>
      if (s.layer l).isSome then none else some (s.newLayer l nameSpace)
  | .commitLayer l output layer interactivity mapped =>
      some (s.commitLayer l output layer interactivity mapped)
  | .destroyLayer l => some (s.destroyLayer l)
  | .newPopup p parent => if (s.popup p).isSome then none else some (s.newPopup p parent)
  | .adoptPopup p l => some (s.adoptPopup p l)
  | .commitPopup p => some (s.commitPopup p)
  | .destroyPopup p => some (s.destroyPopup p)
  | .popupGrab p serial => if s.popupAlive p then some (s.popupGrab p serial) else none
  | .xwaylandGrab x w serial =>
      if (s.xgrab x).isSome then none else some (s.xwaylandGrab x w serial)
  | .xwaylandRelease x => some { s with xgrab := Function.update s.xgrab x (some false) }
  | .inputMethodGrab serial =>
      some { s with inputMethodGrab := true, grab := some (serial, .inputMethod) }
  | .inputMethodRelease => some { s with inputMethodGrab := false, grab := none }

/-- A step, with the keys that are forwarded in it. -/
def step (s : Seat) (e : Event) : Option Seat := { s with sent := [] }.apply e

end Seat

end MindOS.Lock
