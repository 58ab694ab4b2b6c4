import MindOS.Wm.Layout
import Mathlib.Data.List.Sort

/-!
# Desks

Every window belongs to one desk. Only the windows of the current desk are in the
space; the rest are stashed and come back where they were when their desk does.
Stashing and minimising are independent: a window minimised on one desk is still
minimised when that desk comes back. A sticky window shows on every desk and travels
with it; a dialog goes with the window it belongs to.
-/

namespace MindOS.Wm

open Text

/-- Whether an app id is on the sticky list. -/
def isSticky (sticky : List Text) (appId : Text) : Bool :=
  !appId.isEmpty && sticky.any fun s => eqIgnoreAsciiCase s appId

/-- Whether a window of `desk` belongs on screen while `current` is the desk. A window
that has no desk yet shows. -/
def showsOn (current desk : Text) (sticky : Bool) : Bool :=
  sticky || desk.isEmpty || desk == current

/-- The sticky list as the shell sent it, without blanks or repeats. -/
def cleanSticky (list : List Text) : List Text :=
  list.foldl (fun out entry =>
    let entry := trim entry
    if !entry.isEmpty && !out.any fun e => eqIgnoreAsciiCase e entry then out ++ [entry]
    else out) []

/-- A switch to desk `new`, for one window: the desk it belongs to afterwards and
whether it shows. -/
def switchWindow (new desk : Text) (stickyBefore stickyAfter : Bool) : Text × Bool :=
  let desk := if desk.isEmpty || stickyBefore then new else desk
  (desk, showsOn new desk stickyAfter)

/-- Tiles by output and place in its order, what is no tile after them. -/
def slotLe : Option (Text × Nat) → Option (Text × Nat) → Bool
  | some (m, i), some (n, j) => decide (m < n) || (m == n && decide (i ≤ j))
  | some _, none => true
  | none, some _ => false
  | none, none => true

namespace State

/-- The desk a window belongs to ("" before it has one). -/
def windowDesk (s : State) (w : Window) : Text := (s.deskTag w).getD []

def hasDesk (s : State) (w : Window) : Bool := (s.deskTag w).isSome

/-- A window that has a desk, and not `desk`. -/
def elsewhere (s : State) (w : Window) (desk : Text) : Bool :=
  (s.deskTag w).any fun d => !d.isEmpty && d != desk

def setWindowDesk (s : State) (w : Window) (desk : Text) : State :=
  { s with deskTag := Function.update s.deskTag w (some desk) }

/-- The window a dialog belongs to, wherever that window is. -/
def windowParent (s : State) (w : Window) : Option Window :=
  (s.client w).parent.bind fun parent => s.allWindows.find? fun c => c = parent

/-- Dialogs of dialogs, so many deep. -/
def stickyWithin (s : State) (sticky : List Text) : Nat → Window → Bool
  | 0, _ => false
  | depth + 1, w =>
      if isSticky sticky (s.client w).appId then true
      else
        match s.windowParent w with
        | some parent => s.stickyWithin sticky depth parent
        | none => false

def stickyUnder (s : State) (sticky : List Text) (w : Window) : Bool :=
  if sticky = [] then false else s.stickyWithin sticky 8 w

/-- Whether a window shows on every desk: its app is on the sticky list, or it is a
dialog of one that is. -/
def windowSticky (s : State) (w : Window) : Bool := s.stickyUnder s.desks.sticky w

/-- The desk of a window shows. -/
def deskShows (s : State) (w : Window) : Bool :=
  showsOn s.desks.current (s.windowDesk w) (s.windowSticky w)

/-- Whether a window is hidden because its desk is not the current one. -/
def isAway (s : State) (w : Window) : Bool :=
  s.isStashed w || (s.isMinimized w && !s.deskShows w)

/-- Give a window that has no desk one: the desk of the window it belongs to, else the
current desk. -/
def tagWindow (s : State) (w : Window) : State :=
  if s.hasDesk w then s
  else
    let parent := (s.windowParent w).filter s.hasDesk
    s.setWindowDesk w ((parent.map s.windowDesk).getD s.desks.current)

def tagNewWindows (s : State) : State := s.allWindows.foldl tagWindow s

/-- Forget stashed windows that are gone. -/
def retainStashed (s : State) : State :=
  { s with desks := { s.desks with stashed := s.desks.stashed.filter fun e => s.alive e.window } }

/-- Take a window out of the space until its desk comes back. -/
def stashWindow (s : State) (w : Window) : State :=
  if s.isStashed w then s
  else
    match s.takeOutOfSpace w with
    | none => s
    | some (t, entry) => { t with desks := { t.desks with stashed := t.desks.stashed ++ [entry] } }

/-- Take the entry of a window out of the stashed ones. -/
def unstash (s : State) (w : Window) : State :=
  { s with desks :=
    { s.desks with stashed := s.desks.stashed.eraseP fun e => decide (e.window = w) } }

def stashedEntry (s : State) (w : Window) : Option Minimized :=
  s.desks.stashed.find? fun e => decide (e.window = w)

/-- Put a stashed window back where it was, without raising the keyboard. -/
def restoreWindow (s : State) (w : Window) : State :=
  match s.stashedEntry w with
  | none => s
  | some entry => ((s.unstash w).putBackInSpace entry).1

/-- Once per event-loop turn: forget stashed windows that are gone, give new windows a
desk, and put away what has drawn and opened for a desk that is not showing. -/
def desksRefresh (s : State) : State :=
  let s := s.retainStashed.tagNewWindows
  let strays := s.elements.filter fun w =>
    s.elsewhere w s.desks.current &&
      decide (0 < (s.client w).size.w ∧ 0 < (s.client w).size.h) && !s.windowSticky w
  if strays = [] then s
  else (strays.foldl stashWindow s).refreshFocus

/-- The desk and the sticky list are replaced; the window that has the keyboard is
noted for the desk that is left. -/
def enterDesk (s : State) (desk : Text) (sticky : Option (List Text)) : State :=
  let old := s.desks.current
  let noted := if old ≠ desk ∧ old ≠ [] then s.focusedWindow else none
  let lastFocus := match noted with
    | some w => Function.update s.desks.lastFocus old (some w)
    | none => s.desks.lastFocus
  { s with desks :=
    { s.desks with
      current := desk
      sticky := (sticky.map cleanSticky).getD s.desks.sticky
      lastFocus := lastFocus } }

/-- What a switch makes of a window. The stickiness under the list from before and under
the new one is told before any window is moved. -/
def switched (s : State) (oldSticky : List Text) (w : Window) : Text × Bool :=
  switchWindow s.desks.current (s.windowDesk w) (s.stickyUnder oldSticky w) (s.windowSticky w)

def retagAll (s : State) (oldSticky : List Text) : State :=
  { s with deskTag := fun w =>
    if w ∈ s.allWindows then some (s.switched oldSticky w).1 else s.deskTag w }

/-- The mapped windows to put away. -/
def toStash (s : State) (oldSticky : List Text) : List Window :=
  s.allWindows.filter fun w =>
    !s.isStashed w && (!(s.switched oldSticky w).2 && !s.isMinimized w)

/-- The stashed windows to bring back. -/
def toRestore (s : State) (oldSticky : List Text) : List Window :=
  s.allWindows.filter fun w => s.isStashed w && (s.switched oldSticky w).2

/-- The output a tile is on, with its place in the order there. -/
def slot (s : State) (w : Window) : Option (Text × Nat) :=
  s.layout.outputs.findSome? fun (name, order) => (order.idxOf? w).map fun i => (name, i)

/-- Tiles come back in the order they had, floating windows in the stacking order. -/
def stashOrder (s : State) (stash : List Window) : List Window :=
  if s.layout.mode.isTiling then
    stash.insertionSort fun a b => slotLe (s.slot a) (s.slot b) = true
  else stash

/-- Put windows away and bring others back, in the order they are stashed in. -/
def exchange (s : State) (stash restore : List Window) : State :=
  if stash = [] ∧ restore = [] then s
  else
    let s := (s.stashOrder stash).foldl stashWindow s
    (s.stashedWindows.filter fun w => restore.contains w).foldl restoreWindow s

/-- The keyboard goes to the window that had it when the desk was last left, else to the
top window of this desk rather than one that is on every desk. -/
def focusDesk (s : State) (desk : Text) : State :=
  match (s.desks.lastFocus desk).bind fun id => s.elements.find? fun w => w = id with
  | some w => s.activateWindow w
  | none =>
      match s.elements.reverse.find? fun w =>
        decide (s.windowDesk w = desk) && !s.windowSticky w with
      | some w => s.activateWindow w
      | none => s.refreshFocus

/-- Switch to `desk`. `sticky` replaces the list of applications on every desk when
given; `mode` is the layout mode the desk uses. -/
def setDesk (s : State) (g : Placement) (desk : Text) (sticky : Option (List Text))
    (mode : Option LayoutMode) : State :=
  let s := s.retainStashed.tagNewWindows
  let old := s.desks.current
  let oldSticky := s.desks.sticky
  let s := s.enterDesk desk sticky
  let s := (s.retagAll oldSticky).exchange (s.toStash oldSticky) (s.toRestore oldSticky)
  let s := (mode.map fun mode => s.setLayoutMode g mode).getD s
  if old ≠ desk then s.focusDesk desk else s

/-- Give a window to another desk: it goes away if that desk is not showing, and comes
back if it is. -/
def moveWindowToDesk (s : State) (w : Window) (desk : Text) : State :=
  let s := s.tagNewWindows.setWindowDesk w desk
  let shows := showsOn s.desks.current desk (s.windowSticky w)
  if s.isStashed w then
    if shows then s.restoreWindow w else s
  else if !shows && !s.isMinimized w then (s.stashWindow w).refreshFocus
  else s

/-- Something reached for a window on another desk: go to that desk. -/
def showDeskOf (s : State) (g : Placement) (w : Window) : State :=
  if !s.isAway w then s
  else
    let desk := s.windowDesk w
    let s := if desk ≠ s.desks.current then s.setDesk g desk none none else s
    -- stashed although its desk is showing: a window must never be left unreachable
    if s.isStashed w then s.restoreWindow w else s

/-- Hand a stashed window over to the minimised list. -/
def minimizeStashed (s : State) (w : Window) : Option State :=
  (s.stashedEntry w).map fun entry =>
    { s.unstash w with minimized := s.minimized ++ [entry] }

/-- Hide a window; the top-most remaining window takes the keyboard. -/
def minimizeWindow (s : State) (w : Window) : State :=
  if s.isMinimized w then s
  else
    match s.minimizeStashed w with
    | some t => t
    | none =>
        match s.takeOutOfSpace w with
        | some (t, entry) => { t with minimized := t.minimized ++ [entry] }.refreshFocus
        | none => s

def minimizedEntry (s : State) (w : Window) : Option Minimized :=
  s.minimized.find? fun e => decide (e.window = w)

/-- Take the entry of a window out of the minimised ones. -/
def unlistMinimized (s : State) (w : Window) : State :=
  { s with minimized := s.minimized.eraseP fun e => decide (e.window = w) }

/-- Bring a minimised window back where it was, on top and focused. A window on another
desk brings its desk along. -/
def unminimizeWindow (s : State) (g : Placement) (w : Window) : State :=
  let s := s.showDeskOf g w
  match s.minimizedEntry w with
  | none => s
  | some entry =>
      match (s.unlistMinimized w).putBackInSpace entry with
      | (s, true) => s.activateWindow w
      | (s, false) => s

end State

end MindOS.Wm
