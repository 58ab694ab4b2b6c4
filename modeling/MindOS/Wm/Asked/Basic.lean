import MindOS.Wm.Arrange
import MindOS.Wm.Desk.Basic
import MindOS.Wm.Displays

/-!
# Asking windows to take a rectangle

The compositor decides where a window is; of its size it can only ask. A Wayland client
is told what is pending and acknowledges that some time later, while an X11 window takes
its size at once. A bar that the compositor draws is part of a window's geometry, and its
client is asked for the rest.

Windows that an X11 client places by itself, such as menus, are left out, and so is an
Xwayland that has gone. What a game is, is a parameter, and so is what panels leave of an
output.
-/

namespace MindOS.Wm

open Text

instance Rect.decidableContains (r : Rect) (p : Point) : Decidable (r.Contains p) :=
  inferInstanceAs (Decidable (_ ∧ _ ∧ _ ∧ _))

/-- What only touches does not overlap. -/
def Rect.overlaps (a b : Rect) : Bool :=
  a.loc.x < b.loc.x + b.size.w && b.loc.x < a.loc.x + a.size.w &&
    a.loc.y < b.loc.y + b.size.h && b.loc.y < a.loc.y + a.size.h

/-- What the client of a Wayland window was asked for last, and what it has acknowledged. -/
structure Toplevel where
  /-- Without the bar. -/
  size : Option Size := none
  maximized : Bool := false
  fullscreen : Bool := false
  /-- It was told what the compositor can do. -/
  capable : Bool := true
  deriving DecidableEq

inductive Surface where
  | toplevel (t : Toplevel)
  /-- Where the window goes back to when it is unmaximised. -/
  | x11 (old : Option Rect)
  deriving DecidableEq

/-- The size that is pending. -/
def Surface.asked : Surface → Option Size
  | .toplevel t => t.size
  | .x11 _ => none

def Surface.isX11 : Surface → Bool
  | .toplevel _ => false
  | .x11 _ => true

/-- All but the pending size. -/
def Surface.acknowledged : Surface → Surface
  | .toplevel t => .toplevel { t with size := none }
  | .x11 old => .x11 old

@[simp] theorem Surface.isX11_acknowledged (surface : Surface) :
    surface.acknowledged.isX11 = surface.isX11 := by
  cases surface <;> rfl

/-- How a window was before it was snapped. -/
structure SnapSaved where
  rect : Rect
  floating : Bool
  fullscreen : Bool
  maximized : Bool
  owner : Option Text
  deriving DecidableEq

/-- The rectangles that the layout keeps for a window. -/
structure Memory where
  tiledNow : Bool := false
  /-- Where it goes when it is a tile no more. -/
  untiled : Option Rect := none
  /-- Where a Wayland window goes back to when it is unmaximised. -/
  saved : Option Rect := none
  snapSaved : Option SnapSaved := none
  deriving DecidableEq

structure Workspace where
  wm : State := {}
  surface : Window → Surface := fun _ => .toplevel {}
  memory : Window → Memory := fun _ => {}
  /-- The compositor draws its bar. -/
  ssd : Window → Bool := fun _ => false
  /-- The outputs a window was on when that was last looked at. -/
  entered : Window → List Output := fun _ => []

/-- What a client acknowledges, and the geometry it draws then. -/
structure Answer where
  size : Size
  maximized : Bool := false
  fullscreen : Bool := false

/-- What the workspace takes from elsewhere. -/
structure Room where
  /-- What the panels and the bar of the desktop leave of an output. -/
  usableArea : Output → Rect := Output.geometry
  isGame : Window → Bool := fun _ => false
  placement : Placement := {}

def headerBarHeight : Int := 36

/-- What is left of a rectangle for the client. -/
def clientSize (rect : Rect) (header : Int) : Size :=
  ⟨max 1 rect.size.w, max 1 (rect.size.h - header)⟩

namespace Workspace

variable (r : Room) (d : Workspace) (w : Window)

def updateClient (f : Client → Client) : Workspace :=
  { d with wm := { d.wm with client := Function.update d.wm.client w (f (d.wm.client w)) } }

def updateTile (f : TileData → TileData) : Workspace :=
  { d with wm := { d.wm with tile := Function.update d.wm.tile w (f (d.wm.tile w)) } }

def setSurface (surface : Surface) : Workspace :=
  { d with surface := Function.update d.surface w surface }

def updateMemory (f : Memory → Memory) : Workspace :=
  { d with memory := Function.update d.memory w (f (d.memory w)) }

def mapElement (loc : Point) : Workspace := { d with wm := d.wm.mapElement w loc }

def pendingMaximized : Bool := (d.wm.client w).pendingMaximized

def pendingFullscreen : Bool := (d.wm.client w).pendingFullscreen

/-- The height of the bar once what is pending is applied. -/
def pendingHeaderHeight : Int :=
  if d.ssd w && !d.pendingFullscreen w then headerBarHeight else 0

/-- The size of a window, bar included, as its client was asked for it last. -/
def askedSize : Size :=
  match (d.surface w).asked with
  | some size => ⟨size.w, size.h + d.pendingHeaderHeight w⟩
  | none => (d.wm.client w).size

/-- Where a window is, with the size its client was asked for last. -/
def askedGeometry : Option Rect := (d.wm.elementLocation w).map fun loc => ⟨loc, d.askedSize w⟩

/-- Ask a window to take a rectangle, bar included; its element goes where that is. -/
def applyRect (rect : Rect) : Workspace :=
  let header := d.pendingHeaderHeight w
  let client := clientSize rect header
  match d.surface w with
  | .toplevel t => d.setSurface w (.toplevel { t with size := some client })
  | .x11 _ => d.updateClient w fun c => { c with size := ⟨client.w, client.h + header⟩ }

/-- The output a window lives on, as far as is known. -/
def windowOutput : Option Output := (d.entered w).head?.or d.wm.outputs.list.head?

/-- What a maximised window fills: a game keeps the place of the bar. -/
def maximizedArea : Option Rect :=
  (d.windowOutput w).map fun o => if r.isGame w then o.geometry else r.usableArea o

/-- A rectangle is still on some screen. -/
def onScreen (rect : Rect) : Bool := d.wm.outputs.list.any fun o => o.geometry.overlaps rect

/-- A window has a slot in the tiling. -/
def isTiled : Bool :=
  d.wm.layout.mode.isTiling && d.wm.tileable w &&
    d.wm.layout.outputs.any fun (_, order) => order.contains w

/-! ## Requests -/

def maximizeToplevel (t : Toplevel) : Workspace :=
  if t.capable then
    match d.maximizedArea r w with
    | none => d
    | some area =>
        let d := if d.pendingMaximized w then d
          else d.updateMemory w fun m => { m with saved := d.wm.elementGeometry w }
        let size := clientSize area (d.pendingHeaderHeight w)
        ((d.updateClient w fun c => { c with pendingMaximized := true }).setSurface w
          (.toplevel { t with size := some size })).mapElement w area.loc
  else d

/-- The X11 window keeps its old size without the bar. -/
def maximizeX11 : Workspace :=
  match d.wm.elementGeometry w, d.maximizedArea r w with
  | some old, some area =>
      let header := d.pendingHeaderHeight w
      let client := clientSize area header
      ((d.updateClient w fun c =>
        { c with pendingMaximized := true, size := ⟨client.w, client.h + header⟩ }).setSurface w
          (.x11 (some ⟨old.loc, ⟨old.size.w, old.size.h - header⟩⟩))).mapElement w area.loc
  | _, _ => d

/-- Only a client that knows it is maximised is unmaximised. A tile gets its slot from the
layout, another window goes back to where it was. -/
def unmaximizeToplevel (t : Toplevel) : Workspace :=
  if t.maximized then
    let d := (d.updateClient w fun c => { c with pendingMaximized := false }).setSurface w
      (.toplevel { t with size := none })
    if d.isTiled w then d
    else
      let saved := (d.memory w).saved.filter d.onScreen
      let d := d.updateMemory w fun m => { m with saved := none }
      match saved with
      | none => d
      | some saved =>
          let size := clientSize saved (d.pendingHeaderHeight w)
          (d.setSurface w (.toplevel { t with size := some size })).mapElement w saved.loc
  else d

def unmaximizeX11 (old : Option Rect) : Workspace :=
  let d := d.updateClient w fun c => { c with pendingMaximized := false }
  match old with
  | none => d
  | some old =>
      let header := d.pendingHeaderHeight w
      ((d.updateClient w fun c => { c with size := ⟨old.size.w, old.size.h + header⟩ }).setSurface w
        (.x11 none)).mapElement w old.loc

/-- The output a Wayland window is made fullscreen on. -/
def fullscreenOutput : Option Output :=
  let here := (d.wm.elementLocation w).bind fun loc =>
    d.wm.outputs.list.find? fun o => decide (o.geometry.Contains loc)
  ((d.entered w).head?.or here).or d.wm.outputs.list.head?

/-- The output an X11 window is made fullscreen on: one that it covers, or that its centre
is on. -/
def x11FullscreenOutput : Option Output :=
  let header := d.pendingHeaderHeight w
  let covered := (d.wm.elementGeometry w).bind fun g =>
    let geo : Rect := ⟨⟨g.loc.x, g.loc.y + header⟩, ⟨g.size.w, g.size.h - header⟩⟩
    let centre : Point := ⟨geo.loc.x + geo.size.w.tdiv 2, geo.loc.y + geo.size.h.tdiv 2⟩
    (d.wm.outputs.list.find? fun o => decide (o.geometry = geo)).or
      (d.wm.outputs.list.reverse.find? fun o => decide (o.geometry.Contains centre))
  (covered.or (d.entered w).head?).or d.wm.outputs.list.head?

def fullscreenToplevel (t : Toplevel) : Workspace :=
  if t.capable then
    match d.fullscreenOutput w with
    | none => d
    | some o =>
        (d.updateClient w fun c => { c with pendingFullscreen := true }).setSurface w
          (.toplevel { t with size := some o.geometry.size })
  else d

/-- The window covers the output and belongs to it, no more maximised. -/
def fullscreenX11 : Workspace :=
  match d.x11FullscreenOutput w with
  | none => d
  | some o =>
      let d := d.updateClient w fun c => { c with
        pendingMaximized := false, pendingFullscreen := true, size := o.geometry.size }
      let d := if d.wm.elementLocation w ≠ some o.geometry.loc then d.mapElement w o.geometry.loc
        else d
      d.updateTile w fun tile => { tile with output := some o.name }

def unfullscreenToplevel (t : Toplevel) : Workspace :=
  if t.fullscreen then
    (d.updateClient w fun c => { c with pendingFullscreen := false }).setSurface w
      (.toplevel { t with size := none })
  else d

/-- The bar comes back above what the window has. -/
def unfullscreenX11 : Workspace :=
  let d' := d.updateClient w fun c => { c with pendingFullscreen := false }
  let header := d'.pendingHeaderHeight w - d.pendingHeaderHeight w
  d'.updateClient w fun c => { c with size := ⟨c.size.w, c.size.h + header⟩ }

/-- What the client has acknowledged decides which way it goes. -/
def toggleFullscreenWindow : Workspace :=
  if w ∈ d.wm.elements then
    match d.surface w with
    | .toplevel t =>
        if t.fullscreen then d.unfullscreenToplevel w t else d.fullscreenToplevel w t
    | .x11 _ => if d.pendingFullscreen w then d.unfullscreenX11 w else d.fullscreenX11 w
  else d

def toggleMaximizeWindow : Workspace :=
  if w ∈ d.wm.elements then
    match d.surface w with
    | .toplevel t => if t.maximized then d.unmaximizeToplevel w t else d.maximizeToplevel r w t
    | .x11 old => if d.pendingMaximized w then d.unmaximizeX11 w old else d.maximizeX11 r w
  else d

def unmaximizeWindow : Workspace :=
  match d.surface w with
  | .toplevel t => d.unmaximizeToplevel w t
  | .x11 old => if w ∈ d.wm.elements then d.unmaximizeX11 w old else d

/-- A client answers. One that was never asked for a size keeps its own, and an X11 window has
taken what it was asked for. -/
def answer (a : Answer) : Workspace :=
  match d.surface w with
  | .toplevel t =>
      let d := d.setSurface w
        (.toplevel { t with maximized := a.maximized, fullscreen := a.fullscreen })
      if t.size.isSome then d.updateClient w fun c => { c with size := a.size } else d
  | .x11 _ => d

/-! ## What stays as it is -/

/-- A window is as it was, and so are the modes and outputs. -/
structure Same (w : Window) (s t : Workspace) : Prop where
  client : t.wm.client w = s.wm.client w
  tile : t.wm.tile w = s.wm.tile w
  location : t.wm.elementLocation w = s.wm.elementLocation w
  surface : t.surface w = s.surface w
  memory : t.memory w = s.memory w
  minimized : t.wm.minimized = s.wm.minimized
  desks : t.wm.desks = s.wm.desks
  ssd : t.ssd = s.ssd
  mode : t.wm.layout.mode = s.wm.layout.mode
  outputs : t.wm.outputs = s.wm.outputs

variable {r : Room} {d s t u : Workspace} {v w : Window} {rect : Rect}

@[simp] theorem updateClient_client (d : Workspace) (w : Window) (f : Client → Client) :
    (d.updateClient w f).wm.client w = f (d.wm.client w) :=
  Function.update_self ..

@[simp] theorem updateTile_tile (d : Workspace) (w : Window) (f : TileData → TileData) :
    (d.updateTile w f).wm.tile w = f (d.wm.tile w) :=
  Function.update_self ..

@[simp] theorem setSurface_surface (d : Workspace) (w : Window) (surface : Surface) :
    (d.setSurface w surface).surface w = surface :=
  Function.update_self ..

@[simp] theorem updateMemory_memory (d : Workspace) (w : Window) (f : Memory → Memory) :
    (d.updateMemory w f).memory w = f (d.memory w) :=
  Function.update_self ..

theorem mapElement_elementLocation (s : State) (w : Window) (loc : Point) :
    (s.mapElement w loc).elementLocation w = some loc := by
  have hmem : w ∈ (s.mapElement w loc).elements := Stack.mem_put.mpr (.inr rfl)
  rw [State.elementLocation, if_pos hmem]
  exact congrArg some (Function.update_self ..)

theorem mapElement_elementLocation_of_ne {s : State} {loc : Point} (h : v ≠ w) :
    (s.mapElement v loc).elementLocation w = s.elementLocation w := by
  have hmem : w ∈ (s.mapElement v loc).elements ↔ w ∈ s.elements :=
    Stack.mem_put.trans (or_iff_left h.symm)
  have hloc : (s.mapElement v loc).space.location w = s.space.location w :=
    Function.update_of_ne h.symm _ _
  rw [State.elementLocation, State.elementLocation, if_congr hmem rfl rfl, hloc]

namespace Same

theorem refl (w : Window) (s : Workspace) : Same w s s :=
  ⟨rfl, rfl, rfl, rfl, rfl, rfl, rfl, rfl, rfl, rfl⟩

theorem trans (h : Same w s t) (h' : Same w t u) : Same w s u where
  client := h'.client.trans h.client
  tile := h'.tile.trans h.tile
  location := h'.location.trans h.location
  surface := h'.surface.trans h.surface
  memory := h'.memory.trans h.memory
  minimized := h'.minimized.trans h.minimized
  desks := h'.desks.trans h.desks
  ssd := h'.ssd.trans h.ssd
  mode := h'.mode.trans h.mode
  outputs := h'.outputs.trans h.outputs

theorem pendingHeaderHeight (h : Same w s t) :
    t.pendingHeaderHeight w = s.pendingHeaderHeight w := by
  rw [Workspace.pendingHeaderHeight, Workspace.pendingHeaderHeight, pendingFullscreen,
    pendingFullscreen, h.client, h.ssd]

theorem askedSize (h : Same w s t) : t.askedSize w = s.askedSize w := by
  simp only [Workspace.askedSize, h.surface, h.client, h.pendingHeaderHeight]

theorem askedGeometry (h : Same w s t) : t.askedGeometry w = s.askedGeometry w := by
  rw [Workspace.askedGeometry, Workspace.askedGeometry, h.location, h.askedSize]

theorem updateClient (hne : v ≠ w) (f : Client → Client) : Same w d (d.updateClient v f) :=
  ⟨Function.update_of_ne hne.symm _ _, rfl, rfl, rfl, rfl, rfl, rfl, rfl, rfl, rfl⟩

theorem setSurface (hne : v ≠ w) (surface : Surface) : Same w d (d.setSurface v surface) :=
  ⟨rfl, rfl, rfl, Function.update_of_ne hne.symm _ _, rfl, rfl, rfl, rfl, rfl, rfl⟩

theorem updateMemory (hne : v ≠ w) (f : Memory → Memory) : Same w d (d.updateMemory v f) :=
  ⟨rfl, rfl, rfl, rfl, Function.update_of_ne hne.symm _ _, rfl, rfl, rfl, rfl, rfl⟩

theorem mapElement (hne : v ≠ w) (loc : Point) : Same w d (d.mapElement v loc) :=
  ⟨rfl, rfl, mapElement_elementLocation_of_ne hne, rfl, rfl, rfl, rfl, rfl, rfl, rfl⟩

theorem applyRect (hne : v ≠ w) (rect : Rect) : Same w d (d.applyRect v rect) := by
  rw [Workspace.applyRect]
  split
  · exact .setSurface hne _
  · exact .updateClient hne _

theorem activateWindow (v w : Window) (d : Workspace) :
    Same w d { d with wm := d.wm.activateWindow v } := by
  obtain ⟨stack, focus, heq, hmem⟩ := d.wm.activateWindow_eq v
  rw [heq]
  exact ⟨rfl, rfl, if_congr (hmem w) rfl rfl, rfl, rfl, rfl, rfl, rfl, rfl, rfl⟩

theorem answer (hne : v ≠ w) (a : Answer) : Same w d (d.answer v a) := by
  rw [Workspace.answer]
  split
  · dsimp only
    split
    · exact (Same.setSurface hne _).trans (.updateClient hne _)
    · exact .setSurface hne _
  · exact .refl w d

theorem unmaximizeWindow (hne : v ≠ w) : Same w d (d.unmaximizeWindow v) := by
  have hclient : Same w d (d.updateClient v fun c => { c with pendingMaximized := false }) :=
    .updateClient hne _
  rw [Workspace.unmaximizeWindow]
  split
  case h_1 t ht =>
    rw [unmaximizeToplevel]
    split
    · have hasked := hclient.trans (.setSurface hne (.toplevel { t with size := none }))
      dsimp only
      split
      · exact hasked
      · have hforgot := hasked.trans (.updateMemory hne fun m => { m with saved := none })
        split
        · exact hforgot
        · exact (hforgot.trans (.setSurface hne _)).trans (.mapElement hne _)
    · exact .refl w d
  case h_2 old hold =>
    split
    · cases old with
      | none => exact hclient
      | some old =>
          exact ((hclient.trans (.updateClient hne _)).trans (.setSurface hne _)).trans
            (.mapElement hne _)
    · exact .refl w d

end Same

/-- A window that is asked for a rectangle gets the size of that, but for a client part of
at least one pixel. -/
theorem askedSize_applyRect (d : Workspace) (w : Window) (rect : Rect) :
    (d.applyRect w rect).askedSize w = ⟨(clientSize rect (d.pendingHeaderHeight w)).w,
      (clientSize rect (d.pendingHeaderHeight w)).h + d.pendingHeaderHeight w⟩ := by
  rw [applyRect]
  split
  · simp [askedSize, setSurface, Surface.asked, pendingHeaderHeight, pendingFullscreen]
  next old hold =>
    simp [askedSize, updateClient, Surface.asked, hold]

theorem askedSize_applyRect_of_le (hwide : 1 ≤ rect.size.w)
    (htall : 1 ≤ rect.size.h - d.pendingHeaderHeight w) :
    (d.applyRect w rect).askedSize w = rect.size := by
  rw [askedSize_applyRect, clientSize, max_eq_right hwide, max_eq_right htall,
    Int.sub_add_cancel]

theorem answer_eq (d : Workspace) (w : Window) (a : Answer) :
    (d.answer w a).askedSize w = d.askedSize w ∧ ∃ surface size, d.answer w a =
      (d.setSurface w surface).updateClient w fun c => { c with size := size } := by
  rw [answer]
  split
  next t ht =>
    dsimp only
    split
    next hsome =>
      obtain ⟨size, hsize⟩ := Option.isSome_iff_exists.mp hsome
      refine ⟨?_, _, _, rfl⟩
      simp [askedSize, ht, Surface.asked, hsize, pendingHeaderHeight, pendingFullscreen,
        updateClient, setSurface]
    next hnone =>
      refine ⟨?_, .toplevel { t with maximized := a.maximized, fullscreen := a.fullscreen },
        (d.wm.client w).size, ?_⟩
      · have hsize : t.size = none := by simpa using hnone
        simp [askedSize, ht, Surface.asked, hsize, setSurface]
      · simp only [setSurface, updateClient, Function.update_eq_self]
  next old hold =>
    refine ⟨rfl, d.surface w, (d.wm.client w).size, ?_⟩
    simp only [setSurface, updateClient, Function.update_eq_self]

/-- What a client was told of its window is as it was, where it is and what size it is asked
for aside, and so is what is kept of it for later. -/
structure Steady (w : Window) (s t : Workspace) : Prop where
  maximized : t.pendingMaximized w = s.pendingMaximized w
  fullscreen : t.pendingFullscreen w = s.pendingFullscreen w
  floating : (t.wm.tile w).floating = (s.wm.tile w).floating
  snap : (t.wm.tile w).snap = (s.wm.tile w).snap
  acknowledged : (t.surface w).acknowledged = (s.surface w).acknowledged
  saved : (t.memory w).saved = (s.memory w).saved
  snapSaved : (t.memory w).snapSaved = (s.memory w).snapSaved
  mapped : (t.wm.elementLocation w).isSome = (s.wm.elementLocation w).isSome
  minimized : t.wm.minimized = s.wm.minimized
  desks : t.wm.desks = s.wm.desks
  ssd : t.ssd = s.ssd
  mode : t.wm.layout.mode = s.wm.layout.mode
  outputs : t.wm.outputs = s.wm.outputs

theorem Same.steady (h : Same w s t) : Steady w s t where
  maximized := congrArg Client.pendingMaximized h.client
  fullscreen := congrArg Client.pendingFullscreen h.client
  floating := congrArg TileData.floating h.tile
  snap := congrArg TileData.snap h.tile
  acknowledged := congrArg Surface.acknowledged h.surface
  saved := congrArg Memory.saved h.memory
  snapSaved := congrArg Memory.snapSaved h.memory
  mapped := congrArg Option.isSome h.location
  minimized := h.minimized
  desks := h.desks
  ssd := h.ssd
  mode := h.mode
  outputs := h.outputs

namespace Steady

theorem refl (w : Window) (s : Workspace) : Steady w s s := (Same.refl w s).steady

theorem trans (h : Steady w s t) (h' : Steady w t u) : Steady w s u where
  maximized := h'.maximized.trans h.maximized
  fullscreen := h'.fullscreen.trans h.fullscreen
  floating := h'.floating.trans h.floating
  snap := h'.snap.trans h.snap
  acknowledged := h'.acknowledged.trans h.acknowledged
  saved := h'.saved.trans h.saved
  snapSaved := h'.snapSaved.trans h.snapSaved
  mapped := h'.mapped.trans h.mapped
  minimized := h'.minimized.trans h.minimized
  desks := h'.desks.trans h.desks
  ssd := h'.ssd.trans h.ssd
  mode := h'.mode.trans h.mode
  outputs := h'.outputs.trans h.outputs

theorem pendingHeaderHeight (h : Steady w s t) :
    t.pendingHeaderHeight w = s.pendingHeaderHeight w := by
  rw [Workspace.pendingHeaderHeight, Workspace.pendingHeaderHeight, h.fullscreen, h.ssd]

theorem updateMemory (d : Workspace) (v w : Window) {f : Memory → Memory}
    (hsaved : ∀ m, (f m).saved = m.saved := by exact fun _ => rfl)
    (hsnap : ∀ m, (f m).snapSaved = m.snapSaved := by exact fun _ => rfl) :
    Steady w d (d.updateMemory v f) := by
  by_cases hne : v = w
  · subst hne
    exact { refl v d with
      saved := by rw [updateMemory_memory, hsaved]
      snapSaved := by rw [updateMemory_memory, hsnap] }
  · exact (Same.updateMemory hne f).steady

theorem applyRect (d : Workspace) (v w : Window) (rect : Rect) :
    Steady w d (d.applyRect v rect) := by
  by_cases hne : v = w
  · subst hne
    rw [Workspace.applyRect]
    split
    next t ht =>
      exact { refl v d with
        acknowledged := by
          rw [setSurface_surface, ht]
          rfl }
    next old hold =>
      exact { refl v d with
        maximized := by
          rw [pendingMaximized, updateClient_client]
          rfl
        fullscreen := by
          rw [pendingFullscreen, updateClient_client]
          rfl }
  · exact (Same.applyRect hne rect).steady

end Steady

end Workspace

end MindOS.Wm
