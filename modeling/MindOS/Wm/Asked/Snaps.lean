import MindOS.Wm.Asked.Arrange

/-!
# Snapping and releasing

A window that is snapped to a zone is no more fullscreen or maximised. How it was before the
first snap is kept, however often it is snapped, and a release brings that back. To leave
and to take up the two states, the snap and the release toggle them, and which way a toggle
goes depends on what the client has acknowledged.
-/

namespace MindOS.Wm

open Text

namespace Workspace

section

variable (r : Room) (d : Workspace) (w : Window)

/-- Keep how a window is before its first snap. -/
def keepSnapSaved : Workspace :=
  match (d.memory w).snapSaved, d.wm.elementGeometry w with
  | none, some rect =>
      let saved : SnapSaved :=
        { rect := rect, floating := (d.wm.tile w).floating, fullscreen := d.pendingFullscreen w,
          maximized := d.pendingMaximized w, owner := d.wm.windowHome w }
      d.updateMemory w fun m => { m with snapSaved := some saved }
  | _, _ => d

/-- Put a window in a zone of the output that is named, or of its own. -/
def pin (zone : Text) (output : Option Text) : Workspace :=
  let d := (d.updateMemory w fun m => { m with tiledNow := false, untiled := none }).updateTile w
    fun tile => { tile with snap := some zone }
  let named (name : Text) := d.wm.outputs.list.find? fun o => o.name = name
  match (output.bind named).or ((d.wm.windowHome w).bind named) with
  | none => d
  | some o =>
      let rect := snapRect (r.usableArea o) zone
      ((d.updateTile w fun tile => { tile with output := some o.name }).applyRect w rect).mapElement
        w rect.loc

def snapTo (zone : Text) (output : Option Text) : Workspace :=
  let d := d.keepSnapSaved w
  let d := if d.pendingFullscreen w then d.toggleFullscreenWindow w else d
  let d := if d.pendingMaximized w then d.toggleMaximizeWindow r w else d
  d.pin r w zone output

def release : Workspace :=
  let saved := (d.memory w).snapSaved
  let d := (d.updateTile w fun tile => { tile with snap := none }).updateMemory w
    fun m => { m with snapSaved := none }
  match saved with
  | none => d
  | some saved =>
      let d := d.updateTile w fun tile =>
        { tile with output := saved.owner, floating := saved.floating }
      let d := (d.applyRect w saved.rect).mapElement w saved.rect.loc
      let d := if saved.maximized && !d.pendingMaximized w then d.toggleMaximizeWindow r w else d
      if saved.fullscreen && !d.pendingFullscreen w then d.toggleFullscreenWindow w else d

def snapWindow (zone : Text) (output : Option Text) : Workspace :=
  let d := { d with wm := d.wm.unminimizeWindow r.placement w }
  let d := if zone = ("release" : Text) then d.release r w else d.snapTo r w zone output
  { d with wm := d.wm.activateWindow w }

/-- What the client of a window has acknowledged; an X11 window is asked and told at once. -/
def isMaximized : Bool :=
  match d.surface w with
  | .toplevel t => t.maximized
  | .x11 _ => d.pendingMaximized w

/-- Where a window goes back to when it is unmaximised. -/
def goesBackTo : Option Rect :=
  match d.surface w with
  | .toplevel _ => (d.memory w).saved
  | .x11 old => old

end

/-- What happens between the first snap of a window and its release. -/
inductive SnapEvent where
  | snap (zone : Text) (output : Option Text) (hzone : zone ≠ ("release" : Text))
  /-- The client of a window answers. -/
  | answer (v : Window) (a : Answer)
  /-- The outputs that windows are on are looked at again. -/
  | refresh (entered : Window → List Output)
  | arrange (slots : Slots)

def snapEvent (r : Room) (w : Window) (d : Workspace) : SnapEvent → Workspace
  | .snap zone output _ => d.snapWindow r w zone output
  | .answer v a => d.answer v a
  | .refresh entered => { d with entered := entered }
  | .arrange slots => d.arrangeAll r slots

def snapEvents (r : Room) (w : Window) (d : Workspace) (es : List SnapEvent) : Workspace :=
  es.foldl (snapEvent r w) d

variable {r : Room} {d s t u : Workspace} {v w : Window} {rect : Rect} {zone : Text}
  {output : Option Text}

/-- A window is as it was before. -/
structure Returned (s t : Workspace) (w : Window) : Prop where
  rect : t.askedGeometry w = s.wm.elementGeometry w
  floating : (t.wm.tile w).floating = (s.wm.tile w).floating
  maximized : t.pendingMaximized w = s.pendingMaximized w
  fullscreen : t.pendingFullscreen w = s.pendingFullscreen w
  owner : (t.wm.tile w).output = s.wm.windowHome w
  back : t.goesBackTo w = s.goesBackTo w

/-! ## What stays while a window is snapped -/

/-- What a release brings back besides the rectangle and the owner, or leaves alone. -/
structure Standing (w : Window) (s t : Workspace) : Prop where
  maximized : t.pendingMaximized w = s.pendingMaximized w
  fullscreen : s.pendingFullscreen w = false → t.pendingFullscreen w = false
  floating : (t.wm.tile w).floating = (s.wm.tile w).floating
  back : t.goesBackTo w = s.goesBackTo w
  x11 : (t.surface w).isX11 = (s.surface w).isX11
  snapSaved : (t.memory w).snapSaved = (s.memory w).snapSaved
  mapped : (t.wm.elementLocation w).isSome = (s.wm.elementLocation w).isSome
  minimized : t.wm.minimized = s.wm.minimized
  desks : t.wm.desks = s.wm.desks
  ssd : t.ssd = s.ssd

theorem goesBackTo_eq (hsurface : (t.surface w).acknowledged = (s.surface w).acknowledged)
    (hsaved : (t.memory w).saved = (s.memory w).saved) : t.goesBackTo w = s.goesBackTo w := by
  rw [goesBackTo, goesBackTo]
  cases hs : s.surface w <;> cases ht : t.surface w <;>
    simp_all [Surface.acknowledged]

theorem Steady.standing (h : Steady w s t) : Standing w s t where
  maximized := h.maximized
  fullscreen hfull := h.fullscreen.trans hfull
  floating := h.floating
  back := goesBackTo_eq h.acknowledged h.saved
  x11 := by rw [← Surface.isX11_acknowledged, h.acknowledged, Surface.isX11_acknowledged]
  snapSaved := h.snapSaved
  mapped := h.mapped
  minimized := h.minimized
  desks := h.desks
  ssd := h.ssd

namespace Standing

theorem refl (w : Window) (s : Workspace) : Standing w s s := (Steady.refl w s).standing

theorem trans (h : Standing w s t) (h' : Standing w t u) : Standing w s u where
  maximized := h'.maximized.trans h.maximized
  fullscreen hfull := h'.fullscreen (h.fullscreen hfull)
  floating := h'.floating.trans h.floating
  back := h'.back.trans h.back
  x11 := h'.x11.trans h.x11
  snapSaved := h'.snapSaved.trans h.snapSaved
  mapped := h'.mapped.trans h.mapped
  minimized := h'.minimized.trans h.minimized
  desks := h'.desks.trans h.desks
  ssd := h'.ssd.trans h.ssd

theorem mem_elements (h : Standing w s t) : w ∈ t.wm.elements ↔ w ∈ s.wm.elements := by
  rw [mem_elements_iff, mem_elements_iff, h.mapped]

theorem mapElement (hw : w ∈ d.wm.elements) (loc : Point) :
    Standing w d (d.mapElement w loc) := by
  have hloc : (d.mapElement w loc).wm.elementLocation w = some loc :=
    mapElement_elementLocation d.wm w loc
  exact { refl w d with mapped := by rw [hloc, mem_elements_iff.mp hw]; rfl }

theorem toggleFullscreenWindow (hfull : d.pendingFullscreen w = true) :
    Standing w d (d.toggleFullscreenWindow w) := by
  have hnot : d.pendingFullscreen w = false → False := fun h => by rw [hfull] at h; cases h
  rw [Workspace.toggleFullscreenWindow]
  split
  · split
    next t ht =>
      split
      next hacked =>
        rw [unfullscreenToplevel, if_pos hacked]
        exact { refl w d with
          maximized := by simp [pendingMaximized, setSurface]
          fullscreen := fun h => (hnot h).elim
          back := by simp [goesBackTo, ht, setSurface, updateClient]
          x11 := by rw [setSurface_surface, ht]; rfl }
      · rw [fullscreenToplevel]
        split
        · split
          · exact refl w d
          · exact { refl w d with
              maximized := by simp [pendingMaximized, setSurface]
              fullscreen := fun h => (hnot h).elim
              back := by simp [goesBackTo, ht, setSurface, updateClient]
              x11 := by rw [setSurface_surface, ht]; rfl }
        · exact refl w d
    · rw [unfullscreenX11]
      exact { refl w d with
        maximized := by simp [pendingMaximized]
        fullscreen := fun h => (hnot h).elim }
  · exact refl w d

theorem isMaximized_toggleFullscreenWindow (hfull : d.pendingFullscreen w = true) :
    (d.toggleFullscreenWindow w).isMaximized w = d.isMaximized w := by
  rw [Workspace.toggleFullscreenWindow]
  split
  · split
    next t ht =>
      split
      next hacked =>
        rw [unfullscreenToplevel, if_pos hacked]
        simp [isMaximized, ht]
      · rw [fullscreenToplevel]
        split
        · split
          · rfl
          · simp [isMaximized, ht]
        · rfl
    next old hold =>
      have hsurface : (d.unfullscreenX11 w).surface w = .x11 old := hold
      rw [isMaximized, hsurface, isMaximized, hold, unfullscreenX11]
      simp [pendingMaximized]
  · rfl

theorem toggleMaximizeWindow (hmax : d.pendingMaximized w = true)
    (hacked : d.isMaximized w = false) : Standing w d (d.toggleMaximizeWindow r w) := by
  rw [isMaximized] at hacked
  rw [Workspace.toggleMaximizeWindow]
  split
  next hw =>
    cases hsurface : d.surface w with
    | toplevel t =>
        rw [hsurface] at hacked
        dsimp only at hacked ⊢
        rw [if_neg (by rw [hacked]; exact nofun), maximizeToplevel]
        split
        · split
          · exact refl w d
          next area _ =>
            let t' := (d.updateClient w fun c => { c with pendingMaximized := true }).setSurface w
              (.toplevel { t with size := some (clientSize area (d.pendingHeaderHeight w)) })
            have hstanding : Standing w d t' :=
              { refl w d with
                maximized := by
                  rw [hmax]
                  simp [t', pendingMaximized, setSurface]
                fullscreen := by simp [t', pendingFullscreen, setSurface]
                back := by simp [t', goesBackTo, hsurface, setSurface, updateClient]
                x11 := by rw [setSurface_surface, hsurface]; rfl }
            exact hstanding.trans (mapElement (hstanding.mem_elements.mpr hw) area.loc)
        · exact refl w d
    | x11 old =>
        rw [hsurface, hmax] at hacked
        cases hacked
  · exact refl w d

theorem pin (hw : w ∈ d.wm.elements) (zone : Text) (output : Option Text) :
    Standing w d (d.pin r w zone output) := by
  let t := (d.updateMemory w fun m => { m with tiledNow := false, untiled := none }).updateTile w
    fun tile => { tile with snap := some zone }
  have hpinned : Standing w d t := (Steady.updateMemory d w w).standing.trans
    { refl w _ with floating := by rw [updateTile_tile] }
  rw [Workspace.pin]
  dsimp only
  split
  · exact hpinned
  next o _ =>
    have howned : Standing w d (t.updateTile w fun tile => { tile with output := some o.name }) :=
      hpinned.trans { refl w t with floating := by rw [updateTile_tile] }
    have hasked := howned.trans
      (Steady.applyRect _ w w (snapRect (r.usableArea o) zone)).standing
    exact hasked.trans (mapElement (hasked.mem_elements.mpr hw) _)

end Standing

theorem unminimizeWindow_eq {s : State} (g : Placement) (hminimized : s.isMinimized w = false)
    (hstashed : s.isStashed w = false) : s.unminimizeWindow g w = s := by
  have haway : s.isAway w = false := by simp [State.isAway, hminimized, hstashed]
  have hshow : s.showDeskOf g w = s := by simp [State.showDeskOf, haway]
  have hentry : s.minimizedEntry w = none := by
    refine List.find?_eq_none.mpr fun e he hwin => ?_
    have hin : w ∈ s.minimizedWindows :=
      List.mem_map.mpr ⟨e, he, by simpa using hwin⟩
    rw [State.isMinimized, List.contains_iff_mem.mpr hin] at hminimized
    cases hminimized
  rw [State.unminimizeWindow, hshow]
  simp only [hentry]

/-- A window that can be snapped: it shows, and there is something of its client below the
bar. -/
structure Showing (d : Workspace) (w : Window) (rect : Rect) : Prop where
  there : d.wm.elementGeometry w = some rect
  wide : 1 ≤ rect.size.w
  tall : 1 ≤ rect.size.h - d.pendingHeaderHeight w
  minimized : d.wm.isMinimized w = false
  stashed : d.wm.isStashed w = false
  unsnapped : (d.memory w).snapSaved = none

/-- Where a window was and how it was when it was snapped is kept, and the rest is as it
was. -/
structure Pinned (s t : Workspace) (w : Window) (rect : Rect) : Prop where
  saved : (t.memory w).snapSaved = some
    { rect := rect, floating := (s.wm.tile w).floating, fullscreen := s.pendingFullscreen w,
      maximized := s.pendingMaximized w, owner := s.wm.windowHome w }
  maximized : t.pendingMaximized w = s.pendingMaximized w
  fullscreen : s.pendingFullscreen w = false → t.pendingFullscreen w = false
  floating : (t.wm.tile w).floating = (s.wm.tile w).floating
  back : t.goesBackTo w = s.goesBackTo w
  x11 : (t.surface w).isX11 = (s.surface w).isX11
  mapped : w ∈ t.wm.elements
  notMinimized : t.wm.isMinimized w = false
  notStashed : t.wm.isStashed w = false
  ssd : t.ssd = s.ssd

theorem Pinned.standing (h : Pinned s t w rect) (hs : Standing w t u) : Pinned s u w rect where
  saved := hs.snapSaved.trans h.saved
  maximized := hs.maximized.trans h.maximized
  fullscreen hfull := hs.fullscreen (h.fullscreen hfull)
  floating := hs.floating.trans h.floating
  back := hs.back.trans h.back
  x11 := hs.x11.trans h.x11
  mapped := hs.mem_elements.mpr h.mapped
  notMinimized := by
    rw [State.isMinimized, State.minimizedWindows, hs.minimized]
    exact h.notMinimized
  notStashed := by
    rw [State.isStashed, State.stashedWindows, hs.desks]
    exact h.notStashed
  ssd := hs.ssd.trans h.ssd

theorem Showing.keepSnapSaved (h : Showing d w rect) : Pinned d (d.keepSnapSaved w) w rect := by
  rw [Workspace.keepSnapSaved, h.unsnapped, h.there]
  dsimp only
  have hmapped : w ∈ d.wm.elements := by
    obtain ⟨loc, hloc, -⟩ := Option.map_eq_some_iff.mp h.there
    rw [mem_elements_iff, hloc]
    rfl
  constructor
  · rw [updateMemory_memory]
  · rfl
  · exact id
  · rfl
  · refine goesBackTo_eq rfl ?_
    rw [updateMemory_memory]
  · rfl
  · exact hmapped
  · exact h.minimized
  · exact h.stashed
  · rfl

theorem Pinned.keepSnapSaved (h : Pinned s t w rect) : t.keepSnapSaved w = t := by
  rw [Workspace.keepSnapSaved, h.saved]

theorem Pinned.snapTo (h : Pinned s (t.keepSnapSaved w) w rect)
    (hclean : t.pendingMaximized w = true → t.isMaximized w = false) (zone : Text)
    (output : Option Text) : Pinned s (t.snapTo r w zone output) w rect := by
  let a := t.keepSnapSaved w
  let b := if a.pendingFullscreen w then a.toggleFullscreenWindow w else a
  let c := if b.pendingMaximized w then b.toggleMaximizeWindow r w else b
  have hkept : a.pendingMaximized w = t.pendingMaximized w ∧
      a.isMaximized w = t.isMaximized w := by
    simp only [a, Workspace.keepSnapSaved]
    split <;> exact ⟨rfl, rfl⟩
  have hab : Standing w a b ∧ b.isMaximized w = a.isMaximized w := by
    simp only [b]
    split
    next hfull =>
      exact ⟨.toggleFullscreenWindow hfull, Standing.isMaximized_toggleFullscreenWindow hfull⟩
    · exact ⟨.refl w a, rfl⟩
  have hbc : Standing w b c := by
    simp only [c]
    split
    next hmax =>
      refine .toggleMaximizeWindow hmax ?_
      rw [hab.2, hkept.2]
      apply hclean
      rw [← hkept.1, ← hab.1.maximized, hmax]
    · exact .refl w b
  have hpinned := h.standing (hab.1.trans hbc)
  exact hpinned.standing (.pin hpinned.mapped zone output)

/-- A step does not take off the maximising: when it snaps a window that was asked to be
maximised, the client does not know of that yet. -/
def Clean (w : Window) (d : Workspace) : SnapEvent → Prop
  | .snap .. => d.pendingMaximized w = true → d.isMaximized w = false
  | _ => True

theorem Pinned.snapWindow (h : Pinned s (t.keepSnapSaved w) w rect)
    (hminimized : t.wm.isMinimized w = false) (hstashed : t.wm.isStashed w = false)
    (hclean : t.pendingMaximized w = true → t.isMaximized w = false)
    (hzone : zone ≠ ("release" : Text)) :
    Pinned s (t.snapWindow r w zone output) w rect := by
  rw [Workspace.snapWindow, unminimizeWindow_eq _ hminimized hstashed, if_neg hzone]
  exact (h.snapTo hclean zone output).standing (Same.activateWindow w w _).steady.standing

theorem Standing.answer (d : Workspace) (v w : Window) (a : Answer) :
    Standing w d (d.answer v a) := by
  by_cases hne : v = w
  · subst hne
    rw [Workspace.answer]
    split
    next t ht =>
      have hsurface : Standing v d (d.setSurface v
          (.toplevel { t with maximized := a.maximized, fullscreen := a.fullscreen })) :=
        { refl v d with
          back := by simp [goesBackTo, ht, setSurface]
          x11 := by rw [setSurface_surface, ht]; rfl }
      dsimp only
      split
      · refine hsurface.trans { refl v _ with
          maximized := ?_, fullscreen := ?_ }
        · simp [pendingMaximized]
        · simp [pendingFullscreen]
      · exact hsurface
    · exact refl v d
  · exact (Same.answer hne a).steady.standing

theorem Pinned.snapEvent (h : Pinned s t w rect) (e : SnapEvent) (hclean : Clean w t e) :
    Pinned s (t.snapEvent r w e) w rect := by
  cases e with
  | snap zone output hzone =>
      refine Pinned.snapWindow ?_ h.notMinimized h.notStashed hclean hzone
      rw [h.keepSnapSaved]
      exact h
  | answer v a => exact h.standing (.answer t v w a)
  | refresh entered =>
      have hsteady : Standing w t { t with entered := entered } :=
        { Standing.refl w t with }
      exact h.standing hsteady
  | arrange slots => exact h.standing (Steady.arrangeAll h.mapped).standing

/-- Every step of a run is clean. -/
def CleanRun (r : Room) (w : Window) : Workspace → List SnapEvent → Prop
  | _, [] => True
  | d, e :: es => Clean w d e ∧ CleanRun r w (d.snapEvent r w e) es

theorem Pinned.snapEvents (h : Pinned s t w rect) (es : List SnapEvent)
    (hclean : CleanRun r w t es) : Pinned s (t.snapEvents r w es) w rect := by
  induction es generalizing t with
  | nil => exact h
  | cons e es ih => exact ih (h.snapEvent e hclean.1) hclean.2

/-! ## The release -/

/-- A window with its rectangle given back. -/
def putAt (d : Workspace) (w : Window) (rect : Rect) : Workspace :=
  (d.applyRect w rect).mapElement w rect.loc

/-- A window that was fullscreen and is not any more will be that again where it was: its
client knows that it is not, and the output where the window is then has its size, or the
place of an X11 window. -/
def Restores (s t : Workspace) (w : Window) (rect : Rect) : Prop :=
  s.pendingFullscreen w = true → t.pendingFullscreen w = false →
    match t.surface w with
    | .toplevel client => client.fullscreen = false ∧ client.capable = true ∧
        ∃ o, (t.putAt w rect).fullscreenOutput w = some o ∧ o.geometry.size = rect.size
    | .x11 _ => ∃ o, (t.putAt w rect).x11FullscreenOutput w = some o ∧ o.geometry = rect ∧
        s.wm.windowHome w = some o.name

theorem putAt_eq (d : Workspace) (w : Window) (rect : Rect) :
    (d.putAt w rect).pendingMaximized w = d.pendingMaximized w ∧
      (d.putAt w rect).pendingFullscreen w = d.pendingFullscreen w ∧
      (d.putAt w rect).goesBackTo w = d.goesBackTo w ∧
      (d.putAt w rect).wm.tile = d.wm.tile ∧
      (d.putAt w rect).wm.elementLocation w = some rect.loc ∧
      (d.putAt w rect).surface w = (d.applyRect w rect).surface w ∧
      (d.putAt w rect).ssd = d.ssd ∧ (d.putAt w rect).wm.outputs = d.wm.outputs ∧
      (d.putAt w rect).entered = d.entered := by
  have hsteady : Steady w d (d.applyRect w rect) := .applyRect d w w rect
  have htile : (d.applyRect w rect).wm.tile = d.wm.tile := by
    rw [applyRect]
    split <;> rfl
  have hentered : (d.applyRect w rect).entered = d.entered := by
    rw [applyRect]
    split <;> rfl
  exact ⟨hsteady.maximized, hsteady.fullscreen, hsteady.standing.back, htile,
    mapElement_elementLocation _ w rect.loc, rfl, hsteady.ssd, hsteady.outputs, hentered⟩

theorem askedGeometry_putAt (hwide : 1 ≤ rect.size.w)
    (htall : 1 ≤ rect.size.h - d.pendingHeaderHeight w) :
    (d.putAt w rect).askedGeometry w = some rect := by
  have hsize : (d.putAt w rect).askedSize w = rect.size :=
    askedSize_applyRect_of_le hwide htall
  rw [askedGeometry, (putAt_eq d w rect).2.2.2.2.1, hsize]
  rfl

theorem pendingHeaderHeight_of_fullscreen (h : d.pendingFullscreen w = true) :
    d.pendingHeaderHeight w = 0 := by
  rw [pendingHeaderHeight, h, Bool.not_true, Bool.and_false]
  rfl

/-- A window is back at its place as it was, but for its size and the fullscreen. -/
structure Replaced (s c : Workspace) (w : Window) (rect : Rect) : Prop where
  location : c.wm.elementLocation w = some rect.loc
  floating : (c.wm.tile w).floating = (s.wm.tile w).floating
  maximized : c.pendingMaximized w = s.pendingMaximized w
  owner : (c.wm.tile w).output = s.wm.windowHome w
  back : c.goesBackTo w = s.goesBackTo w

namespace Replaced

variable {c : Workspace} {o : Output}

theorem mem_elements (h : Replaced s c w rect) : w ∈ c.wm.elements := by
  rw [mem_elements_iff, h.location]
  rfl

theorem fullscreenToplevel {client : Toplevel} (h : Replaced s c w rect)
    (hthere : s.wm.elementGeometry w = some rect) (hbefore : s.pendingFullscreen w = true)
    (hsurface : c.surface w = .toplevel client) (hcapable : client.capable = true)
    (ho : c.fullscreenOutput w = some o) (hsize : o.geometry.size = rect.size) :
    Returned s (c.fullscreenToplevel w client) w := by
  rw [Workspace.fullscreenToplevel, if_pos hcapable, ho]
  dsimp only
  let t := (c.updateClient w fun c => { c with pendingFullscreen := true }).setSurface w
    (.toplevel { client with size := some o.geometry.size })
  have hfull : t.pendingFullscreen w = true := by simp [t, pendingFullscreen, setSurface]
  have hasked : t.askedSize w = rect.size := by
    have hsurface : t.surface w = .toplevel { client with size := some o.geometry.size } :=
      setSurface_surface ..
    rw [askedSize, hsurface, pendingHeaderHeight_of_fullscreen hfull, ← hsize]
    simp [Surface.asked]
  refine ⟨?_, h.floating, ?_, hfull.trans hbefore.symm, h.owner, ?_⟩
  · have hloc : t.wm.elementLocation w = some rect.loc := h.location
    rw [hthere, askedGeometry, hloc, hasked]
    rfl
  · rw [← h.maximized]
    simp [pendingMaximized, setSurface]
  · rw [← h.back]
    simp [goesBackTo, hsurface, setSurface, updateClient]

theorem fullscreenX11 {old : Option Rect} (h : Replaced s c w rect)
    (hthere : s.wm.elementGeometry w = some rect) (hbefore : s.pendingFullscreen w = true)
    (hunmaximized : s.pendingMaximized w = false) (hsurface : c.surface w = .x11 old)
    (ho : c.x11FullscreenOutput w = some o) (hplace : o.geometry = rect)
    (hhome : s.wm.windowHome w = some o.name) : Returned s (c.fullscreenX11 w) w := by
  let t := c.updateClient w fun client => { client with
    pendingMaximized := false, pendingFullscreen := true, size := o.geometry.size }
  have hloc : t.wm.elementLocation w = some rect.loc := h.location
  rw [Workspace.fullscreenX11, ho]
  dsimp only
  rw [if_neg (by rw [hplace]; exact not_not_intro hloc)]
  have hasked : t.askedSize w = rect.size := by
    have hsurface : t.surface w = .x11 old := hsurface
    rw [askedSize, hsurface, ← hplace]
    simp [Surface.asked, t]
  constructor
  · rw [hthere, askedGeometry]
    apply (congrArg (Option.map fun loc => Rect.mk loc (t.askedSize w)) hloc).trans
    rw [hasked]
    rfl
  · rw [updateTile_tile]
    exact h.floating
  · rw [hunmaximized]
    simp [pendingMaximized, updateTile]
  · rw [hbefore]
    simp [pendingFullscreen, updateTile]
  · rw [updateTile_tile, hhome]
  · rw [← h.back]
    rfl

end Replaced

/-- A workspace with other tiles and other rectangles kept. -/
def withTiles (d : Workspace) (tile : Window → TileData) (memory : Window → Memory) :
    Workspace :=
  { d with wm := { d.wm with tile := tile }, memory := memory }

theorem Restores.toggleFullscreenWindow (h : Restores s t w rect) (hshow : Showing s w rect)
    (hclean : s.pendingMaximized w = true → s.isMaximized w = false)
    (hx11 : (t.surface w).isX11 = (s.surface w).isX11)
    (hbefore : s.pendingFullscreen w = true) (hnow : t.pendingFullscreen w = false)
    {tile : Window → TileData} {memory : Window → Memory}
    (hreplaced : Replaced s ((t.withTiles tile memory).putAt w rect) w rect) :
    Returned s (((t.withTiles tile memory).putAt w rect).toggleFullscreenWindow w) w := by
  let c := (t.withTiles tile memory).putAt w rect
  obtain ⟨-, hfull, -, -, hloc, hsurface, -, houtputs, hentered⟩ :=
    putAt_eq (t.withTiles tile memory) w rect
  have hrestores := h hbefore hnow
  rw [Workspace.toggleFullscreenWindow, if_pos hreplaced.mem_elements]
  cases hclient : t.surface w with
  | toplevel client =>
      rw [hclient] at hrestores
      obtain ⟨hacked, hcapable, o, ho, hsize⟩ := hrestores
      have hthere : (t.withTiles tile memory).surface w = .toplevel client := hclient
      rw [applyRect, hthere] at hsurface
      dsimp only at hsurface
      rw [setSurface_surface] at hsurface
      have hout : c.fullscreenOutput w = some o := by
        obtain ⟨-, -, -, -, hloc', -, -, houtputs', hentered'⟩ := putAt_eq t w rect
        rw [← ho, fullscreenOutput, fullscreenOutput, hloc, houtputs, hentered, hloc',
          houtputs', hentered']
        rfl
      rw [hsurface]
      dsimp only
      rw [if_neg (by simp [hacked])]
      exact hreplaced.fullscreenToplevel hshow.there hbefore hsurface hcapable hout hsize
  | x11 old =>
      rw [hclient] at hrestores hx11
      obtain ⟨o, ho, hplace, hhome⟩ := hrestores
      have hthere : (t.withTiles tile memory).surface w = .x11 old := hclient
      have hsurface : c.surface w = .x11 old := by
        rw [hsurface, applyRect, hthere]
        exact hthere
      have hout : c.x11FullscreenOutput w = some o := by
        rw [← ho]
        simp only [c, putAt, applyRect, hthere, hclient]
        rfl
      have hunmaximized : s.pendingMaximized w = false := by
        by_contra hmax
        rw [Bool.not_eq_false] at hmax
        cases hs : s.surface w with
        | toplevel _ =>
            rw [hs] at hx11
            cases hx11
        | x11 _ =>
            have hacked := hclean hmax
            rw [isMaximized, hs] at hacked
            exact Bool.noConfusion (hmax.symm.trans hacked)
      have hfull : c.pendingFullscreen w = false := hfull.trans hnow
      rw [hsurface]
      dsimp only
      rw [if_neg (by exact ne_true_of_eq_false hfull)]
      exact hreplaced.fullscreenX11 hshow.there hbefore hunmaximized hsurface hout hplace hhome

theorem Pinned.release (h : Pinned s t w rect) (hshow : Showing s w rect)
    (hclean : s.pendingMaximized w = true → s.isMaximized w = false)
    (hrestores : Restores s t w rect) : Returned s (t.release r w) w := by
  rw [Workspace.release, h.saved]
  dsimp only
  let b := ((t.updateTile w fun tile => { tile with snap := none }).updateMemory w
    fun m => { m with snapSaved := none }).updateTile w fun tile =>
      { tile with output := s.wm.windowHome w, floating := (s.wm.tile w).floating }
  let c := b.putAt w rect
  obtain ⟨hmax, hfull, hback, htile, hloc, -⟩ := putAt_eq b w rect
  have hfull : c.pendingFullscreen w = t.pendingFullscreen w := hfull
  have hreplaced : Replaced s c w rect := by
    refine ⟨hloc, ?_, hmax.trans h.maximized, ?_, ?_⟩
    · rw [htile, updateTile_tile]
    · rw [htile, updateTile_tile]
    · have hkept : b.goesBackTo w = t.goesBackTo w :=
        goesBackTo_eq rfl (by simp [b, updateTile, updateMemory])
      exact (hback.trans hkept).trans h.back
  -- No snap took off the maximising, so that it is not asked for again.
  have hskip : (s.pendingMaximized w && !c.pendingMaximized w) = false := by
    rw [hreplaced.maximized, Bool.and_not_self]
  change Returned s (let d := if s.pendingMaximized w && !c.pendingMaximized w then
      c.toggleMaximizeWindow r w else c
    if s.pendingFullscreen w && !d.pendingFullscreen w then d.toggleFullscreenWindow w else d) w
  rw [hskip]
  dsimp only
  rw [if_neg Bool.false_ne_true, hfull]
  have hreturned : t.pendingFullscreen w = s.pendingFullscreen w → Returned s c w := by
    intro hsame
    have hheader : b.pendingHeaderHeight w = s.pendingHeaderHeight w := by
      have hb : b.pendingFullscreen w = s.pendingFullscreen w := hsame
      rw [pendingHeaderHeight, hb, pendingHeaderHeight, ← h.ssd]
      rfl
    refine ⟨?_, hreplaced.floating, hreplaced.maximized, hfull.trans hsame, hreplaced.owner,
      hreplaced.back⟩
    rw [hshow.there]
    exact askedGeometry_putAt hshow.wide (hheader ▸ hshow.tall)
  cases hbefore : s.pendingFullscreen w with
  | false =>
      rw [Bool.false_and, if_neg Bool.false_ne_true]
      exact hreturned ((h.fullscreen hbefore).trans hbefore.symm)
  | true =>
      cases hnow : t.pendingFullscreen w with
      | true =>
          rw [Bool.not_true, Bool.and_false, if_neg Bool.false_ne_true]
          exact hreturned (hnow.trans hbefore.symm)
      | false =>
          rw [Bool.not_false, Bool.and_true, if_pos rfl]
          exact hrestores.toggleFullscreenWindow hshow hclean h.x11 hbefore hnow hreplaced

theorem Returned.same (h : Returned s t w) (hs : Same w t u) : Returned s u w where
  rect := hs.askedGeometry.trans h.rect
  floating := (congrArg TileData.floating hs.tile).trans h.floating
  maximized := hs.steady.maximized.trans h.maximized
  fullscreen := hs.steady.fullscreen.trans h.fullscreen
  owner := (congrArg TileData.output hs.tile).trans h.owner
  back := hs.steady.standing.back.trans h.back

/-- The events from the first snap of a window to its release. -/
def snapped (r : Room) (d : Workspace) (w : Window) (zone : Text) (output : Option Text)
    (es : List SnapEvent) : Workspace :=
  (d.snapWindow r w zone output).snapEvents r w es

theorem Showing.snapped (h : Showing d w rect) (hzone : zone ≠ ("release" : Text))
    (hfirst : d.pendingMaximized w = true → d.isMaximized w = false) (es : List SnapEvent)
    (hclean : CleanRun r w (d.snapWindow r w zone output) es) :
    Pinned d (d.snapped r w zone output es) w rect :=
  (h.keepSnapSaved.snapWindow h.minimized h.stashed hfirst hzone).snapEvents es hclean

theorem Pinned.snapWindow_release (h : Pinned s t w rect) (hshow : Showing s w rect)
    (hclean : s.pendingMaximized w = true → s.isMaximized w = false)
    (hrestores : Restores s t w rect) :
    Returned s (t.snapWindow r w "release" output) w := by
  rw [Workspace.snapWindow, unminimizeWindow_eq _ h.notMinimized h.notStashed, if_pos rfl]
  exact (h.release hshow hclean hrestores).same (.activateWindow w w _)

/-- However often a window is snapped, and whatever its client answers in between, a release
brings it back as it was, if no snap takes off the maximising and it can be fullscreen again
where it was. -/
theorem snaps_return (hshow : Showing d w rect) (hzone : zone ≠ ("release" : Text))
    (hfirst : d.pendingMaximized w = true → d.isMaximized w = false) (es : List SnapEvent)
    (hclean : CleanRun r w (d.snapWindow r w zone output) es)
    (hrestores : Restores d (d.snapped r w zone output es) w rect) :
    Returned d ((d.snapped r w zone output es).snapWindow r w "release" none) w :=
  (hshow.snapped hzone hfirst es hclean).snapWindow_release hshow hfirst hrestores

/-- A window that was neither maximised nor fullscreen always comes back as it was. -/
theorem snaps_return_of_plain (hshow : Showing d w rect) (hzone : zone ≠ ("release" : Text))
    (hmax : d.pendingMaximized w = false) (hfull : d.pendingFullscreen w = false)
    (es : List SnapEvent) :
    Returned d ((d.snapped r w zone output es).snapWindow r w "release" none) w := by
  have hrun : ∀ (es : List SnapEvent) (t : Workspace), Pinned d t w rect → CleanRun r w t es := by
    intro es
    induction es with
    | nil => exact fun _ _ => trivial
    | cons e es ih =>
        intro t ht
        have hclean : Clean w t e := by
          cases e with
          | snap zone output hzone =>
              intro h
              rw [ht.maximized, hmax] at h
              cases h
          | _ => trivial
        exact ⟨hclean, ih _ (ht.snapEvent e hclean)⟩
  have hfirst : d.pendingMaximized w = true → d.isMaximized w = false := fun h => by
    rw [hmax] at h
    cases h
  have hpinned : Pinned d (d.snapWindow r w zone output) w rect :=
    hshow.keepSnapSaved.snapWindow hshow.minimized hshow.stashed hfirst hzone
  apply (hpinned.snapEvents es (hrun es _ hpinned)).snapWindow_release hshow hfirst
  intro h
  rw [hfull] at h
  cases h

/-! ## After a snap that takes off the maximising -/

/-- A window that fills its screen, maximised as its client knows, which goes back to another
rectangle when it is unmaximised. -/
def maximizedWindow (maximized : Bool) : Workspace where
  wm :=
    { space := { stack := Stack.put {} 1 }
      client := fun _ => { size := ⟨1920, 1080⟩, pendingMaximized := maximized }
      outputs := .single ⟨"DP-1", ⟨⟨0, 0⟩, ⟨1920, 1080⟩⟩⟩ }
  surface := fun _ => .toplevel { size := some ⟨1920, 1080⟩, maximized := maximized }
  memory := fun _ => { saved := some ⟨⟨100, 100⟩, ⟨800, 600⟩⟩ }

/-- The client draws what it is asked for. -/
def drawsHalf : List SnapEvent := [.answer 1 { size := ⟨960, 1080⟩ }]

theorem maximizedWindow_showing (maximized : Bool) :
    Showing (maximizedWindow maximized) 1 ⟨⟨0, 0⟩, ⟨1920, 1080⟩⟩ where
  there := rfl
  wide := by decide
  tall := show (1 : Int) ≤ 1080 - 0 by decide
  minimized := rfl
  stashed := rfl
  unsnapped := rfl

/-- A fullscreen window that was maximised before, as its client knows. -/
def fullscreenWindow : Workspace where
  wm :=
    { space := { stack := Stack.put {} 1 }
      client := fun _ =>
        { size := ⟨1920, 1080⟩, pendingMaximized := true, pendingFullscreen := true }
      outputs := .single ⟨"DP-1", ⟨⟨0, 0⟩, ⟨1920, 1080⟩⟩⟩ }
  surface := fun _ => .toplevel { size := some ⟨1920, 1080⟩, fullscreen := true }
  memory := fun _ => { saved := some ⟨⟨100, 100⟩, ⟨800, 600⟩⟩ }

theorem fullscreenWindow_showing : Showing fullscreenWindow 1 ⟨⟨0, 0⟩, ⟨1920, 1080⟩⟩ where
  there := rfl
  wide := by decide
  tall := show (1 : Int) ≤ 1080 - 0 by decide
  minimized := rfl
  stashed := rfl
  unsnapped := rfl

theorem snaps_return_plain_window :
    let t := (fullscreenWindow.snapped {} 1 "left-half" none drawsHalf).snapWindow {} 1
      "release" none
    t.askedGeometry 1 = some ⟨⟨0, 0⟩, ⟨1920, 1080⟩⟩ ∧ t.pendingMaximized 1 = true ∧
      t.pendingFullscreen 1 = true :=
  have h := snaps_return fullscreenWindow_showing (by decide) (fun _ => rfl) drawsHalf
    ⟨trivial, trivial⟩ (fun _ _ => And.intro rfl (And.intro rfl ⟨_, rfl, rfl⟩))
  ⟨h.rect, h.maximized, h.fullscreen⟩

theorem snaps_return_of_plain_again :
    ((((maximizedWindow false).snapped {} 1 "left-half" none
      [.snap "top" none (by decide), .answer 1 { size := ⟨960, 540⟩ }]).snapWindow {} 1
        "release" none).askedGeometry 1) = some ⟨⟨0, 0⟩, ⟨1920, 1080⟩⟩ :=
  (snaps_return_of_plain (maximizedWindow_showing false) (by decide) rfl rfl _).rect

/-- A maximised window comes back maximised, but goes back to the zone from there. -/
theorem not_always_return : ¬∀ (r : Room) (d : Workspace) (w : Window) (rect : Rect) (zone : Text)
    (output : Option Text) (es : List SnapEvent), Showing d w rect → zone ≠ ("release" : Text) →
      Returned d ((d.snapped r w zone output es).snapWindow r w "release" none) w := by
  intro h
  have hback := (h {} (maximizedWindow true) 1 _ "left-half" none drawsHalf
    (maximizedWindow_showing true) (by decide)).back
  revert hback
  decide

end Workspace

end MindOS.Wm
