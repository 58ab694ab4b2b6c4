import MindOS.Wm.Lock.Basic

/-!
# No key leaves the lock screen

While the session is locked the focus and every grab that could give the keyboard away
belong to the lock screen, or to nobody. Each check of the lock keeps this. What does not
keep it is a popup that asks for a grab, an X11 client that does, and a press on a
fullscreen window or on a panel; and the lock itself does not reach it when a grab is on.
-/

namespace MindOS.Lock

open Transition

namespace Seat

variable {s t u : Seat} {x : KeyboardFocusTarget} {g : PopupGrab}

/-! ## What the keyboard leaves alone -/

/-- The surfaces, the lock and the popups with a grab stay, but for those that are dismissed. -/
structure Frame (s t : Seat) : Prop where
  locked : t.locked = s.locked
  popup : t.popup = s.popup
  popups : t.popups = s.popups
  layer : ∀ l, (t.layer l).map Layer.nameSpace = (s.layer l).map Layer.nameSpace
  active : t.popupGrabs.active ⊆ s.popupGrabs.active

namespace Frame

theorem refl (s : Seat) : Frame s s := ⟨rfl, rfl, rfl, fun _ => rfl, fun _ h => h⟩

theorem trans (h : Frame s t) (h' : Frame t u) : Frame s u :=
  ⟨h'.locked.trans h.locked, h'.popup.trans h.popup, h'.popups.trans h.popups,
    fun l => (h'.layer l).trans (h.layer l), fun _ hp => h.active (h'.active hp)⟩

theorem keyboard (s : Seat) (focus : Option KeyboardFocusTarget)
    (grab : Option (Serial × KeyboardGrab)) (sent : List KeyboardFocusTarget) :
    Frame s { s with focus := focus, grab := grab, sent := sent } :=
  ⟨rfl, rfl, rfl, fun _ => rfl, fun _ h => h⟩

theorem pointer (h : Frame s t) (pointerGrab : Option (Serial × PointerGrab)) :
    Frame s { t with pointerGrab := pointerGrab } :=
  ⟨h.locked, h.popup, h.popups, h.layer, h.active⟩

theorem rootOf (h : Frame s t) (x : KeyboardFocusTarget) : t.rootOf x = s.rootOf x := by
  have hwithin : ∀ n x, t.rootWithin n x = s.rootWithin n x := by
    intro n
    induction n with
    | zero => exact fun _ => rfl
    | succ n ih =>
        intro x
        cases x with
        | window w => rfl
        | layerSurface l => rfl
        | popup p =>
            rw [rootWithin, rootWithin, h.popup]
            exact congrArg _ (funext ih)
  rw [Seat.rootOf, Seat.rootOf, h.popups, hwithin]

theorem popupAlive (h : Frame s t) (p : Nat) : t.popupAlive p = s.popupAlive p := by
  rw [Seat.popupAlive, h.popup, Seat.popupAlive]

theorem ofLockScreen (h : Frame s t) (x : KeyboardFocusTarget) :
    t.ofLockScreen x = s.ofLockScreen x := by
  have hany : ∀ o : Option Layer, (o.any fun layer => layer.nameSpace = lockNamespace) =
      (o.map Layer.nameSpace).any fun name => name = lockNamespace := by
    intro o
    cases o <;> rfl
  unfold Seat.ofLockScreen
  rw [h.rootOf]
  split
  next l hl => rw [hany, hany, h.layer]
  next => rfl

theorem discardDeadGrab (s : Seat) : Frame s s.discardDeadGrab := by
  unfold Seat.discardDeadGrab
  split
  · split
    · exact refl s
    · exact keyboard s s.focus none s.sent
  · exact refl s

theorem send (s : Seat) : Frame s s.send := keyboard s s.focus s.grab _

theorem setFocus (s : Seat) (focus : Option KeyboardFocusTarget) : Frame s (s.setFocus focus) := by
  refine (discardDeadGrab s).trans ?_
  unfold Seat.setFocus
  generalize s.discardDeadGrab = s
  dsimp only
  split
  · exact keyboard s focus s.grab s.sent
  · split
    · exact keyboard s focus none s.sent
    · split
      · exact keyboard s focus s.grab s.sent
      · exact refl s
  · split
    · exact refl s
    · exact keyboard s focus none s.sent
  · exact keyboard s focus s.grab s.sent

theorem inputForward (s : Seat) : Frame s s.inputForward := by
  refine (discardDeadGrab s).trans ?_
  unfold Seat.inputForward
  generalize s.discardDeadGrab = s
  dsimp only
  split
  · exact send s
  · exact (keyboard s _ _ s.sent).trans (send _)
  · exact (keyboard s _ _ s.sent).trans (send _)
  · exact refl s

theorem unsetKeyboardGrab (s : Seat) (g : PopupGrab) : Frame s (s.unsetKeyboardGrab g) := by
  unfold Seat.unsetKeyboardGrab
  split
  · exact (keyboard s s.focus none s.sent).trans (setFocus _ _)
  · exact refl s

theorem unsetHandler (s : Seat) : Frame s s.unsetHandler := by
  unfold Seat.unsetHandler
  split
  · exact unsetKeyboardGrab s _
  · exact refl s

theorem unsetPointerGrab (s : Seat) : Frame s s.unsetPointerGrab := (unsetHandler s).pointer none

theorem setPointerGrab (s : Seat) (serial : Serial) (g : PointerGrab) :
    Frame s (s.setPointerGrab serial g) := (unsetHandler s).pointer (some (serial, g))

theorem ungrabAll (s : Seat) (g : PopupGrab) : Frame s (s.ungrabAll g) :=
  ⟨rfl, rfl, rfl, fun _ => rfl, fun _ h => (nomatch h)⟩

theorem cleanupPopups (s : Seat) : Frame s s.cleanupPopups :=
  ⟨rfl, rfl, rfl, fun _ => rfl, List.filter_subset_self _⟩

theorem focusWindow (s : Seat) (w : Nat) : Frame s (s.focusWindow w) := by
  unfold Seat.focusWindow
  split
  · exact refl s
  · exact setFocus s _

theorem activateWindow (s : Seat) (w : Nat) : Frame s (s.activateWindow w) := by
  unfold Seat.activateWindow
  split
  · exact refl s
  · exact focusWindow s _

theorem focusNewWindow (s : Seat) (w : Nat) (mayInterrupt : Bool) :
    Frame s (s.focusNewWindow w mayInterrupt) := by
  unfold Seat.focusNewWindow
  split
  · exact focusWindow s w
  · exact refl s

theorem refreshFocus (s : Seat) : Frame s s.refreshFocus := by
  unfold Seat.refreshFocus
  split
  · split
    · exact setFocus s none
    · exact refl s
  · split
    · exact refl s
    · split
      · split
        · exact refl s
        · exact setFocus s none
      · exact setFocus s _

theorem updateLayer (s : Seat) {l : Nat} {layer : Layer} (layer' : Layer)
    (hl : s.layer l = some layer) (hname : layer'.nameSpace = layer.nameSpace) :
    Frame s { s with layer := Function.update s.layer l (some layer') } := by
  refine ⟨rfl, rfl, rfl, fun k => ?_, fun _ h => h⟩
  by_cases hk : k = l
  · subst hk
    simp [hl, hname]
  · simp [Function.update_of_ne hk]

theorem focusNewLayer (s : Seat) (l : Nat) : Frame s (s.focusNewLayer l) := by
  unfold Seat.focusNewLayer
  split
  · exact refl s
  next layer hl =>
    split
    · exact refl s
    · split
      · exact updateLayer s _ hl rfl
      · split
        · exact refl s
        · dsimp only
          have hgiven := updateLayer s { layer with focusGiven := true } hl rfl
          split
          · exact hgiven
          · exact hgiven.trans (setFocus _ _)

theorem commitLayer (s : Seat) (l : Nat) (output : Option Nat) (wlrLayer : WlrLayer)
    (interactivity : KeyboardInteractivity) (mapped : Bool) :
    Frame s (s.commitLayer l output wlrLayer interactivity mapped) := by
  unfold Seat.commitLayer
  split
  · exact refl s
  next layer hl =>
    dsimp only
    refine (updateLayer s _ hl ?_).trans (focusNewLayer _ l)
    rfl

theorem destroyLayer (s : Seat) (l : Nat) : Frame s (s.destroyLayer l) := by
  unfold Seat.destroyLayer
  split
  · exact refl s
  next layer hl =>
    have h := updateLayer s { layer with alive := false, output := none } hl rfl
    exact ⟨rfl, rfl, rfl, h.layer, fun _ h => h⟩

theorem keyboardKey (s : Seat) (forward : Bool) : Frame s (s.keyboardKey forward) := by
  have hforward : ∀ t : Seat, Frame t (if forward then t.inputForward else t) := by
    intro t
    split
    · exact inputForward t
    · exact refl t
  unfold Seat.keyboardKey
  cases s.layers.reverse.find? s.takesKeys with
  | none => exact hforward s
  | some l => exact (setFocus s _).trans (hforward _)

theorem releaseAllKeys (s : Seat) (n : Nat) : Frame s (s.releaseAllKeys n) := by
  induction n generalizing s with
  | zero => exact refl s
  | succ n ih => exact (inputForward s).trans (ih s.inputForward)

theorem updateKeyboardFocus (s : Seat) (under : Under) (touchGrabbed : Bool) :
    Frame s (s.updateKeyboardFocus under touchGrabbed) := by
  have hpanel : ∀ l, Frame s (if s.canReceiveKeyboardFocus l then
      s.setFocus (some (.layerSurface l)) else s) := by
    intro l
    split
    · exact setFocus s _
    · exact refl s
  unfold Seat.updateKeyboardFocus
  split
  · split
    · exact setFocus s _
    · exact hpanel _
    · exact activateWindow s _
    · exact hpanel _
    · exact refl s
  · exact refl s

theorem pointerMotion (s : Seat) : Frame s s.pointerMotion := by
  unfold Seat.pointerMotion
  split
  · split
    · exact unsetPointerGrab s
    · exact refl s
  · exact refl s

theorem pointerPress (s : Seat) (serial : Serial) (sameClient : Bool) :
    Frame s (s.pointerPress serial sameClient) := by
  unfold Seat.pointerPress
  split
  · exact setPointerGrab s serial .other
  · split
    · exact (unsetPointerGrab s).trans (setPointerGrab _ serial .other)
    · split
      · exact unsetPointerGrab s
      · split
        · exact refl s
        · exact (ungrabAll s _).trans (unsetPointerGrab _)
  · exact refl s

theorem onPointerPress (s : Seat) (under : Under) (drag : Option Nat) (serial : Serial)
    (sameClient touchGrabbed : Bool) :
    Frame s (s.onPointerPress under drag serial sameClient touchGrabbed) := by
  unfold Seat.onPointerPress
  refine Frame.trans ?_ (pointerPress _ serial sameClient)
  split
  · exact (activateWindow s _).trans (setPointerGrab _ serial .other)
  · exact updateKeyboardFocus s under touchGrabbed

theorem takeGrab (s : Seat) (g : PopupGrab) : Frame s (s.takeGrab g) := by
  unfold Seat.takeGrab
  split
  · exact ungrabAll s g
  · have hgrab : Frame s { s.setFocus (some (s.currentGrab g)) with
        grab := some (g.serial, .popup g) } :=
      (setFocus s _).trans (keyboard _ _ _ _)
    dsimp only
    split
    · exact hgrab.trans (ungrabAll _ g)
    · exact hgrab.trans (setPointerGrab _ _ _)

end Frame

/-! ## The lock screen keeps the keyboard -/

/-- The popups with a grab that are still there belong to the lock screen. -/
def PopupsOfLock (s : Seat) : Prop :=
  ∀ p ∈ s.popupGrabs.active, s.popupAlive p = true → s.ofLockScreen (.popup p) = true

/-- A grab that leaves the keyboard with the lock screen. -/
def HarmlessGrab (s : Seat) : KeyboardGrab → Prop
  | .popup g => s.ofLockScreen g.root = true ∧ s.PopupsOfLock
  | .xwayland _ _ => False
  | .inputMethod => True

/-- What holds of a locked session: nothing behind the lock screen has the keyboard or is
given it back. -/
structure Sealed (s : Seat) : Prop where
  focus : ∀ x, s.focus = some x → s.ofLockScreen x = true
  grab : ∀ k g, s.grab = some (k, g) → s.HarmlessGrab g
  pointer : ∀ k g, s.pointerGrab = some (k, .popup g) → s.ofLockScreen g.root = true
  sent : ∀ x ∈ s.sent, s.ofLockScreen x = true

theorem Frame.popupsOfLock (h : Frame s t) (hs : s.PopupsOfLock) : t.PopupsOfLock := by
  intro p hp halive
  rw [h.ofLockScreen]
  rw [h.popupAlive] at halive
  exact hs p (h.active hp) halive

theorem Frame.harmlessGrab (h : Frame s t) {g : KeyboardGrab} (hg : s.HarmlessGrab g) :
    t.HarmlessGrab g := by
  cases g with
  | popup g => exact ⟨(h.ofLockScreen g.root).trans hg.1, h.popupsOfLock hg.2⟩
  | xwayland x w => exact hg
  | inputMethod => exact hg

/-- Where a popup grab has the keyboard: with a popup of the lock screen or its root. -/
theorem ofLockScreen_currentGrab (hg : s.HarmlessGrab (.popup g)) :
    s.ofLockScreen (s.currentGrab g) = true := by
  unfold currentGrab
  cases htop : s.grabbedPopup with
  | none => exact hg.1
  | some p =>
      have hmem : p ∈ s.popupGrabs.active := List.mem_reverse.mp (List.mem_of_find?_eq_some htop)
      exact hg.2 p hmem (List.find?_some htop)

theorem Frame.sealed (h : Frame s t) (hfocus : ∀ x, t.focus = some x → s.ofLockScreen x = true)
    (hgrab : ∀ k g, t.grab = some (k, g) → s.HarmlessGrab g)
    (hpointer : ∀ k g, t.pointerGrab = some (k, .popup g) → s.ofLockScreen g.root = true)
    (hsent : ∀ x ∈ t.sent, s.ofLockScreen x = true) : Sealed t := by
  refine ⟨fun x hx => ?_, fun k g hg => h.harmlessGrab (hgrab k g hg), fun k g hg => ?_,
    fun x hx => ?_⟩
  · exact (h.ofLockScreen x).trans (hfocus x hx)
  · exact (h.ofLockScreen g.root).trans (hpointer k g hg)
  · exact (h.ofLockScreen x).trans (hsent x hx)

namespace Sealed

/-- A focus and a grab of the lock screen, or none. -/
theorem keyboard (h : Sealed s) {focus : Option KeyboardFocusTarget}
    {grab : Option (Serial × KeyboardGrab)} (hfocus : ∀ x, focus = some x → s.ofLockScreen x = true)
    (hgrab : ∀ k g, grab = some (k, g) → s.HarmlessGrab g) :
    Sealed { s with focus := focus, grab := grab } :=
  (Frame.keyboard s focus grab s.sent).sealed hfocus hgrab h.pointer h.sent

theorem noGrab (h : Sealed s) : Sealed { s with grab := none } :=
  h.keyboard h.focus fun _ _ hg => (nomatch hg)

theorem discardDeadGrab (h : Sealed s) : Sealed s.discardDeadGrab := by
  unfold Seat.discardDeadGrab
  split
  · split
    · exact h
    · exact h.noGrab
  · exact h

theorem send (h : Sealed s) : Sealed s.send := by
  refine (Frame.send s).sealed h.focus h.grab h.pointer fun x hx => ?_
  rcases List.mem_append.mp hx with hx | hx
  · exact h.sent x hx
  · exact h.focus x (Option.mem_toList.mp hx)

/-- The focus goes to the lock screen, or to nothing. -/
theorem setFocus (h : Sealed s) {focus : Option KeyboardFocusTarget}
    (hfocus : ∀ x, focus = some x → s.ofLockScreen x = true) : Sealed (s.setFocus focus) := by
  have hfocus' : ∀ x, focus = some x → s.discardDeadGrab.ofLockScreen x = true := fun x hx =>
    ((Frame.discardDeadGrab s).ofLockScreen x).trans (hfocus x hx)
  have h' := h.discardDeadGrab
  unfold Seat.setFocus
  generalize s.discardDeadGrab = s at hfocus' h'
  dsimp only
  split
  next hnone => exact h'.keyboard hfocus' h'.grab
  next k g hg =>
    split
    · exact h'.keyboard hfocus' fun _ _ hg => (nomatch hg)
    · split
      · exact h'.keyboard hfocus' h'.grab
      · exact h'
  next k x w hg => exact (h'.grab k _ hg).elim
  next k hg => exact h'.keyboard hfocus' h'.grab

theorem inputForward (h : Sealed s) : Sealed s.inputForward := by
  have h' := h.discardDeadGrab
  unfold Seat.inputForward
  generalize s.discardDeadGrab = s at h'
  dsimp only
  split
  next hnone => exact h'.send
  next k g hg =>
    have hharmless := h'.grab k _ hg
    refine Sealed.send (h'.keyboard ?_ ?_)
    · intro x hx
      exact Option.some.inj hx ▸ ofLockScreen_currentGrab hharmless
    · intro k' g' hg'
      split at hg'
      · cases hg'
      · exact h'.grab k' g' hg'
  next k x w hg => exact (h'.grab k _ hg).elim
  next k hg => exact h'

theorem unsetKeyboardGrab (h : Sealed s) (hroot : s.ofLockScreen g.root = true) :
    Sealed (s.unsetKeyboardGrab g) := by
  unfold Seat.unsetKeyboardGrab
  split
  · refine h.noGrab.setFocus fun x hx => ?_
    rw [← Option.some.inj hx]
    exact ((Frame.keyboard s s.focus none s.sent).ofLockScreen g.root).trans hroot
  · exact h

theorem unsetHandler (h : Sealed s) : Sealed s.unsetHandler := by
  unfold Seat.unsetHandler
  split
  next k g hg => exact h.unsetKeyboardGrab (h.pointer k g hg)
  next => exact h

/-- The pointer is grabbed for the lock screen, or not for a popup. -/
theorem pointerGrab (h : Sealed s) {pointerGrab : Option (Serial × PointerGrab)}
    (hpointer : ∀ k g, pointerGrab = some (k, .popup g) → s.ofLockScreen g.root = true) :
    Sealed { s with pointerGrab := pointerGrab } :=
  ((Frame.refl s).pointer pointerGrab).sealed h.focus h.grab hpointer h.sent

theorem unsetPointerGrab (h : Sealed s) : Sealed s.unsetPointerGrab :=
  h.unsetHandler.pointerGrab fun _ _ hg => (nomatch hg)

theorem setPointerGrab_other (h : Sealed s) (serial : Serial) :
    Sealed (s.setPointerGrab serial .other) :=
  h.unsetHandler.pointerGrab fun _ _ hg => (nomatch hg)

theorem setPointerGrab_popup (h : Sealed s) (serial : Serial)
    (hroot : s.ofLockScreen g.root = true) : Sealed (s.setPointerGrab serial (.popup g)) := by
  refine h.unsetHandler.pointerGrab fun k g' hg => ?_
  cases hg
  exact ((Frame.unsetHandler s).ofLockScreen g.root).trans hroot

theorem ungrabAll (h : Sealed s) (g : PopupGrab) : Sealed (s.ungrabAll g) :=
  (Frame.ungrabAll s g).sealed h.focus h.grab h.pointer h.sent

theorem cleanupPopups (h : Sealed s) : Sealed s.cleanupPopups :=
  (Frame.cleanupPopups s).sealed h.focus h.grab h.pointer h.sent

theorem pointerMotion (h : Sealed s) : Sealed s.pointerMotion := by
  unfold Seat.pointerMotion
  split
  · split
    · exact h.unsetPointerGrab
    · exact h
  · exact h

theorem pointerPress (h : Sealed s) (serial : Serial) (sameClient : Bool) :
    Sealed (s.pointerPress serial sameClient) := by
  unfold Seat.pointerPress
  split
  · exact h.setPointerGrab_other serial
  · split
    · exact h.unsetPointerGrab.setPointerGrab_other serial
    · split
      · exact h.unsetPointerGrab
      · split
        · exact h
        · exact (h.ungrabAll _).unsetPointerGrab
  · exact h

/-- A popup of the lock screen takes the keyboard. -/
theorem takeGrab (h : Sealed s) (hg : s.HarmlessGrab (.popup g)) : Sealed (s.takeGrab g) := by
  unfold Seat.takeGrab
  split
  · exact h.ungrabAll g
  · have hfocus : Sealed (s.setFocus (some (s.currentGrab g))) := by
      refine h.setFocus fun x hx => ?_
      exact Option.some.inj hx ▸ ofLockScreen_currentGrab hg
    have hframe : Frame s (s.setFocus (some (s.currentGrab g))) := Frame.setFocus s _
    have hgrab : Sealed { s.setFocus (some (s.currentGrab g)) with
        grab := some (g.serial, .popup g) } := by
      refine hfocus.keyboard hfocus.focus fun k g' hg' => ?_
      cases hg'
      exact hframe.harmlessGrab hg
    dsimp only
    split
    · exact hgrab.ungrabAll g
    · refine hgrab.setPointerGrab_popup g.serial ?_
      exact ((hframe.trans (Frame.keyboard _ _ _ _)).ofLockScreen g.root).trans hg.1

/-! ### Behind the lock -/

theorem refreshFocus (h : Sealed s) (hlocked : s.locked = true) : Sealed s.refreshFocus := by
  unfold Seat.refreshFocus
  rw [if_pos hlocked]
  split
  · exact h.setFocus fun _ hx => (nomatch hx)
  · exact h

theorem activateWindow (h : Sealed s) (hlocked : s.locked = true) (w : Nat) :
    Sealed (s.activateWindow w) := by
  rw [Seat.activateWindow, hlocked, Bool.true_or, if_pos rfl]
  exact h

theorem focusNewWindow (h : Sealed s) (hlocked : s.locked = true) (w : Nat) (mayInterrupt : Bool) :
    Sealed (s.focusNewWindow w mayInterrupt) := by
  rw [Seat.focusNewWindow, focusWindow, if_pos hlocked, ite_self]
  exact h

theorem releaseAllKeys (h : Sealed s) (n : Nat) : Sealed (s.releaseAllKeys n) := by
  induction n generalizing s with
  | zero => exact h
  | succ n ih => exact ih h.inputForward

end Sealed

/-- A press that leaves the keyboard with the lock screen. -/
def HarmlessPress (s : Seat) (under : Under) (touchGrabbed : Bool) : Prop :=
  s.pressMovesFocus touchGrabbed = true →
    under.fullscreen = none ∧
    (∀ l, under.upper = some l → s.canReceiveKeyboardFocus l = true →
      s.ofLockScreen (.layerSurface l) = true) ∧
    ∀ l, under.upper = none → under.window = none → under.lower = some l →
      s.canReceiveKeyboardFocus l = true → s.ofLockScreen (.layerSurface l) = true

theorem ofLockScreen_layerSurface (s : Seat) (l : Nat) :
    s.ofLockScreen (.layerSurface l) =
      (s.layer l).any fun layer => layer.nameSpace = lockNamespace := rfl

/-- Behind the lock only a panel of the lock screen takes the keys. -/
theorem ofLockScreen_of_takesKeys (hlocked : s.locked = true) {l : Nat}
    (htakes : s.takesKeys l = true) : s.ofLockScreen (.layerSurface l) = true := by
  rw [ofLockScreen_layerSurface]
  unfold takesKeys at htakes
  cases hl : s.layer l with
  | none => simp [hl] at htakes
  | some layer =>
      cases ho : layer.output with
      | none => simp [hl, ho] at htakes
      | some o =>
          have hname : layer.nameSpace = lockNamespace := by
            simp only [hl, ho, hlocked, Bool.and_eq_true, Bool.true_and, Bool.not_eq_true',
              decide_eq_false_iff_not, not_not] at htakes
            exact htakes.2.1
          simp [hname]

namespace Sealed

theorem keyboardKey (h : Sealed s) (hlocked : s.locked = true) (forward : Bool) :
    Sealed (s.keyboardKey forward) := by
  have hforward : ∀ t : Seat, Sealed t → Sealed (if forward then t.inputForward else t) := by
    intro t ht
    split
    · exact ht.inputForward
    · exact ht
  unfold Seat.keyboardKey
  cases hl : s.layers.reverse.find? s.takesKeys with
  | none => exact hforward s h
  | some l =>
      refine hforward _ (h.setFocus fun x hx => ?_)
      rw [← Option.some.inj hx]
      exact ofLockScreen_of_takesKeys hlocked (List.find?_some hl)

theorem updateLayer (h : Sealed s) {l : Nat} {layer : Layer} (layer' : Layer)
    (hl : s.layer l = some layer) (hname : layer'.nameSpace = layer.nameSpace) :
    Sealed { s with layer := Function.update s.layer l (some layer') } :=
  (Frame.updateLayer s layer' hl hname).sealed h.focus h.grab h.pointer h.sent

theorem focusNewLayer (h : Sealed s) (hlocked : s.locked = true) (l : Nat) :
    Sealed (s.focusNewLayer l) := by
  unfold Seat.focusNewLayer
  split
  · exact h
  next layer hl =>
    split
    · exact h
    · split
      · exact h.updateLayer _ hl rfl
      · split
        · exact h
        · have hgiven := h.updateLayer { layer with focusGiven := true } hl rfl
          dsimp only
          split
          · exact hgiven
          next hname =>
            refine hgiven.setFocus fun x hx => ?_
            rw [← Option.some.inj hx, ofLockScreen_layerSurface]
            simp only [hlocked, Bool.true_and, Bool.or_eq_true, decide_eq_true_eq, not_or,
              not_not] at hname
            simp [hname.2]

theorem commitLayer (h : Sealed s) (hlocked : s.locked = true) (l : Nat) (output : Option Nat)
    (wlrLayer : WlrLayer) (interactivity : KeyboardInteractivity) (mapped : Bool) :
    Sealed (s.commitLayer l output wlrLayer interactivity mapped) := by
  unfold Seat.commitLayer
  split
  · exact h
  next layer hl =>
    dsimp only
    refine (h.updateLayer _ hl ?_).focusNewLayer hlocked l
    rfl

theorem destroyLayer (h : Sealed s) (l : Nat) : Sealed (s.destroyLayer l) := by
  have hframe := Frame.destroyLayer s l
  revert hframe
  unfold Seat.destroyLayer
  split
  · exact fun _ => h
  next => exact fun hframe => hframe.sealed h.focus h.grab h.pointer h.sent

theorem updateKeyboardFocus (h : Sealed s) (hlocked : s.locked = true) {under : Under}
    {touchGrabbed : Bool} (hpress : s.HarmlessPress under touchGrabbed) :
    Sealed (s.updateKeyboardFocus under touchGrabbed) := by
  have hpanel : ∀ l,
      (s.canReceiveKeyboardFocus l = true → s.ofLockScreen (.layerSurface l) = true) →
      Sealed (if s.canReceiveKeyboardFocus l then s.setFocus (some (.layerSurface l)) else s) := by
    intro l hl
    split
    next hcan =>
      refine h.setFocus fun x hx => ?_
      rw [← Option.some.inj hx]
      exact hl hcan
    next => exact h
  unfold Seat.updateKeyboardFocus
  split
  next hmoves =>
    obtain ⟨hfullscreen, hupper, hlower⟩ := hpress hmoves
    split
    next hw => cases hfullscreen.symm.trans hw
    next hl => exact hpanel _ (hupper _ hl)
    next => exact h.activateWindow hlocked _
    next hnone hwindow hl => exact hpanel _ (hlower _ hnone hwindow hl)
    next => exact h
  next => exact h

theorem onPointerPress (h : Sealed s) (hlocked : s.locked = true) {under : Under}
    {touchGrabbed : Bool} (hpress : s.HarmlessPress under touchGrabbed) (drag : Option Nat)
    (serial : Serial) (sameClient : Bool) :
    Sealed (s.onPointerPress under drag serial sameClient touchGrabbed) := by
  unfold Seat.onPointerPress
  rw [hlocked, Bool.true_or, if_pos rfl]
  exact (h.updateKeyboardFocus hlocked hpress).pointerPress serial sameClient

end Sealed

end Seat

end MindOS.Lock
