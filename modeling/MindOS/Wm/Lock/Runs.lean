import MindOS.Wm.Lock.Popups

/-!
# Runs of a locked session

Locking leaves the keyboard with nobody, unless a grab keeps it. From there every event
keeps it with the lock screen that goes past none of the checks of the lock, and so does
every run of such events.
-/

namespace MindOS.Lock

open Transition

namespace Seat

variable {s t : Seat} {g : PopupGrab}

/-! ## The session locks -/

/-- A grab that a change of the focus goes through. -/
def grabHolds (s : Seat) (g : KeyboardGrab) : Bool :=
  g.startFocus.all s.targetAlive &&
  match g with
  | .popup g => !s.hasEnded g
  | .xwayland x _ => s.xgrab x = some true
  | .inputMethod => true

/-- The grab that is on when the session locks leaves the keyboard with the lock screen, and
so does the pointer when it gives the keyboard back. -/
def LocksClean (s : Seat) : Prop :=
  ∀ k g, s.grab = some (k, g) → s.grabHolds g = true →
    s.HarmlessGrab g ∧ (∀ p, g = .popup p → ∀ x, s.focus = some x → s.ofLockScreen x = true) ∧
    ∀ k' p, s.pointerGrab = some (k', .popup p) →
      hasGrabOf (some k) p.serial p.previousSerial = true → s.ofLockScreen p.root = true

/-- Without a grab that holds nothing has the keyboard once the focus is taken away. -/
theorem setFocus_none_of_not_holds (h : ∀ k g, s.grab = some (k, g) → s.grabHolds g = false) :
    s.setFocus none = { s with focus := none, grab := none } := by
  unfold setFocus discardDeadGrab
  cases hg : s.grab with
  | none => simp [hg]
  | some kg =>
      obtain ⟨k, g⟩ := kg
      have hholds := h k g hg
      unfold grabHolds at hholds
      by_cases halive : g.startFocus.all s.targetAlive = true
      · rw [halive, Bool.true_and] at hholds
        cases g with
        | popup g => simp_all
        | xwayland x w => simp_all
        | inputMethod => cases hholds
      · simp [halive]

theorem setFocus_none_popup {k : Serial} (hg : s.grab = some (k, .popup g))
    (hholds : s.grabHolds (.popup g) = true) : s.setFocus none = s := by
  rw [grabHolds, Bool.and_eq_true, Bool.not_eq_true'] at hholds
  have hdead : s.discardDeadGrab = s := by simp [discardDeadGrab, hg, hholds.1]
  simp [setFocus, hdead, hg, hholds.2]

theorem setFocus_none_inputMethod {k : Serial} (hg : s.grab = some (k, .inputMethod)) :
    s.setFocus none = { s with focus := none } := by
  have hdead : s.discardDeadGrab = s := by simp [discardDeadGrab, hg, KeyboardGrab.startFocus]
  simp [setFocus, hdead, hg]

theorem setFocus_of_noGrab (hg : s.grab = none) (focus : Option KeyboardFocusTarget) :
    s.setFocus focus = { s with focus := focus } := by
  simp [setFocus, discardDeadGrab, hg]

/-- The pointer gives the keyboard back to nothing but the lock screen. -/
theorem Sealed.releasePointer (h : Sealed { s with pointerGrab := none })
    (hpointer : ∀ k p, s.pointerGrab = some (k, .popup p) →
      hasGrabOf (s.grab.map Prod.fst) p.serial p.previousSerial = true →
      s.ofLockScreen p.root = true) : Sealed s.unsetPointerGrab := by
  unfold Seat.unsetPointerGrab Seat.unsetHandler
  split
  next k p hp =>
    unfold Seat.unsetKeyboardGrab
    split
    next hgrab =>
      rw [setFocus_of_noGrab rfl]
      refine h.keyboard (fun x hx => ?_) fun _ _ hg => (nomatch hg)
      rw [← Option.some.inj hx, ((Frame.refl s).pointer none).ofLockScreen]
      exact hpointer k p hp hgrab
    next => exact h
  next => exact h

theorem LocksClean.sealed (h : s.LocksClean) (hsent : s.sent = []) :
    Sealed (s.setFocus none).unsetPointerGrab := by
  have hquiet : ∀ focus grab,
      (∀ x, focus = some x → s.ofLockScreen x = true) →
      (∀ k g, grab = some (k, g) → s.HarmlessGrab g) →
      Sealed { s with focus := focus, grab := grab, pointerGrab := none } := by
    intro focus grab hfocus hgrab
    refine ((Frame.keyboard s focus grab s.sent).pointer none).sealed hfocus hgrab
      (fun _ _ hg => (nomatch hg)) fun x hx => ?_
    rw [hsent] at hx
    cases hx
  have hnone : ∀ x, (none : Option KeyboardFocusTarget) = some x → s.ofLockScreen x = true :=
    fun _ hx => (nomatch hx)
  by_cases hholds : ∃ k g, s.grab = some (k, g) ∧ s.grabHolds g = true
  · obtain ⟨k, g, hg, hholds⟩ := hholds
    obtain ⟨hharmless, hfocus, hpointer⟩ := h k g hg hholds
    have hgrab : ∀ k' g', s.grab = some (k', g') → s.HarmlessGrab g' := by
      intro k' g' hg'
      cases hg.symm.trans hg'
      exact hharmless
    cases g with
    | popup g =>
        rw [setFocus_none_popup hg hholds]
        refine (hquiet s.focus s.grab (hfocus g rfl) hgrab).releasePointer fun k' p hp hp' => ?_
        exact hpointer k' p hp (by simpa [hg] using hp')
    | xwayland x w => exact hharmless.elim
    | inputMethod =>
        rw [setFocus_none_inputMethod hg]
        refine (hquiet none s.grab hnone hgrab).releasePointer fun k' p hp hp' => ?_
        rw [(Frame.keyboard s none s.grab s.sent).ofLockScreen]
        exact hpointer k' p hp (by simpa [hg] using hp')
  · have hfree : ∀ k g, s.grab = some (k, g) → s.grabHolds g = false := by
      intro k g hg
      exact Bool.eq_false_iff.mpr fun hg' => hholds ⟨k, g, hg, hg'⟩
    rw [setFocus_none_of_not_holds hfree]
    refine (hquiet none none hnone fun _ _ hg => (nomatch hg)).releasePointer fun k' p _ hp' => ?_
    simp [hasGrabOf] at hp'

theorem Grows.fields (s : Seat) (locked : Bool) (sent : List KeyboardFocusTarget) :
    Grows s { s with locked := locked, sent := sent } :=
  Grows.ofPopups rfl le_rfl (fun _ _ hy => hy) (fun _ hp => hp) fun _ _ halive => halive

theorem LocksClean.ofFields (h : s.LocksClean) (locked : Bool) (sent : List KeyboardFocusTarget) :
    LocksClean { s with locked := locked, sent := sent } := by
  have hgrows := Grows.fields s locked sent
  intro k g hg hholds
  obtain ⟨hharmless, hfocus, hpointer⟩ := h k g hg hholds
  refine ⟨?_, fun p hp x hx => hgrows.ofLockScreen (hfocus p hp x hx),
    fun k' p hp hp' => hgrows.ofLockScreen (hpointer k' p hp hp')⟩
  cases g with
  | popup g =>
      exact ⟨hgrows.ofLockScreen hharmless.1,
        fun p hp halive => hgrows.ofLockScreen (hharmless.2 p hp halive)⟩
  | xwayland x w => exact hharmless
  | inputMethod => trivial

/-! ## Windows and the grabs of other parties -/

theorem Frame.windows (s : Seat) (ws : Windows) : Frame s { s with windows := ws } :=
  ⟨rfl, rfl, rfl, fun _ => rfl, fun _ h => h⟩

theorem Sealed.windows (h : Sealed s) (ws : Windows) : Sealed { s with windows := ws } :=
  (Frame.windows s ws).sealed h.focus h.grab h.pointer h.sent

theorem Frame.xgrab (s : Seat) (xgrab : Nat → Option Bool) : Frame s { s with xgrab := xgrab } :=
  ⟨rfl, rfl, rfl, fun _ => rfl, fun _ h => h⟩

theorem Sealed.xgrab (h : Sealed s) (xgrab : Nat → Option Bool) :
    Sealed { s with xgrab := xgrab } :=
  (Frame.xgrab s xgrab).sealed h.focus h.grab h.pointer h.sent

theorem Frame.xwaylandGrab (s : Seat) (x w : Nat) (serial : Serial) :
    Frame s (s.xwaylandGrab x w serial) := by
  unfold Seat.xwaylandGrab
  dsimp only
  split
  · exact ⟨rfl, rfl, rfl, fun _ => rfl, fun _ h => h⟩
  · exact Frame.xgrab s _

/-- An X11 client asks for the keyboard for a window that is not mapped. -/
theorem Sealed.xwaylandGrab (h : Sealed s) {w : Nat} (hw : s.windows.elements.contains w = false)
    (x : Nat) (serial : Serial) : Sealed (s.xwaylandGrab x w serial) := by
  unfold Seat.xwaylandGrab
  dsimp only
  rw [hw, if_neg Bool.false_ne_true]
  exact h.xgrab _

theorem Frame.inputMethod (s : Seat) (inputMethodGrab : Bool)
    (grab : Option (Serial × KeyboardGrab)) :
    Frame s { s with inputMethodGrab := inputMethodGrab, grab := grab } :=
  ⟨rfl, rfl, rfl, fun _ => rfl, fun _ h => h⟩

theorem Sealed.inputMethod (h : Sealed s) {inputMethodGrab : Bool}
    {grab : Option (Serial × KeyboardGrab)} (hgrab : ∀ k g, grab = some (k, g) → s.HarmlessGrab g) :
    Sealed { s with inputMethodGrab := inputMethodGrab, grab := grab } :=
  (Frame.inputMethod s inputMethodGrab grab).sealed h.focus hgrab h.pointer h.sent

/-! ## Every step -/

/-- A step past none of the checks of the lock: the session does not lock under a grab of a
client, and while it is locked no popup of a client is granted a grab, no X11 client takes
the keyboard, and no press falls on a fullscreen window or a panel that may have it. -/
def Guarded (s : Seat) : Event → Prop
  | .lock => s.locked = false → s.LocksClean
  | .popupGrab p serial =>
      s.locked = true → s.grantsPopup p serial = true → s.ofLockScreen (.popup p) = true
  | .xwaylandGrab _ w _ => s.locked = true → s.windows.elements.contains w = false
  | .press under _ _ _ touchGrabbed => s.locked = true → s.HarmlessPress under touchGrabbed
  | .tap under touchGrabbed => s.locked = true → s.HarmlessPress under touchGrabbed
  | _ => True

theorem grantsPopup_sent (s : Seat) (sent : List KeyboardFocusTarget) (p : Nat) (serial : Serial) :
    grantsPopup { s with sent := sent } p serial = s.grantsPopup p serial := by
  have hroot : popupRoot { s with sent := sent } p = s.popupRoot p := by
    rw [popupRoot, popupRoot, (Frame.keyboard s s.focus s.grab sent).rootOf]
  have hgrab : ∀ popup root, (grabPopup { s with sent := sent } p popup root serial).2 =
      (s.grabPopup p popup root serial).2 := by
    intro popup root
    unfold grabPopup
    split
    · rfl
    · cases popup.parent with
      | none => rfl
      | some parent =>
          have htop : grabbedPopup (cleanupPopups { s with sent := sent }) =
              s.cleanupPopups.grabbedPopup := rfl
          dsimp only
          rw [htop]
          cases s.cleanupPopups.grabbedPopup with
          | none => rfl
          | some top =>
              dsimp only
              split <;> rfl
  unfold grantsPopup
  rw [hroot]
  cases s.popup p with
  | none => rfl
  | some popup =>
      cases s.popupRoot p with
      | none => rfl
      | some root => exact congrArg (Option.any _) (hgrab popup root)

theorem Guarded.quiet {e : Event} (h : s.Guarded e) : Guarded { s with sent := [] } e := by
  cases e with
  | lock => exact fun hl => (h hl).ofFields s.locked []
  | popupGrab p serial =>
      intro hl hgrants
      rw [grantsPopup_sent] at hgrants
      exact ((Frame.keyboard s s.focus s.grab []).ofLockScreen _).trans (h hl hgrants)
  | _ => exact h

theorem adoptPopup_eq (s : Seat) (p l : Nat) :
    s.adoptPopup p l = { s with popup := (s.adoptPopup p l).popup } := by
  unfold adoptPopup
  split
  · rfl
  · split <;> rfl

theorem commitPopup_eq (s : Seat) (p : Nat) :
    s.commitPopup p = { s with popup := (s.commitPopup p).popup } := by
  unfold commitPopup
  split <;> rfl

theorem destroyPopup_eq (s : Seat) (p : Nat) :
    s.destroyPopup p = { s with popup := (s.destroyPopup p).popup } := by
  unfold destroyPopup
  split <;> rfl

/-- What holds in every state of a run. -/
structure Inv (s : Seat) : Prop where
  chained : Chained s
  isSealed : s.locked = true → Sealed s

/-- What a step keeps. -/
structure Kept (s t : Seat) : Prop where
  inv : Inv t
  locked : s.locked = true → t.locked = true ∨ t.sent = s.sent

namespace Inv

theorem ofFrame (h : Inv s) (hframe : Frame s t)
    (hsealed : s.locked = true → Sealed s → Sealed t) : Kept s t := by
  refine ⟨⟨hframe.chained h.chained, fun hlocked => ?_⟩, fun hl => .inl (hframe.locked.trans hl)⟩
  have hlocked' : s.locked = true := hframe.locked ▸ hlocked
  exact hsealed hlocked' (h.isSealed hlocked')

theorem ofGrows (h : Inv s) (hgrows : Grows s t) (hlocked : t.locked = s.locked)
    (hactive : t.popupGrabs = s.popupGrabs) (hfocus : t.focus = s.focus) (hgrab : t.grab = s.grab)
    (hpointer : t.pointerGrab = s.pointerGrab) (hsent : t.sent = s.sent) : Kept s t := by
  refine ⟨⟨hgrows.chained h.chained (by rw [hactive]; exact fun _ hp => hp), fun hl => ?_⟩,
    fun _ => .inr hsent⟩
  refine hgrows.sealed (h.isSealed (hlocked ▸ hl)) hfocus hgrab hpointer hsent fun hpopups => ?_
  intro p hp halive
  rw [hactive] at hp
  exact hgrows.ofLockScreen (hpopups p hp (hgrows.alive p (h.chained.listed p hp) halive))

theorem ofPopup (h : Inv s) {f : Nat → Option Popup} (hgrows : Grows s t)
    (ht : t = { s with popup := f }) : Kept s t := by
  subst ht
  exact h.ofGrows hgrows rfl rfl rfl rfl rfl rfl

theorem lock (h : Inv s) (hsent : s.sent = []) (hclean : s.locked = false → s.LocksClean) :
    Kept s (s.setLocked true) := by
  unfold Seat.setLocked
  split
  next hlocked => exact ⟨h, fun _ => .inl hlocked⟩
  next hne =>
    have hlocked : s.locked = false := Bool.eq_false_iff.mpr hne
    have hclean' : LocksClean { s with locked := true } := (hclean hlocked).ofFields true s.sent
    have hactive : Frame { s with locked := true }
        ({ s with locked := true }.setFocus none).unsetPointerGrab :=
      (Frame.setFocus _ none).trans (Frame.unsetPointerGrab _)
    refine ⟨⟨hactive.chained ?_, fun _ => hclean'.sealed hsent⟩, fun hl => absurd hl hne⟩
    exact (Grows.fields s true s.sent).chained h.chained fun _ hp => hp

theorem unlock (h : Inv s) : Kept s (s.setLocked false) := by
  unfold Seat.setLocked
  split
  next hlocked => exact ⟨h, fun hl => .inl hl⟩
  next hne =>
    refine ⟨⟨?_, fun hl => nomatch hl⟩, fun _ => .inr rfl⟩
    exact (Grows.fields s false s.sent).chained h.chained fun _ hp => hp

theorem apply (h : Inv s) (hsent : s.sent = []) {e : Event} (he : s.Guarded e)
    (hstep : s.apply e = some t) : Kept s t := by
  cases e with
  | lock =>
      cases hstep
      exact h.lock hsent he
  | unlock =>
      cases hstep
      exact h.unlock
  | turn =>
      cases hstep
      exact h.ofFrame ((Frame.refreshFocus s).trans (Frame.cleanupPopups _))
        fun hl hs => (hs.refreshFocus hl).cleanupPopups
  | key forward =>
      cases hstep
      exact h.ofFrame (Frame.keyboardKey s forward) fun hl hs => hs.keyboardKey hl forward
  | releaseKeys n =>
      cases hstep
      exact h.ofFrame (Frame.releaseAllKeys s n) fun _ hs => hs.releaseAllKeys n
  | virtualKey =>
      cases hstep
      exact h.ofFrame (Frame.send s) fun _ hs => hs.send
  | press under drag serial sameClient touchGrabbed =>
      cases hstep
      exact h.ofFrame (Frame.onPointerPress s under drag serial sameClient touchGrabbed)
        fun hl hs => hs.onPointerPress hl (he hl) drag serial sameClient
  | tap under touchGrabbed =>
      cases hstep
      exact h.ofFrame (Frame.updateKeyboardFocus s under touchGrabbed)
        fun hl hs => hs.updateKeyboardFocus hl (he hl)
  | motion =>
      cases hstep
      exact h.ofFrame (Frame.pointerMotion s) fun _ hs => hs.pointerMotion
  | pointerGrab serial =>
      cases hstep
      exact h.ofFrame (Frame.setPointerGrab s serial .other)
        fun _ hs => hs.setPointerGrab_other serial
  | pointerRelease =>
      cases hstep
      exact h.ofFrame (Frame.unsetPointerGrab s) fun _ hs => hs.unsetPointerGrab
  | windows ws =>
      cases hstep
      exact h.ofFrame (Frame.windows s ws) fun _ hs => hs.windows ws
  | hide ws =>
      cases hstep
      exact h.ofFrame ((Frame.windows s ws).trans (Frame.refreshFocus _))
        fun hl hs => (hs.windows ws).refreshFocus hl
  | mapWindow w mayInterrupt =>
      cases hstep
      exact h.ofFrame (Frame.focusNewWindow s w mayInterrupt)
        fun hl hs => hs.focusNewWindow hl w mayInterrupt
  | activate w =>
      cases hstep
      exact h.ofFrame (Frame.activateWindow s w) fun hl hs => hs.activateWindow hl w
  | newLayer l nameSpace =>
      obtain ⟨hl, ⟨⟩⟩ := Option.ite_none_left_eq_some.mp hstep
      exact h.ofGrows (Grows.newLayer (Option.not_isSome_iff_eq_none.mp hl) nameSpace)
        rfl rfl rfl rfl rfl rfl
  | commitLayer l output layer interactivity mapped =>
      cases hstep
      exact h.ofFrame (Frame.commitLayer s l output layer interactivity mapped)
        fun hl hs => hs.commitLayer hl l output layer interactivity mapped
  | destroyLayer l =>
      cases hstep
      exact h.ofFrame (Frame.destroyLayer s l) fun _ hs => hs.destroyLayer l
  | newPopup p parent =>
      obtain ⟨hp, ⟨⟩⟩ := Option.ite_none_left_eq_some.mp hstep
      exact h.ofGrows (Grows.newPopup (Option.not_isSome_iff_eq_none.mp hp) parent)
        rfl rfl rfl rfl rfl rfl
  | adoptPopup p l =>
      cases hstep
      exact h.ofPopup (Grows.adoptPopup s p l) (s.adoptPopup_eq p l)
  | commitPopup p =>
      cases hstep
      exact h.ofPopup (Grows.commitPopup s p) (s.commitPopup_eq p)
  | destroyPopup p =>
      cases hstep
      exact h.ofPopup (Grows.destroyPopup s p) (s.destroyPopup_eq p)
  | popupGrab p serial =>
      obtain ⟨-, ⟨⟩⟩ := Option.ite_none_right_eq_some.mp hstep
      exact ⟨⟨h.chained.popupGrab p serial, fun hl =>
        (h.isSealed (s.locked_popupGrab p serial ▸ hl)).popupGrab h.chained
          (he (s.locked_popupGrab p serial ▸ hl))⟩,
        fun hl => .inl ((s.locked_popupGrab p serial).trans hl)⟩
  | xwaylandGrab x w serial =>
      obtain ⟨-, ⟨⟩⟩ := Option.ite_none_left_eq_some.mp hstep
      exact h.ofFrame (Frame.xwaylandGrab s x w serial)
        fun hl hs => hs.xwaylandGrab (he hl) x serial
  | xwaylandRelease x =>
      cases hstep
      exact h.ofFrame (Frame.xgrab s _) fun _ hs => hs.xgrab _
  | inputMethodGrab serial =>
      cases hstep
      exact h.ofFrame (Frame.inputMethod s _ _) fun _ hs => hs.inputMethod fun k g hg => by
        cases hg
        trivial
  | inputMethodRelease =>
      cases hstep
      exact h.ofFrame (Frame.inputMethod s _ _) fun _ hs => hs.inputMethod fun _ _ hg => nomatch hg

end Inv

theorem Inv.step (h : Inv s) {e : Event} (he : s.Guarded e) (hstep : s.step e = some t) :
    Kept { s with sent := [] } t := by
  have hframe : Frame s { s with sent := [] } := Frame.keyboard s s.focus s.grab []
  have hquiet : Kept s { s with sent := [] } :=
    h.ofFrame hframe fun _ hs =>
      hframe.sealed hs.focus hs.grab hs.pointer fun _ hx => (nomatch hx)
  exact hquiet.inv.apply rfl he.quiet hstep

theorem Inv.start (windows : Windows) : Inv { windows := windows } := by
  refine ⟨⟨fun _ hp => (nomatch hp), .window 0, fun _ hp => (nomatch hp)⟩, fun hl => ?_⟩
  cases hl

/-- In every run whose steps go past none of the checks of the lock, the keys that are
forwarded while the session is locked go to the lock screen. -/
theorem locked_keys_to_lock_screen (windows : Windows) (es : List Event)
    (h : Along step (fun s e _ => s.Guarded e) { windows := windows } es) :
    Along step (fun s _ t => s.locked = true → ∀ x ∈ t.sent, t.ofLockScreen x = true)
      { windows := windows } es := by
  refine Along.imp Inv ?_ ?_ (Inv.start windows) h
  · intro s e t hs hstep he
    exact (hs.step he hstep).inv
  · intro s e t hs hstep he hl x hx
    have hkept := hs.step he hstep
    rcases hkept.locked hl with hlocked | hsent
    · exact (hkept.inv.isSealed hlocked).sent x hx
    · rw [hsent] at hx
      cases hx

/-- The lock screen is typed at, behind it a window asks for the keyboard. -/
theorem locked_keys_to_lock_screen_typing :
    Along step (fun s _ t => s.locked = true → ∀ x ∈ t.sent, t.ofLockScreen x = true)
      { windows := { elements := [1] } }
      [.mapWindow 1 true, .newLayer 7 lockNamespace, .lock,
        .commitLayer 7 (some 0) .overlay .exclusive true, .turn, .activate 1, .key true] := by
  refine locked_keys_to_lock_screen _ _ ?_
  refine Along.cons rfl trivial ?_
  refine Along.cons rfl trivial ?_
  refine Along.cons rfl (fun _ k g hg => nomatch hg) ?_
  refine Along.cons rfl trivial ?_
  refine Along.cons rfl trivial ?_
  refine Along.cons rfl trivial ?_
  exact Along.cons rfl trivial trivial

/-- A popup of a client is granted the keyboard behind the lock screen, and gets a key. -/
theorem popup_gets_key_while_locked :
    ∃ s t, exec step { windows := { elements := [1] } }
        [.mapWindow 1 true, .newLayer 7 lockNamespace, .lock,
          .commitLayer 7 (some 0) .overlay .exclusive true, .turn, .newPopup 2 (some (.window 1)),
          .popupGrab 2 10, .turn] = some s ∧
      s.locked = true ∧ s.step (.key true) = some t ∧ t.sent = [.popup 2] ∧
      t.ofLockScreen (.popup 2) = false := by
  exact ⟨_, _, rfl, rfl, rfl, rfl, rfl⟩

end Seat

end MindOS.Lock
