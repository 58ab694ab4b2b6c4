import MindOS.Wm.Lock.Isolation

/-!
# Popups behind the lock screen

The popups with a grab are a chain: each is a child of the one below it, so that they
all belong to one window or panel. A popup of the lock screen that is granted a grab
therefore leaves no popup of a client with one.
-/

namespace MindOS.Lock

namespace Seat

variable {s t : Seat}

/-! ## Surfaces that come and go -/

/-- What a target belongs to stays; no popup comes back. -/
structure Grows (s t : Seat) : Prop where
  root : ∀ x r, s.rootOf x = some r → t.rootOf x = some r
  layer : ∀ l, s.ofLockScreen (.layerSurface l) = true → t.ofLockScreen (.layerSurface l) = true
  listed : ∀ p, (s.popup p).isSome → (t.popup p).isSome
  alive : ∀ p, (s.popup p).isSome → t.popupAlive p = true → s.popupAlive p = true

theorem Frame.grows (h : Frame s t) : Grows s t := by
  refine ⟨fun x r hr => (h.rootOf x).trans hr, fun l hl => (h.ofLockScreen _).trans hl,
    fun p hp => ?_, fun p _ halive => ?_⟩
  · rw [h.popup]
    exact hp
  · rw [← h.popupAlive]
    exact halive

/-- More popups, and more parents of them, leave what a target belongs to. -/
theorem rootWithin_mono
    (hparent : ∀ p y, (s.popup p).bind Popup.parent = some y →
      (t.popup p).bind Popup.parent = some y) {n m : Nat} (hle : n ≤ m)
    {x r : KeyboardFocusTarget} (hr : s.rootWithin n x = some r) : t.rootWithin m x = some r := by
  induction n generalizing m x with
  | zero => cases hr
  | succ n ih =>
      cases m with
      | zero => cases hle
      | succ m =>
          cases x with
          | window w => exact hr
          | layerSurface l => exact hr
          | popup p =>
              obtain ⟨y, hy, hr⟩ := Option.bind_eq_some_iff.mp hr
              have hr' := ih (Nat.le_of_succ_le_succ hle) hr
              exact Option.bind_eq_some_iff.mpr ⟨y, hparent p y hy, hr'⟩

namespace Grows

theorem ofPopups (hlayer : t.layer = s.layer) (hle : s.popups ≤ t.popups)
    (hparent : ∀ p y, (s.popup p).bind Popup.parent = some y →
      (t.popup p).bind Popup.parent = some y)
    (hlisted : ∀ p, (s.popup p).isSome → (t.popup p).isSome)
    (halive : ∀ p, (s.popup p).isSome → t.popupAlive p = true → s.popupAlive p = true) :
    Grows s t := by
  refine ⟨fun x r hr => rootWithin_mono hparent (Nat.succ_le_succ hle) hr, fun l hl => ?_,
    hlisted, halive⟩
  rw [ofLockScreen_layerSurface, hlayer]
  exact hl

/-- A popup that is there changes, but keeps its parent and does not come back. -/
theorem updatePopup {p : Nat} {popup : Popup} (popup' : Popup) (hp : s.popup p = some popup)
    (hparent : ∀ y, popup.parent = some y → popup'.parent = some y)
    (halive : popup'.alive = true → popup.alive = true) :
    Grows s { s with popup := Function.update s.popup p (some popup') } := by
  refine ofPopups rfl le_rfl ?_ ?_ ?_
  · intro q y hy
    by_cases hq : q = p
    · subst hq
      simpa using hparent y (by simpa [hp] using hy)
    · simpa [Function.update_of_ne hq] using hy
  · intro q hsome
    by_cases hq : q = p
    · subst hq
      simp
    · simpa [Function.update_of_ne hq] using hsome
  · intro q _ hq'
    by_cases hq : q = p
    · subst hq
      simp only [popupAlive, Function.update_self, Option.any_some] at hq'
      simpa [popupAlive, hp] using halive hq'
    · simpa [popupAlive, Function.update_of_ne hq] using hq'

theorem newPopup {p : Nat} (hp : s.popup p = none) (parent : Option KeyboardFocusTarget) :
    Grows s (s.newPopup p parent) := by
  have hne : ∀ q, (s.popup q).isSome → q ≠ p := by
    rintro q hq rfl
    simp [hp] at hq
  refine ofPopups rfl (Nat.le_succ _) ?_ ?_ ?_
  · intro q y hy
    have hq : q ≠ p := by
      rintro rfl
      simp [hp] at hy
    simpa [Seat.newPopup, Function.update_of_ne hq] using hy
  · intro q hq
    simpa [Seat.newPopup, Function.update_of_ne (hne q hq)] using hq
  · intro q hq halive
    simpa [popupAlive, Seat.newPopup, Function.update_of_ne (hne q hq)] using halive

theorem adoptPopup (s : Seat) (p l : Nat) : Grows s (s.adoptPopup p l) := by
  unfold Seat.adoptPopup
  split
  · exact (Frame.refl s).grows
  next popup hp =>
    split
    · exact (Frame.refl s).grows
    next hnone =>
      refine updatePopup { popup with parent := some (.layerSurface l) } hp (fun y hy => ?_) id
      simp [hy] at hnone

theorem commitPopup (s : Seat) (p : Nat) : Grows s (s.commitPopup p) := by
  unfold Seat.commitPopup
  split
  · exact (Frame.refl s).grows
  next popup hp => exact updatePopup { popup with committed := true } hp (fun _ hy => hy) id

theorem destroyPopup (s : Seat) (p : Nat) : Grows s (s.destroyPopup p) := by
  unfold Seat.destroyPopup
  split
  · exact (Frame.refl s).grows
  next popup hp =>
    exact updatePopup { popup with alive := false } hp (fun _ hy => hy) fun h => nomatch h

theorem newLayer {l : Nat} (hl : s.layer l = none) (nameSpace : Text) :
    Grows s (s.newLayer l nameSpace) := by
  refine ⟨fun x r hr => ?_, fun k hk => ?_, fun p hp => hp, fun p _ halive => halive⟩
  · exact rootWithin_mono (s := s) (t := s.newLayer l nameSpace) (fun _ _ hy => hy) le_rfl hr
  · rw [ofLockScreen_layerSurface] at hk ⊢
    have hne : k ≠ l := by
      rintro rfl
      simp [hl] at hk
    simpa [Seat.newLayer, Function.update_of_ne hne] using hk

theorem ofLockScreen (h : Grows s t) {x : KeyboardFocusTarget} (hx : s.ofLockScreen x = true) :
    t.ofLockScreen x = true := by
  unfold Seat.ofLockScreen at hx
  split at hx
  next l hl =>
    unfold Seat.ofLockScreen
    rw [h.root x _ hl]
    exact h.layer l hx
  next => cases hx

end Grows

/-! ## The chain of popups -/

/-- The popups with a grab are known, and those that are still there belong to one
window or panel. -/
structure Chained (s : Seat) : Prop where
  listed : ∀ p ∈ s.popupGrabs.active, (s.popup p).isSome
  root : ∃ r, ∀ p ∈ s.popupGrabs.active, s.popupAlive p = true → s.rootOf (.popup p) = some r

theorem Grows.chained (h : Grows s t) (hs : Chained s)
    (hactive : t.popupGrabs.active ⊆ s.popupGrabs.active) : Chained t := by
  obtain ⟨r, hr⟩ := hs.root
  refine ⟨fun p hp => h.listed p (hs.listed p (hactive hp)), r, fun p hp halive => ?_⟩
  have hp' := hactive hp
  exact h.root _ r (hr p hp' (h.alive p (hs.listed p hp') halive))

theorem Frame.chained (h : Frame s t) (hs : Chained s) : Chained t :=
  h.grows.chained hs h.active

/-! ## A popup asks for a grab -/

/-- The popup is granted the keyboard. -/
def grantsPopup (s : Seat) (p : Nat) (serial : Serial) : Bool :=
  match s.popup p, s.popupRoot p with
  | some popup, some root =>
      (s.grabPopup p popup root serial).2.any fun g =>
        s.grab.isNone || hasGrabOf (s.grab.map Prod.fst) g.serial g.previousSerial
  | _, _ => false

theorem rootOf_of_popupRoot {p : Nat} {root : KeyboardFocusTarget} (h : s.popupRoot p = some root) :
    s.rootOf (.popup p) = some root ∧ s.ofLockScreen root = s.ofLockScreen (.popup p) := by
  have hroot : s.rootOf (.popup p) = some root ∧ s.rootOf root = some root := by
    unfold popupRoot at h
    split at h
    next w hw =>
      split at h
      · cases h
        exact ⟨hw, rfl⟩
      · cases h
    next l hl =>
      split at h
      · cases h
        exact ⟨hl, rfl⟩
      · cases h
    next => cases h
  refine ⟨hroot.1, ?_⟩
  rw [Seat.ofLockScreen, Seat.ofLockScreen, hroot.1, hroot.2]

theorem Chained.appendGrab (h : Chained s) {p : Nat} {popup : Popup} (hp : s.popup p = some popup)
    {root : KeyboardFocusTarget} (hroot : s.rootOf (.popup p) = some root)
    (htop : ∀ q, s.grabbedPopup = some q → popup.parent = some (.popup q))
    (halive : ∀ q ∈ s.popupGrabs.active, s.popupAlive q = true) (serial : Serial) :
    ∀ q ∈ (s.appendGrab p root serial).1.popupGrabs.active, s.rootOf (.popup q) = some root := by
  intro q hq
  rcases List.mem_append.mp hq with hq | hq
  · have hsome : s.grabbedPopup.isSome :=
      List.find?_isSome.mpr ⟨q, List.mem_reverse.mpr hq, halive q hq⟩
    obtain ⟨top, htop'⟩ := Option.isSome_iff_exists.mp hsome
    have hmem : top ∈ s.popupGrabs.active := List.mem_reverse.mp (List.mem_of_find?_eq_some htop')
    obtain ⟨r, hr⟩ := h.root
    -- the new popup is a child of the topmost one
    have hchild : s.rootWithin s.popups (.popup top) = some root := by
      simpa [rootOf, rootWithin, hp, htop top htop'] using hroot
    have htopRoot : s.rootOf (.popup top) = some root :=
      rootWithin_mono (fun _ _ hy => hy) (Nat.le_succ _) hchild
    have hrr : r = root := Option.some.inj ((hr top hmem (halive top hmem)).symm.trans htopRoot)
    exact hrr ▸ hr q hq (halive q hq)
  · rw [List.mem_singleton.mp hq]
    exact hroot

/-- A popup is turned down, or joins the others above the topmost one. -/
theorem grabPopup_cases (s : Seat) (p : Nat) (popup : Popup) (root : KeyboardFocusTarget)
    (serial : Serial) :
    s.grabPopup p popup root serial = (s, none) ∨
    s.grabPopup p popup root serial = (s.cleanupPopups, none) ∨
    (∀ q, s.cleanupPopups.grabbedPopup = some q → popup.parent = some (.popup q)) ∧
      s.grabPopup p popup root serial = s.cleanupPopups.appendGrab p root serial := by
  unfold grabPopup
  split
  · exact .inl rfl
  · split
    · exact .inl rfl
    next parent hparent =>
      dsimp only
      split
      next hnone =>
        refine .inr (.inr ⟨fun q hq => ?_, rfl⟩)
        cases hnone.symm.trans hq
      next top htop =>
        split
        next heq =>
          refine .inr (.inr ⟨fun q hq => ?_, rfl⟩)
          rw [hparent, heq, Option.some.inj (htop.symm.trans hq)]
        next => exact .inr (.inl rfl)

/-- What comes of a request for a grab: nothing, dead popups are forgotten, or the popup
joins the others and its grab is taken. -/
theorem popupGrab_cases (s : Seat) (p : Nat) (serial : Serial) :
    s.popupGrab p serial = s ∨ s.popupGrab p serial = s.cleanupPopups ∨
    ∃ popup root, s.popup p = some popup ∧ s.popupRoot p = some root ∧
      (∀ q, s.cleanupPopups.grabbedPopup = some q → popup.parent = some (.popup q)) ∧
      s.grantsPopup p serial =
        (s.grab.isNone || hasGrabOf (s.grab.map Prod.fst) serial s.popupGrabs.serial) ∧
      s.popupGrab p serial =
        (s.cleanupPopups.appendGrab p root serial).1.takeGrab
          ⟨root, serial, s.popupGrabs.serial⟩ := by
  unfold popupGrab grantsPopup
  cases hp : s.popup p with
  | none => exact .inl rfl
  | some popup =>
      cases hroot : s.popupRoot p with
      | none => exact .inl rfl
      | some root =>
          dsimp only
          obtain h | h | ⟨htop, h⟩ := s.grabPopup_cases p popup root serial
          · rw [h]
            exact .inl rfl
          · rw [h]
            exact .inr (.inl rfl)
          · rw [h]
            exact .inr (.inr ⟨popup, root, rfl, rfl, htop, rfl, rfl⟩)

/-- The popups with a grab and the new one are all of its window or panel. -/
theorem Chained.granted (h : Chained s) {p : Nat} {popup : Popup} (hp : s.popup p = some popup)
    {root : KeyboardFocusTarget} (hroot : s.popupRoot p = some root)
    (htop : ∀ q, s.cleanupPopups.grabbedPopup = some q → popup.parent = some (.popup q))
    (serial : Serial) :
    ∀ q ∈ (s.cleanupPopups.appendGrab p root serial).1.popupGrabs.active,
      (s.popup q).isSome ∧ s.rootOf (.popup q) = some root := by
  intro q hq
  have hframe := Frame.cleanupPopups s
  have halive : ∀ q ∈ s.cleanupPopups.popupGrabs.active, s.cleanupPopups.popupAlive q = true := by
    intro q hq
    rw [hframe.popupAlive]
    exact (List.mem_filter.mp hq).2
  constructor
  · rcases List.mem_append.mp hq with hq | hq
    · exact h.listed q (hframe.active hq)
    · simp [List.mem_singleton.mp hq, hp]
  · rw [← hframe.rootOf]
    refine (hframe.chained h).appendGrab ?_ ?_ htop halive serial q hq
    · rw [hframe.popup, hp]
    · rw [hframe.rootOf]
      exact (rootOf_of_popupRoot hroot).1

theorem Grows.appendGrab (s : Seat) (p : Nat) (root : KeyboardFocusTarget) (serial : Serial) :
    Grows s (s.cleanupPopups.appendGrab p root serial).1 :=
  Grows.ofPopups rfl le_rfl (fun _ _ hy => hy) (fun _ hp => hp) fun _ _ halive => halive

theorem locked_popupGrab (s : Seat) (p : Nat) (serial : Serial) :
    (s.popupGrab p serial).locked = s.locked := by
  obtain h | h | ⟨popup, root, -, -, -, -, h⟩ := s.popupGrab_cases p serial
  · rw [h]
  · rw [h]
    exact (Frame.cleanupPopups s).locked
  · rw [h]
    exact (Frame.takeGrab _ _).locked

theorem Chained.popupGrab (h : Chained s) (p : Nat) (serial : Serial) :
    Chained (s.popupGrab p serial) := by
  obtain heq | heq | ⟨popup, root, hp, hroot, htop, -, heq⟩ := s.popupGrab_cases p serial
  · rw [heq]
    exact h
  · exact heq ▸ (Frame.cleanupPopups s).chained h
  · rw [heq]
    have hgranted := h.granted hp hroot htop serial
    refine (Frame.takeGrab _ _).chained ⟨fun q hq => (hgranted q hq).1, root, fun q hq _ => ?_⟩
    exact (Grows.appendGrab s p root serial).root _ _ (hgranted q hq).2

theorem Grows.sealed (h : Grows s t) (hs : Sealed s) (hfocus : t.focus = s.focus)
    (hgrab : t.grab = s.grab) (hpointer : t.pointerGrab = s.pointerGrab) (hsent : t.sent = s.sent)
    (hpopups : s.PopupsOfLock → t.PopupsOfLock) : Sealed t := by
  refine ⟨fun x hx => ?_, fun k g hg => ?_, fun k g hg => ?_, fun x hx => ?_⟩
  · exact h.ofLockScreen (hs.focus x (hfocus ▸ hx))
  · have hharmless := hs.grab k g (hgrab ▸ hg)
    cases g with
    | popup g => exact ⟨h.ofLockScreen hharmless.1, hpopups hharmless.2⟩
    | xwayland x w => exact hharmless
    | inputMethod => trivial
  · exact h.ofLockScreen (hs.pointer k g (hpointer ▸ hg))
  · exact h.ofLockScreen (hs.sent x (hsent ▸ hx))

/-- A popup that is granted the keyboard is one of the lock screen. -/
theorem Sealed.popupGrab (h : Sealed s) (hs : Chained s) {p : Nat} {serial : Serial}
    (hgrants : s.grantsPopup p serial = true → s.ofLockScreen (.popup p) = true) :
    Sealed (s.popupGrab p serial) := by
  obtain heq | heq | ⟨popup, root, hp, hroot, htop, hgrants', heq⟩ := s.popupGrab_cases p serial
  · rw [heq]
    exact h
  · exact heq ▸ h.cleanupPopups
  rw [heq]
  have hgrows := Grows.appendGrab s p root serial
  have hgranted := hs.granted hp hroot htop serial
  by_cases hgrant : s.grantsPopup p serial = true
  · have hlock : s.ofLockScreen root = true :=
      (rootOf_of_popupRoot hroot).2.trans (hgrants hgrant)
    have hpopups : (s.cleanupPopups.appendGrab p root serial).1.PopupsOfLock := by
      intro q hq _
      refine hgrows.ofLockScreen ?_
      have hq' := (hgranted q hq).2
      rw [Seat.ofLockScreen, hq', ← (rootOf_of_popupRoot hroot).1, ← Seat.ofLockScreen]
      exact hgrants hgrant
    have hsealed := hgrows.sealed h rfl rfl rfl rfl fun _ => hpopups
    exact hsealed.takeGrab ⟨hgrows.ofLockScreen hlock, hpopups⟩
  · -- another grab has the keyboard, and the popups are dismissed
    have hother : ((s.cleanupPopups.appendGrab p root serial).1.grab.isSome &&
        !hasGrabOf ((s.cleanupPopups.appendGrab p root serial).1.grab.map Prod.fst) serial
          s.popupGrabs.serial) = true := by
      rw [hgrants', Bool.not_eq_true, Bool.or_eq_false_iff] at hgrant
      change (s.grab.isSome && !hasGrabOf (s.grab.map Prod.fst) serial s.popupGrabs.serial) = true
      rw [hgrant.2, ← Option.not_isNone, hgrant.1]
      rfl
    unfold Seat.takeGrab
    rw [if_pos hother]
    have hframe : Frame s ((s.cleanupPopups.appendGrab p root serial).1.ungrabAll
        ⟨root, serial, s.popupGrabs.serial⟩) :=
      ⟨rfl, rfl, rfl, fun _ => rfl, List.nil_subset _⟩
    exact hframe.sealed h.focus h.grab h.pointer h.sent

end Seat

end MindOS.Lock
