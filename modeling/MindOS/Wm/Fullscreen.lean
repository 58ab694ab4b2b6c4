import MindOS.Transition

/-!
# The fullscreen slots of the outputs

Whether a window is fullscreen is told to its client with a configure, which the client
acknowledges and takes over with a later commit. Beside that each output has a slot, with
the window that is drawn alone there. The slot is set where a window asks for fullscreen,
is given the keyboard or comes back to the space, and it is cleared where a window leaves
fullscreen, another is given the keyboard or it goes out of the space.

The requests also come from the compositor itself, when the user toggles fullscreen. Every
window can be asked to be fullscreen, and the outputs are the connected ones.
-/

namespace MindOS.Fullscreen

open Transition

/-- A window and an output, by their ids. -/
abbrev Window := Nat

abbrev Output := Nat

/-- What the compositor and the client of a window know of it. -/
structure Toplevel where
  alive : Bool := true
  /-- In the space, not minimised or put away. -/
  mapped : Bool := true
  /-- What the client was told last, or is to be told with the first configure. -/
  pendingFullscreen : Bool := false
  /-- The output it was told to be fullscreen on, if it has bound that. -/
  fullscreenOutput : Option Output := none
  initialConfigureSent : Bool := false
  /-- The configures that the client has not acknowledged, oldest first. -/
  pendingConfigures : List Bool := []
  lastAcked : Option Bool := none
  /-- What the client has taken over. -/
  isFullscreen : Bool := false

namespace Toplevel

/-- Tell the client what is pending. -/
def sendConfigure (t : Toplevel) : Toplevel :=
  { t with
    initialConfigureSent := true
    pendingConfigures := t.pendingConfigures ++ [t.pendingFullscreen] }

def ackConfigure (t : Toplevel) (index : Nat) : Toplevel :=
  match t.pendingConfigures[index]? with
  | some told =>
      { t with lastAcked := some told, pendingConfigures := t.pendingConfigures.drop (index + 1) }
  | none => t

theorem ackConfigure_eq (t : Toplevel) (index : Nat) :
    (t.ackConfigure index).alive = t.alive ∧
      (t.ackConfigure index).pendingFullscreen = t.pendingFullscreen := by
  unfold ackConfigure
  split
  · exact ⟨rfl, rfl⟩
  · exact ⟨rfl, rfl⟩

def commit (t : Toplevel) : Toplevel := { t with isFullscreen := t.lastAcked.getD t.isFullscreen }

end Toplevel

structure Screens where
  toplevel : Window → Toplevel := fun _ => {}
  slot : Output → Option Window := fun _ => none
  /-- The client of the window has bound the output. -/
  binds : Window → Output → Bool := fun _ _ => false

inductive Event where
  | bind (w : Window) (o : Output)
  /-- A request to be fullscreen, on the output that is meant. A game that has the keyboard
  may not be interrupted. -/
  | fullscreen (w : Window) (target : Option Output) (mayInterrupt : Bool)
  | unfullscreen (w : Window)
  /-- A configure for another reason. -/
  | configure (w : Window)
  /-- The client acknowledges a configure, and so those before it. -/
  | ack (w : Window) (index : Nat)
  | commit (w : Window)
  /-- The keyboard goes to a window; the output where it is at home. -/
  | focus (w : Window) (home : Option Output)
  /-- A window is minimised, or put away with its desk. -/
  | takeOut (w : Window)
  /-- A window comes back; the first output that it is on. -/
  | putBack (w : Window) (first : Option Output)
  | closed (w : Window)

namespace Screens

variable {s t : Screens} {w x : Window} {o : Output}

/-- What is drawn alone on an output: a window that is gone is not. -/
def fullscreenOn (s : Screens) (o : Output) : Option Window :=
  (s.slot o).filter fun w => (s.toplevel w).alive

theorem fullscreenOn_eq_some :
    s.fullscreenOn o = some w ↔ s.slot o = some w ∧ (s.toplevel w).alive = true :=
  Option.filter_eq_some_iff

/-- What is drawn alone on an output is to be fullscreen. -/
def SlotsAgree (s : Screens) : Prop :=
  ∀ o w, s.fullscreenOn o = some w → (s.toplevel w).pendingFullscreen = true

theorem SlotsAgree.mono (h : s.SlotsAgree)
    (hslot : ∀ o x, t.fullscreenOn o = some x →
      s.fullscreenOn o = some x ∨ (t.toplevel x).pendingFullscreen = true)
    (hpending : ∀ x, (s.toplevel x).pendingFullscreen = true →
      (t.toplevel x).pendingFullscreen = true) : t.SlotsAgree := by
  intro o x hx
  rcases hslot o x hx with hs | ht
  · exact hpending x (h o x hs)
  · exact ht

def update (s : Screens) (w : Window)
    (f : Toplevel → Toplevel) : Screens :=
  { s with toplevel := Function.update s.toplevel w (f (s.toplevel w)) }

def set (s : Screens) (o : Output) (w : Window) : Screens :=
  { s with slot := Function.update s.slot o (some w) }

def clear (s : Screens) (o : Output) : Screens :=
  { s with slot := Function.update s.slot o none }

/-- Give back the slots that a window has, but for that of one output. -/
def release (s : Screens) (w : Window) (but : Option Output) :
    Screens :=
  { s with slot := fun o =>
    if some o ≠ but ∧ s.fullscreenOn o = some w then none else s.slot o }

def fullscreenRequest (s : Screens) (w : Window) (target : Option Output)
    (mayInterrupt : Bool) : Screens :=
  match target with
  | some o =>
      if (s.toplevel w).mapped then
        let told := if s.binds w o then some o else none
        let s := (s.release w (some o)).update w fun t =>
          { t with pendingFullscreen := true, fullscreenOutput := told }
        let s := if mayInterrupt then s.set o w else s
        s.update w fun t => if t.initialConfigureSent then t.sendConfigure else t
      else s
  | none => s.update w fun t => if t.initialConfigureSent then t.sendConfigure else t

def unfullscreenRequest (s : Screens) (w : Window) : Screens :=
  if (s.toplevel w).isFullscreen then
    let t := s.update w fun t =>
      { t with pendingFullscreen := false, fullscreenOutput := none }.sendConfigure
    match (s.toplevel w).fullscreenOutput with
    | some o => t.clear o
    | none => t
  else s

/-- The keyboard went to a window. -/
def focusChanged (s : Screens) (w : Window) (home : Option Output) :
    Screens :=
  match home with
  | some o => if (s.toplevel w).isFullscreen then s.set o w else s.clear o
  | none => s

def takeOutOfSpace (s : Screens) (w : Window) : Screens :=
  if (s.toplevel w).mapped then (s.release w none).update w fun t => { t with mapped := false }
  else s

def putBackInSpace (s : Screens) (w : Window) (first : Option Output) :
    Screens :=
  if (s.toplevel w).alive then
    let s := s.update w fun t => { t with mapped := true }
    match first with
    | some o => if (s.toplevel w).isFullscreen then s.set o w else s
    | none => s
  else s

def apply (s : Screens) : Event → Screens
  | .bind w o =>
      { s with binds := Function.update s.binds w (Function.update (s.binds w) o true) }
  | .fullscreen w target mayInterrupt => s.fullscreenRequest w target mayInterrupt
  | .unfullscreen w => s.unfullscreenRequest w
  | .configure w => s.update w Toplevel.sendConfigure
  | .ack w index => s.update w fun t => t.ackConfigure index
  | .commit w => s.update w Toplevel.commit
  | .focus w home => s.focusChanged w home
  | .takeOut w => s.takeOutOfSpace w
  | .putBack w first => s.putBackInSpace w first
  | .closed w => s.update w fun t => { t with alive := false }

def step (s : Screens) (e : Event) : Option (Screens) :=
  some (s.apply e)

/-- A window that leaves fullscreen takes no other window from a slot. -/
def LeavesOthers (s : Screens) : Event →
    Screens → Prop
  | .unfullscreen w, t => ∀ o x, x ≠ w → s.fullscreenOn o = some x → t.fullscreenOn o = some x
  | _, _ => True

/-- A step past the slips: a window that leaves fullscreen has the slot of the output that
its client was told, and no other, and no window has that slot instead; and what gets the
keyboard or comes back is not on its way out of fullscreen. -/
def Matched (s : Screens) : Event → Prop
  | .unfullscreen w => (s.toplevel w).isFullscreen = true →
      (∀ o, s.fullscreenOn o = some w → (s.toplevel w).fullscreenOutput = some o) ∧
        ∀ o x, (s.toplevel w).fullscreenOutput = some o → s.fullscreenOn o = some x → x = w
  | .focus w home => home ≠ none → (s.toplevel w).alive = true →
      (s.toplevel w).isFullscreen = true → (s.toplevel w).pendingFullscreen = true
  | .putBack w first => first ≠ none → (s.toplevel w).alive = true →
      (s.toplevel w).isFullscreen = true → (s.toplevel w).pendingFullscreen = true
  | _ => True

/-! ## What is drawn alone -/

@[simp] theorem toplevel_update_self (f : Toplevel → Toplevel) :
    (s.update w f).toplevel w = f (s.toplevel w) := Function.update_self ..

theorem toplevel_update_of_ne (f : Toplevel → Toplevel) (hx : x ≠ w) :
    (s.update w f).toplevel x = s.toplevel x := Function.update_of_ne hx ..

@[simp] theorem slot_set_self : (s.set o w).slot o = some w := Function.update_self ..

theorem slot_set_of_ne {o' : Output} (ho : o' ≠ o) : (s.set o w).slot o' = s.slot o' :=
  Function.update_of_ne ho ..

@[simp] theorem slot_clear_self : (s.clear o).slot o = none := Function.update_self ..

theorem slot_clear_of_ne {o' : Output} (ho : o' ≠ o) : (s.clear o).slot o' = s.slot o' :=
  Function.update_of_ne ho ..

theorem fullscreenOn_set_self (hw : (s.toplevel w).alive = true) :
    (s.set o w).fullscreenOn o = some w :=
  fullscreenOn_eq_some.mpr ⟨slot_set_self, hw⟩

theorem of_fullscreenOn_set {o' : Output} (h : (s.set o w).fullscreenOn o' = some x) :
    x = w ∨ s.fullscreenOn o' = some x := by
  obtain ⟨hslot, halive⟩ := fullscreenOn_eq_some.mp h
  by_cases ho : o' = o
  · subst ho
    rw [slot_set_self] at hslot
    exact .inl (Option.some.inj hslot).symm
  · rw [slot_set_of_ne ho] at hslot
    exact .inr (fullscreenOn_eq_some.mpr ⟨hslot, halive⟩)

theorem fullscreenOn_clear {o' : Output} :
    (s.clear o).fullscreenOn o' = some x ↔ o' ≠ o ∧ s.fullscreenOn o' = some x := by
  rw [fullscreenOn_eq_some, fullscreenOn_eq_some]
  by_cases ho : o' = o
  · subst ho
    simp
  · rw [slot_clear_of_ne ho, and_iff_right ho]
    rfl

theorem of_fullscreenOn_release {but : Option Output}
    (h : (s.release w but).fullscreenOn o = some x) : s.fullscreenOn o = some x := by
  obtain ⟨hslot, halive⟩ := fullscreenOn_eq_some.mp h
  refine fullscreenOn_eq_some.mpr ⟨?_, halive⟩
  change (if _ then none else s.slot o) = some x at hslot
  split at hslot
  · cases hslot
  · exact hslot

theorem fullscreenOn_update {f : Toplevel → Toplevel}
    (hf : (f (s.toplevel w)).alive = (s.toplevel w).alive) :
    (s.update w f).fullscreenOn o = some x ↔ s.fullscreenOn o = some x := by
  rw [fullscreenOn_eq_some, fullscreenOn_eq_some]
  by_cases hx : x = w
  · subst hx
    rw [toplevel_update_self, hf]
    rfl
  · rw [toplevel_update_of_ne f hx]
    rfl

/-! ## The slots agree with the windows -/

theorem SlotsAgree.update (h : s.SlotsAgree) (f : Toplevel → Toplevel)
    (halive : (f (s.toplevel w)).alive = (s.toplevel w).alive)
    (hf : (s.toplevel w).pendingFullscreen = true → (f (s.toplevel w)).pendingFullscreen = true) :
    (s.update w f).SlotsAgree := by
  refine h.mono (fun o x hx => .inl ((fullscreenOn_update halive).mp hx)) fun x hx => ?_
  by_cases hxw : x = w
  · subst hxw
    rw [toplevel_update_self]
    exact hf hx
  · rwa [toplevel_update_of_ne f hxw]

theorem SlotsAgree.release (h : s.SlotsAgree) (w : Window) (but : Option Output) :
    (s.release w but).SlotsAgree :=
  h.mono (fun _ _ hx => .inl (of_fullscreenOn_release hx)) fun _ hx => hx

theorem SlotsAgree.clear (h : s.SlotsAgree) (o : Output) : (s.clear o).SlotsAgree :=
  h.mono (fun _ _ hx => .inl (fullscreenOn_clear.mp hx).2) fun _ hx => hx

theorem SlotsAgree.set_iff (h : s.SlotsAgree) :
    (s.set o w).SlotsAgree ↔
      ((s.toplevel w).alive = true → (s.toplevel w).pendingFullscreen = true) := by
  constructor
  · intro hset halive
    exact hset o w (fullscreenOn_set_self halive)
  · intro hw o' x hx
    rcases of_fullscreenOn_set hx with rfl | hx'
    · exact hw (fullscreenOn_eq_some.mp hx).2
    · exact h o' x hx'

theorem SlotsAgree.fullscreenRequest (h : s.SlotsAgree) (w : Window) (target : Option Output)
    (mayInterrupt : Bool) : (s.fullscreenRequest w target mayInterrupt).SlotsAgree := by
  have hsend : ∀ t : Screens, t.SlotsAgree →
      (t.update w fun t => if t.initialConfigureSent then t.sendConfigure else t).SlotsAgree := by
    intro t ht
    refine ht.update _ ?_ ?_
    · split <;> rfl
    · split <;> exact id
  unfold Screens.fullscreenRequest
  split
  next o =>
    split
    · refine hsend _ ?_
      have htold := (h.release w (some o)).update (w := w)
        (fun t => { t with
          pendingFullscreen := true
          fullscreenOutput := if s.binds w o then some o else none }) rfl fun _ => rfl
      split
      · exact htold.set_iff.mpr fun _ => by simp
      · exact htold
    · exact h
  · exact hsend s h

theorem SlotsAgree.takeOutOfSpace (h : s.SlotsAgree) (w : Window) :
    (s.takeOutOfSpace w).SlotsAgree := by
  unfold Screens.takeOutOfSpace
  split
  · exact (h.release w none).update _ rfl id
  · exact h

theorem SlotsAgree.closed (h : s.SlotsAgree) (w : Window) :
    (s.update w fun t => { t with alive := false }).SlotsAgree := by
  refine h.mono (fun o x hx => .inl ?_) fun x hx => ?_
  · obtain ⟨hslot, halive⟩ := fullscreenOn_eq_some.mp hx
    by_cases hxw : x = w
    · subst hxw
      rw [toplevel_update_self] at halive
      cases halive
    · rw [toplevel_update_of_ne _ hxw] at halive
      exact fullscreenOn_eq_some.mpr ⟨hslot, halive⟩
  · by_cases hxw : x = w
    · subst hxw
      rw [toplevel_update_self]
      exact hx
    · rwa [toplevel_update_of_ne _ hxw]

theorem SlotsAgree.focusChanged_iff (h : s.SlotsAgree) {home : Option Output} :
    (s.focusChanged w home).SlotsAgree ↔ s.Matched (.focus w home) := by
  cases home with
  | none => exact iff_of_true h fun hno => absurd rfl hno
  | some o =>
      unfold focusChanged Matched
      by_cases hw : (s.toplevel w).isFullscreen = true
      · simp only [hw, if_true]
        rw [h.set_iff]
        simp
      · simp only [hw]
        exact iff_of_true (h.clear o) (by simp)

theorem SlotsAgree.putBackInSpace_iff (h : s.SlotsAgree) {first : Option Output} :
    (s.putBackInSpace w first).SlotsAgree ↔ s.Matched (.putBack w first) := by
  unfold putBackInSpace Matched
  by_cases halive : (s.toplevel w).alive = true
  · have hmapped : (s.update w fun t => { t with mapped := true }).SlotsAgree := h.update _ rfl id
    rw [if_pos halive]
    cases first with
    | none => exact iff_of_true hmapped fun hno => absurd rfl hno
    | some o =>
        by_cases hw : (s.toplevel w).isFullscreen = true
        · simp only [toplevel_update_self, hw, if_true]
          rw [hmapped.set_iff]
          simp
        · simp only [toplevel_update_self, hw]
          exact iff_of_true hmapped (by simp)
  · rw [if_neg halive]
    exact iff_of_true h fun _ hno => absurd hno halive

theorem fullscreenOn_unfullscreenRequest (hw : (s.toplevel w).isFullscreen = true) :
    (s.unfullscreenRequest w).fullscreenOn o = some x ↔
      (s.toplevel w).fullscreenOutput ≠ some o ∧ s.fullscreenOn o = some x := by
  unfold unfullscreenRequest
  rw [if_pos hw]
  dsimp only
  have hsame : (s.update w fun t =>
      { t with pendingFullscreen := false, fullscreenOutput := none }.sendConfigure).fullscreenOn
        o =
        some x ↔ s.fullscreenOn o = some x := fullscreenOn_update rfl
  split
  next o' ho' =>
    rw [fullscreenOn_clear, hsame, ho', ne_eq, ne_eq, Option.some.injEq, eq_comm]
  next hnone =>
    rw [hsame, hnone]
    simp

theorem toplevel_unfullscreenRequest (hw : (s.toplevel w).isFullscreen = true) :
    (s.unfullscreenRequest w).toplevel = (s.update w fun t =>
      { t with pendingFullscreen := false, fullscreenOutput := none }.sendConfigure).toplevel := by
  unfold unfullscreenRequest
  rw [if_pos hw]
  dsimp only
  split <;> rfl

theorem SlotsAgree.unfullscreenRequest_iff (h : s.SlotsAgree) :
    (s.unfullscreenRequest w).SlotsAgree ∧
        s.LeavesOthers (.unfullscreen w) (s.unfullscreenRequest w) ↔
      s.Matched (.unfullscreen w) := by
  unfold LeavesOthers Matched
  by_cases hw : (s.toplevel w).isFullscreen = true
  · have hpending : ∀ x, ((s.unfullscreenRequest w).toplevel x).pendingFullscreen = true ↔
        x ≠ w ∧ (s.toplevel x).pendingFullscreen = true := by
      intro x
      rw [toplevel_unfullscreenRequest hw]
      by_cases hx : x = w
      · subst hx
        simp [Toplevel.sendConfigure]
      · rw [toplevel_update_of_ne _ hx, and_iff_right hx]
    constructor
    · rintro ⟨hagree, hleaves⟩ -
      refine ⟨fun o ho => ?_, fun o x ho hx => ?_⟩
      · by_contra hno
        have hstill := (fullscreenOn_unfullscreenRequest hw).mpr ⟨hno, ho⟩
        exact ((hpending w).mp (hagree o w hstill)).1 rfl
      · by_contra hxw
        exact ((fullscreenOn_unfullscreenRequest hw).mp (hleaves o x hxw hx)).1 ho
    · intro hmatched
      obtain ⟨hown, hother⟩ := hmatched hw
      refine ⟨fun o x hx => ?_, fun o x hxw hx => ?_⟩
      · obtain ⟨hno, hs⟩ := (fullscreenOn_unfullscreenRequest hw).mp hx
        refine (hpending x).mpr ⟨?_, h o x hs⟩
        rintro rfl
        exact hno (hown o hs)
      · exact (fullscreenOn_unfullscreenRequest hw).mpr ⟨fun ho => hxw (hother o x ho hx), hx⟩
  · have hsame : s.unfullscreenRequest w = s := if_neg hw
    rw [hsame]
    exact iff_of_true ⟨h, fun _ _ _ hx => hx⟩ fun hno => absurd hno hw

/-- From empty slots, and whatever the windows are: the slots agree and a window that leaves
takes no other from a slot, in every step of a run, exactly where every step is matched. -/
theorem slots_along_iff (toplevel : Window → Toplevel) (binds : Window → Output → Bool)
    (es : List Event) :
    Along step (fun s e t => t.SlotsAgree ∧ s.LeavesOthers e t)
        { toplevel := toplevel, binds := binds } es ↔
      Along step (fun s e _ => s.Matched e) { toplevel := toplevel, binds := binds } es := by
  refine along_iff SlotsAgree ?_ ?_ es fun o w hw => ?_
  · intro s e t _ _ ht
    exact ht.1
  · intro s e t hs hstep
    cases hstep
    cases e with
    | unfullscreen w => exact hs.unfullscreenRequest_iff
    | focus w home => exact (and_iff_left trivial).trans hs.focusChanged_iff
    | putBack w first => exact (and_iff_left trivial).trans hs.putBackInSpace_iff
    | bind w o => exact iff_of_true ⟨hs, trivial⟩ trivial
    | fullscreen w target mayInterrupt =>
        exact iff_of_true ⟨hs.fullscreenRequest w target mayInterrupt, trivial⟩ trivial
    | configure w =>
        exact iff_of_true ⟨hs.update Toplevel.sendConfigure rfl id, trivial⟩ trivial
    | ack w index =>
        have hack := (s.toplevel w).ackConfigure_eq index
        refine iff_of_true ⟨hs.update (fun t => t.ackConfigure index) ?_ ?_, trivial⟩ trivial
        · exact hack.1
        · exact fun hp => hack.2.trans hp
    | commit w => exact iff_of_true ⟨hs.update Toplevel.commit rfl id, trivial⟩ trivial
    | takeOut w => exact iff_of_true ⟨hs.takeOutOfSpace w, trivial⟩ trivial
    | closed w => exact iff_of_true ⟨hs.closed w, trivial⟩ trivial
  · cases hw

/-- A window comes up, asks for fullscreen, and its client follows. -/
def goesFullscreen (w : Window) (o : Output) : List Event :=
  [.configure w, .ack w 0, .commit w, .fullscreen w (some o) true, .ack w 0, .commit w]

/-- A window that has not bound its output stays in the slot when it has left fullscreen, and
one that has bound it takes another window out of the slot. -/
theorem leaving_fullscreen_slips :
    (∃ t, exec step {} (goesFullscreen 1 0 ++ [.unfullscreen 1, .ack 1 0, .commit 1]) = some t ∧
      t.fullscreenOn 0 = some 1 ∧ (t.toplevel 1).pendingFullscreen = false ∧
      (t.toplevel 1).isFullscreen = false) ∧
    ∃ s t, exec step {} (.bind 1 0 :: goesFullscreen 1 0 ++ goesFullscreen 2 0) = some s ∧
      s.step (.unfullscreen 1) = some t ∧ s.fullscreenOn 0 = some 2 ∧ t.fullscreenOn 0 = none ∧
      (t.toplevel 2).pendingFullscreen = true := by
  refine ⟨⟨_, rfl, by decide, by decide, by decide⟩,
    ⟨_, _, rfl, rfl, by decide, by decide, by decide⟩⟩

end Screens

end MindOS.Fullscreen
