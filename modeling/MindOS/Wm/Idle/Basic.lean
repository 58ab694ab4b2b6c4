import MindOS.Text.Basic
import Mathlib.Data.Finset.Insert
import Mathlib.Data.Finset.Erase

/-!
# Idling

The screensaver, the automatic lock and switching the displays off: one reference
time from which the timeouts are counted, one timer that is armed for the next of
them, and the `idle` event that tells the shell where the session stands. Times are
in milliseconds, the settings in seconds; `0` seconds mean never.

The events wait in an outbox for the compositor to send them to its subscribers.
-/

namespace MindOS.Idle

open Text

structure IdleSettings where
  screensaver : Nat := 300
  saver : Text := "shuffle"
  lock : Nat := 900
  blank : Nat := 900
  lockOnBlank : Bool := true
  stayAwakeWhenBusy : Bool := true

/-- How far into idling the session has gone. -/
inductive Stage where
  | active
  | screensaver
  | blank
  deriving DecidableEq

/-- The `idle` event. -/
structure IdleEvent where
  stage : Stage
  locked : Bool
  inhibited : Bool
  saver : Text
  deriving DecidableEq

structure Session where
  settings : IdleSettings
  stage : Stage := .active
  locked : Bool := false
  /-- The time that the timeouts are counted from. -/
  since : Option Nat := none
  /-- Surfaces that hold an idle inhibitor. -/
  inhibitors : Finset Nat := ∅
  /-- Clients that ask to stay awake. -/
  holds : Finset Nat := ∅
  /-- When the armed timer is due. -/
  timer : Option Nat := none
  lastEvent : Option IdleEvent := none
  /-- The displays are switched off. -/
  blanked : Bool := false
  outbox : List IdleEvent := []

namespace Session

/-- Something asked the session to stay awake. -/
def inhibited (s : Session) : Bool :=
  s.settings.stayAwakeWhenBusy && (s.inhibitors ≠ ∅ || s.holds ≠ ∅)

/-- How long the machine has been left alone. -/
def idleFor (s : Session) (now : Nat) : Nat := (s.since.map fun t => now - t).getD 0

/-- The `idle` event as it is now. -/
def idleJson (s : Session) : IdleEvent := ⟨s.stage, s.locked, s.inhibited, s.settings.saver⟩

/-- Tell the shell, unless it already knows. -/
def idleChanged (s : Session) : Session :=
  if s.lastEvent = some s.idleJson then s
  else { s with lastEvent := some s.idleJson, outbox := s.outbox ++ [s.idleJson] }

/-- The nearest deadline so far, and that of one more stage. -/
def consider (idle : Nat) (next : Option Nat) (seconds : Nat) (done : Bool) : Option Nat :=
  if seconds = 0 || done then next
  else
    let left := seconds * 1000 - idle
    some ((next.map fun n => min n left).getD left)

/-- How long until the next thing is due to happen. -/
def nextDeadline (s : Session) (now : Nat) : Option Nat :=
  let idle := s.idleFor now
  let next := consider idle none s.settings.screensaver (s.stage ≠ .active)
  let next := consider idle next s.settings.lock s.locked
  consider idle next s.settings.blank (s.stage = .blank)

/-- Arm one timer for the next stage. -/
def armIdleTimer (s : Session) (now : Nat) : Session :=
  { s with timer := if s.inhibited then none
    else (s.nextDeadline now).map fun left => now + max left 200 }

/-- Move to a stage, switching the displays off or on. -/
def setStage (s : Session) (stage : Stage) : Session :=
  if s.stage = stage then s
  else
    let blanked := if stage = .blank then true else if s.stage = .blank then false else s.blanked
    { s with stage := stage, blanked := blanked }.idleChanged

/-- Lock or unlock the session. -/
def setLocked (s : Session) (now : Nat) (locked : Bool) : Session :=
  if s.locked = locked then s
  else ({ s with locked := locked, since := some now }.idleChanged).armIdleTimer now

/-- An input event; whether it only woke the screen up. -/
def noteActivity (s : Session) (now : Nat) : Session × Bool :=
  let woke : Bool := s.stage ≠ .active
  let s := { s with since := some now }
  ((if woke then s.setStage .active else s).armIdleTimer now, woke)

def wakeIdle (s : Session) (now : Nat) : Session :=
  ({ s with since := some now }.setStage .active).armIdleTimer now

/-- Switch the displays off now. -/
def blankNow (s : Session) (now : Nat) : Session :=
  ((if s.settings.lockOnBlank then s.setLocked now true else s).setStage .blank).armIdleTimer now

/-- The set of things holding the session awake changed. -/
def idleInhibitChanged (s : Session) (now : Nat) : Session :=
  ((if s.inhibited then s else { s with since := some now }).armIdleTimer now).idleChanged

/-- A client holds the session awake, or lets go. -/
def setIdleHold (s : Session) (now client : Nat) (on : Bool) : Session :=
  if decide (client ∈ s.holds) = on then s
  else
    { s with holds := if on then insert client s.holds else s.holds.erase client
      }.idleInhibitChanged now

def inhibit (s : Session) (now surface : Nat) : Session :=
  { s with inhibitors := insert surface s.inhibitors }.idleInhibitChanged now

def uninhibit (s : Session) (now surface : Nat) : Session :=
  { s with inhibitors := s.inhibitors.erase surface }.idleInhibitChanged now

/-- The idle settings in the preferences changed. -/
def setIdlePrefs (s : Session) (now : Nat) (settings : IdleSettings) : Session :=
  ({ s with settings := settings, since := some now }.armIdleTimer now).idleChanged

/-- A timeout that is not *never* has come, to a second. -/
def due (s : Session) (now seconds : Nat) : Bool :=
  0 < seconds && seconds ≤ s.idleFor now / 1000 + 1

/-- A deadline came up: move the session on as far as it should go. -/
def idleTick (s : Session) (now : Nat) : Session :=
  if s.inhibited then { s with since := some now }.armIdleTimer now
  else
    let locked := if s.due now s.settings.lock then s.setLocked now true else s
    let moved :=
      if s.due now s.settings.blank then
        (if s.settings.lockOnBlank then locked.setLocked now true else locked).setStage .blank
      else if s.due now s.settings.screensaver && locked.stage = .active then
        locked.setStage .screensaver
      else locked
    moved.armIdleTimer now

/-- The timer fires: nothing is armed any more when its deadline is dealt with. -/
def fire (s : Session) (now : Nat) : Session := { s with timer := none }.idleTick now

/-- The session when the compositor starts. -/
def start (settings : IdleSettings) (now : Nat) : Session :=
  { settings := settings, since := some now : Session }.armIdleTimer now

/-! ### What the operations change -/

theorem idleChanged_eq (s : Session) :
    ∃ e o, s.idleChanged = { s with lastEvent := e, outbox := o } := by
  unfold idleChanged
  split
  · exact ⟨s.lastEvent, s.outbox, rfl⟩
  · exact ⟨_, _, rfl⟩

/-- The displays are off in the stage that says so. -/
def Lit (s : Session) : Prop := s.blanked = decide (s.stage = .blank)

theorem setStage_eq {s : Session} (h : s.Lit) (stage : Stage) :
    ∃ e o, s.setStage stage =
      { s with
        stage := stage
        blanked := decide (stage = .blank)
        lastEvent := e
        outbox := o } := by
  unfold setStage
  split
  case isTrue heq => exact ⟨s.lastEvent, s.outbox, by rw [← heq, ← h]⟩
  case isFalse heq =>
    have hblanked : (if stage = .blank then true else if s.stage = .blank then false
        else s.blanked) = decide (stage = .blank) := by
      by_cases hblank : stage = .blank
      · simp [hblank]
      · rw [h]
        simp [hblank]
    simp only [hblanked]
    exact idleChanged_eq _

theorem setLocked_of_eq {s : Session} {locked : Bool} (h : s.locked = locked) (now : Nat) :
    s.setLocked now locked = s := if_pos h

theorem setLocked_of_ne {s : Session} {locked : Bool} (h : s.locked ≠ locked) (now : Nat) :
    ∃ e o, s.setLocked now locked =
      ({ s with locked := locked, since := some now, lastEvent := e, outbox := o }).armIdleTimer
        now := by
  obtain ⟨e, o, hchanged⟩ := idleChanged_eq { s with locked := locked, since := some now }
  exact ⟨e, o, by rw [setLocked, if_neg h, hchanged]⟩

theorem setLocked_eq (s : Session) (now : Nat) (locked : Bool) :
    ∃ e o timer, s.setLocked now locked =
      { s with
        locked := locked
        since := if s.locked = locked then s.since else some now
        timer := timer
        lastEvent := e
        outbox := o } := by
  by_cases h : s.locked = locked
  · rw [setLocked_of_eq h, if_pos h]
    exact ⟨s.lastEvent, s.outbox, s.timer, by rw [← h]⟩
  · obtain ⟨e, o, heq⟩ := setLocked_of_ne h now
    rw [heq, if_neg h]
    exact ⟨e, o, _, rfl⟩

theorem Lit.setStage {s : Session} (h : s.Lit) (stage : Stage) : (s.setStage stage).Lit := by
  obtain ⟨e, o, heq⟩ := setStage_eq h stage
  rw [heq]
  rfl

theorem Lit.setLocked {s : Session} (h : s.Lit) (now : Nat) (locked : Bool) :
    (s.setLocked now locked).Lit := by
  obtain ⟨e, o, timer, heq⟩ := setLocked_eq s now locked
  rw [heq]
  exact h

theorem setStage_since {s : Session} (h : s.Lit) (stage : Stage) :
    (s.setStage stage).since = s.since := by
  obtain ⟨e, o, heq⟩ := setStage_eq h stage
  rw [heq]

theorem idleInhibitChanged_eq (s : Session) (now : Nat) :
    ∃ e o, s.idleInhibitChanged now =
      ({ s with
        since := if s.inhibited then s.since else some now
        lastEvent := e
        outbox := o }).armIdleTimer now := by
  unfold idleInhibitChanged
  obtain ⟨e, o, hchanged⟩ :=
    idleChanged_eq ((if s.inhibited then s else { s with since := some now }).armIdleTimer now)
  refine ⟨e, o, ?_⟩
  rw [hchanged]
  cases s.inhibited <;> rfl

theorem lock_if (s : Session) (now : Nat) (c : Bool) :
    ∃ e o timer, (if c then s.setLocked now true else s) =
      { s with
        locked := s.locked || c
        since := if s.locked = (s.locked || c) then s.since else some now
        timer := timer
        lastEvent := e
        outbox := o } := by
  cases c with
  | false => exact ⟨s.lastEvent, s.outbox, s.timer, by simp⟩
  | true => simpa using setLocked_eq s now true

/-- Whether a deadline that came up locks the session. -/
def locksNow (s : Session) (now : Nat) : Bool :=
  s.due now s.settings.lock || (s.due now s.settings.blank && s.settings.lockOnBlank)

/-- The stage that a deadline moves the session to. -/
def stageNow (s : Session) (now : Nat) : Stage :=
  if s.due now s.settings.blank then .blank
  else if s.due now s.settings.screensaver && decide (s.stage = Stage.active) then .screensaver
  else s.stage

theorem idleTick_eq {s : Session} (h : s.Lit) (hfree : s.inhibited = false) (now : Nat) :
    ∃ e o, s.idleTick now =
      ({ s with
        locked := s.locked || s.locksNow now
        since := if s.locked = (s.locked || s.locksNow now) then s.since else some now
        stage := s.stageNow now
        blanked := decide (s.stageNow now = Stage.blank)
        lastEvent := e
        outbox := o }).armIdleTimer now := by
  unfold idleTick locksNow stageNow
  rw [if_neg (by simp [hfree])]
  obtain ⟨e, o, timer, hlock⟩ := lock_if s now (s.due now s.settings.lock)
  generalize (if s.due now s.settings.lock then s.setLocked now true else s) = l at hlock
  have hlit : l.Lit := by
    rw [hlock]
    exact h
  have hstage : l.stage = s.stage := by rw [hlock]
  cases hblank : s.due now s.settings.blank with
  | true =>
      obtain ⟨e', o', timer', hlock'⟩ := lock_if l now s.settings.lockOnBlank
      have hlit' : (if s.settings.lockOnBlank then l.setLocked now true else l).Lit := by
        rw [hlock']
        exact hlit
      obtain ⟨e'', o'', hblanked⟩ := setStage_eq hlit' .blank
      refine ⟨e'', o'', ?_⟩
      simp only [if_true, hblanked]
      rw [hlock', hlock]
      -- The second of two locks changes nothing.
      cases s.locked <;> cases s.due now s.settings.lock <;> cases s.settings.lockOnBlank <;> rfl
  | false =>
      simp only [hstage, Bool.false_and, Bool.or_false, Bool.false_eq_true, if_false]
      cases hsaver : (s.due now s.settings.screensaver && decide (s.stage = Stage.active)) with
      | true =>
          obtain ⟨e', o', hmoved⟩ := setStage_eq hlit .screensaver
          refine ⟨e', o', ?_⟩
          simp only [if_true, hmoved]
          rw [hlock]
          rfl
      | false =>
          refine ⟨e, o, ?_⟩
          simp only [Bool.false_eq_true, if_false]
          rw [hlock, ← h]
          rfl

/-- What the timer does to a session that is not held awake. -/
structure Fired (s : Session) (now : Nat) (d : Session) : Prop where
  settings : d.settings = s.settings
  locked : d.locked = (s.locked || s.locksNow now)
  stage : d.stage = s.stageNow now
  since : d.since = s.since ∨ s.locked = false ∧ s.locksNow now = true ∧ d.since = some now

theorem fired {s : Session} (h : s.Lit) (hfree : s.inhibited = false) (now : Nat) :
    s.Fired now (s.fire now) := by
  obtain ⟨e, o, heq⟩ := idleTick_eq (s := { s with timer := none }) h hfree now
  rw [fire, heq]
  refine ⟨rfl, rfl, rfl, ?_⟩
  show (if s.locked = (s.locked || s.locksNow now) then s.since else some now) = s.since ∨
    s.locked = false ∧ s.locksNow now = true ∧
      (if s.locked = (s.locked || s.locksNow now) then s.since else some now) = some now
  cases s.locked <;> cases s.locksNow now <;> simp

theorem stageNow_of_blank {s : Session} (h : s.stage = .blank) (now : Nat) :
    s.stageNow now = .blank := by
  rw [stageNow, h]
  simp

end Session
end MindOS.Idle
