import MindOS.Transition
import MindOS.Wm.Idle.Basic

/-!
# Idling along a run

## The idle timeline

A run lists what happens to the session and when: input, requests, changes of the
preferences and of what holds it awake, and the armed timer, which fires at its due
time or later. When the last input, wake or new setting came at `u`, the timeouts
should run from `u`. They do as long as the reference time is not set again while a
stage is still to come.
-/

namespace MindOS.Idle

open Text Transition

/-- What happens to the session. -/
inductive Op where
  | activity
  | prefs (settings : IdleSettings)
  | wake
  | unlock
  | lock
  | blank
  | hold (client : Nat) (on : Bool)
  | inhibit (surface : Nat)
  | uninhibit (surface : Nat)
  | fire

/-- One step of a run: what happens, and when. -/
structure Label where
  now : Nat
  op : Op

/-- The session and the time of the last step. -/
structure Clocked where
  session : Session
  clock : Nat

namespace Session

def apply (s : Session) (now : Nat) : Op → Session
  | .activity => (s.noteActivity now).1
  | .prefs settings => s.setIdlePrefs now settings
  | .wake => s.wakeIdle now
  | .unlock => (s.setLocked now false).wakeIdle now
  | .lock => s.setLocked now true
  | .blank => s.blankNow now
  | .hold client on => s.setIdleHold now client on
  | .inhibit surface => s.inhibit now surface
  | .uninhibit surface => s.uninhibit now surface
  | .fire => s.fire now

/-- The timer fires when it is due, or later. -/
def enabled (s : Session) (now : Nat) : Op → Bool
  | .fire => s.timer.any fun due => due ≤ now
  | _ => true

/-- A stage that is still to come, by its timeout. -/
inductive ToCome (s : Session) : Nat → Prop where
  | screensaver : 0 < s.settings.screensaver → s.stage = .active → ToCome s s.settings.screensaver
  | lock : 0 < s.settings.lock → s.locked = false → ToCome s s.settings.lock
  | blank : 0 < s.settings.blank → s.stage ≠ .blank → ToCome s s.settings.blank

/-- The session is locked and the displays are off, where that is to happen at all. -/
def Done (s : Session) : Prop :=
  (s.settings.lock = 0 ∨ s.locked = true) ∧ (s.settings.blank = 0 ∨ s.stage = .blank)

end Session

namespace Clocked

def start (settings : IdleSettings) (now : Nat) : Clocked := ⟨.start settings now, now⟩

def step (c : Clocked) (l : Label) : Option Clocked :=
  if c.clock ≤ l.now && c.session.enabled l.now l.op then
    some ⟨c.session.apply l.now l.op, l.now⟩
  else none

/-- A timer is armed that comes in time for every stage still to come: by its timeout,
or by the shortest time that a timer is armed for. -/
def InTime (c : Clocked) : Prop :=
  c.session.inhibited = false → ∀ seconds, c.session.ToCome seconds →
    ∃ due, c.session.timer = some due ∧
      ∀ u, c.session.since = some u → due ≤ max (u + seconds * 1000) (c.clock + 200)

end Clocked

/-- Nothing inhibits idling, and the step is no input, wake or new setting. -/
def Undisturbed (l : Label) (after : Clocked) : Prop :=
  after.session.inhibited = false ∧
    match l.op with
    | .activity | .prefs _ | .wake | .unlock => False
    | _ => True

/-- A step that sets the reference time again leaves no lock and no blanking to come. -/
def CountsOn (c : Clocked) (l : Label) : Prop :=
  match l.op with
  | .lock => c.session.locked = false →
      c.session.settings.blank = 0 ∨ c.session.stage = .blank
  | .hold client on => decide (client ∈ c.session.holds) = on ∨ c.session.Done
  | .inhibit _ | .uninhibit _ => c.session.Done
  | .fire => c.session.locked = false → c.session.locksNow l.now = true →
      c.session.settings.blank = 0 ∨ c.session.stage = .blank ∨
        c.session.due l.now c.session.settings.blank = true
  | _ => True

/-- What a step does in time, when the timeouts run from `u`. -/
structure Timely (u : Nat) (c : Clocked) (l : Label) (d : Clocked) : Prop where
  locked : l.op = .fire → 0 < c.session.settings.lock →
    u + c.session.settings.lock * 1000 ≤ l.now → d.session.locked = true
  blanked : l.op = .fire → 0 < c.session.settings.blank →
    u + c.session.settings.blank * 1000 ≤ l.now → d.session.blanked = true
  screensaver_not_early : l.op = .fire → c.session.stage ≠ .screensaver →
    d.session.stage = .screensaver → u + c.session.settings.screensaver * 1000 ≤ l.now + 1000
  blank_not_early : l.op = .fire → c.session.stage ≠ .blank →
    d.session.stage = .blank → u + c.session.settings.blank * 1000 ≤ l.now + 1000
  lock_not_early : l.op = .fire → c.session.locked = false → d.session.locked = true →
    u + c.session.settings.lock * 1000 ≤ l.now + 1000 ∨
      c.session.settings.lockOnBlank = true ∧ d.session.stage = .blank
  armed : d.InTime

namespace Session

/-- A step does nothing, or it ends by arming the timer; the reference time is the old
one or now. -/
theorem apply_cases {s : Session} (h : s.Lit) (now : Nat) (op : Op) :
    s.apply now op = s ∨ ∃ core : Session, core.Lit ∧
      (core.since = s.since ∨ core.since = some now) ∧
      s.apply now op = core.armIdleTimer now := by
  have hreset : ({ s with since := some now } : Session).Lit := h
  have hinhibit : ∀ t : Session, t.Lit → t.since = s.since → ∃ core : Session, core.Lit ∧
      (core.since = s.since ∨ core.since = some now) ∧
        t.idleInhibitChanged now = core.armIdleTimer now := by
    intro t ht hsince
    obtain ⟨e, o, heq⟩ := t.idleInhibitChanged_eq now
    refine ⟨_, ?_, ?_, heq⟩
    · exact ht
    · split
      · exact .inl hsince
      · exact .inr rfl
  cases op with
  | activity =>
      refine .inr ⟨_, ?_, .inr ?_, rfl⟩
      · split
        · exact hreset.setStage _
        · exact hreset
      · split
        · exact setStage_since hreset _
        · rfl
  | prefs settings =>
      obtain ⟨e, o, heq⟩ :=
        idleChanged_eq ({ s with settings := settings, since := some now }.armIdleTimer now)
      exact .inr ⟨{ s with settings := settings, since := some now, lastEvent := e, outbox := o },
        h, .inr rfl, heq⟩
  | wake => exact .inr ⟨_, hreset.setStage _, .inr (setStage_since hreset _), rfl⟩
  | unlock =>
      have hunlocked : ({ s.setLocked now false with since := some now } : Session).Lit :=
        h.setLocked now false
      exact .inr ⟨_, hunlocked.setStage _, .inr (setStage_since hunlocked _), rfl⟩
  | lock =>
      by_cases hlocked : s.locked = true
      · exact .inl (setLocked_of_eq hlocked now)
      · obtain ⟨e, o, heq⟩ := setLocked_of_ne hlocked now
        exact .inr ⟨_, by exact h, .inr rfl, heq⟩
  | blank =>
      obtain ⟨e, o, timer, heq⟩ := lock_if s now s.settings.lockOnBlank
      have hlit : (if s.settings.lockOnBlank then s.setLocked now true else s).Lit := by
        rw [heq]
        exact h
      refine .inr ⟨_, hlit.setStage _, ?_, rfl⟩
      rw [setStage_since hlit, heq]
      simp only
      split
      · exact .inl rfl
      · exact .inr rfl
  | hold client on =>
      by_cases hsame : decide (client ∈ s.holds) = on
      · exact .inl (if_pos hsame)
      · obtain ⟨core, hlit, hsince, heq⟩ := hinhibit
          { s with holds := if on then insert client s.holds else s.holds.erase client } h rfl
        exact .inr ⟨core, hlit, hsince, (if_neg hsame).trans heq⟩
  | inhibit surface => exact .inr (hinhibit _ h rfl)
  | uninhibit surface => exact .inr (hinhibit _ h rfl)
  | fire =>
      cases hfree : s.inhibited with
      | true =>
          refine .inr ⟨{ s with timer := none, since := some now }, h, .inr rfl, ?_⟩
          exact if_pos hfree
      | false =>
          obtain ⟨e, o, heq⟩ := idleTick_eq (s := { s with timer := none }) h hfree now
          refine .inr ⟨_, by rfl, ?_, heq⟩
          simp only
          split
          · exact .inl rfl
          · exact .inr rfl

theorem consider_some (idle : Nat) (next : Option Nat) {seconds : Nat} (h : 0 < seconds) :
    ∃ left, consider idle next seconds false = some left ∧ left ≤ seconds * 1000 - idle ∧
      ∀ n, next = some n → left ≤ n := by
  unfold consider
  rw [if_neg (by simp; omega)]
  cases next with
  | none => exact ⟨_, rfl, le_rfl, nofun⟩
  | some n =>
      refine ⟨_, rfl, Nat.min_le_right _ _, ?_⟩
      rintro n ⟨⟩
      exact Nat.min_le_left _ _

theorem consider_of_some (idle : Nat) {next : Option Nat} {n : Nat} (h : next = some n)
    (seconds : Nat) (done : Bool) :
    ∃ left, consider idle next seconds done = some left ∧ left ≤ n := by
  unfold consider
  split
  · exact ⟨n, h, le_rfl⟩
  · rw [h]
    exact ⟨_, rfl, Nat.min_le_left _ _⟩

theorem nextDeadline_le {s : Session} {seconds : Nat} (h : s.ToCome seconds) (now : Nat) :
    ∃ left, s.nextDeadline now = some left ∧ left ≤ seconds * 1000 - s.idleFor now := by
  unfold nextDeadline
  simp only
  cases h with
  | screensaver hpos hstage =>
      rw [hstage]
      obtain ⟨n, hn, hle, -⟩ := consider_some (s.idleFor now) none hpos
      obtain ⟨m, hm, hmn⟩ := consider_of_some (s.idleFor now) hn s.settings.lock s.locked
      obtain ⟨k, hk, hkm⟩ := consider_of_some (s.idleFor now) hm s.settings.blank false
      exact ⟨k, hk, by omega⟩
  | lock hpos hlocked =>
      rw [hlocked]
      obtain ⟨m, hm, hle, -⟩ := consider_some (s.idleFor now)
        (consider (s.idleFor now) none s.settings.screensaver (s.stage ≠ .active)) hpos
      obtain ⟨k, hk, hkm⟩ := consider_of_some (s.idleFor now) hm s.settings.blank
        (s.stage = .blank)
      exact ⟨k, hk, by omega⟩
  | blank hpos hstage =>
      rw [decide_eq_false hstage]
      obtain ⟨k, hk, hle, -⟩ := consider_some (s.idleFor now)
        (consider (s.idleFor now)
          (consider (s.idleFor now) none s.settings.screensaver (s.stage ≠ .active))
          s.settings.lock s.locked) hpos
      exact ⟨k, hk, hle⟩

end Session

namespace Clocked

/-- What holds in every state of a run. -/
structure Sound (c : Clocked) : Prop where
  lit : c.session.Lit
  since : ∃ u ≤ c.clock, c.session.since = some u
  inTime : c.InTime

theorem sound_arm {s : Session} {now u : Nat} (hlit : s.Lit) (hu : u ≤ now)
    (hsince : s.since = some u) : Sound ⟨s.armIdleTimer now, now⟩ where
  lit := hlit
  since := ⟨u, hu, hsince⟩
  inTime hfree seconds hcome := by
    have hcome' : s.ToCome seconds := by
      cases hcome with
      | screensaver hpos hstage => exact .screensaver hpos hstage
      | lock hpos hlocked => exact .lock hpos hlocked
      | blank hpos hstage => exact .blank hpos hstage
    obtain ⟨left, hleft, hle⟩ := s.nextDeadline_le hcome' now
    have hidle : s.idleFor now = now - u := by rw [Session.idleFor, hsince]; rfl
    refine ⟨now + max left 200, ?_, ?_⟩
    · show (if s.inhibited then none else _) = _
      rw [if_neg (by rw [show s.inhibited = false from hfree]; exact nofun), hleft]
      rfl
    · intro v hv
      obtain rfl : u = v := Option.some.inj (hsince.symm.trans hv)
      show _ ≤ max _ (now + 200)
      omega

theorem sound_start (settings : IdleSettings) (now : Nat) : Sound (start settings now) :=
  sound_arm (s := { settings := settings, since := some now }) rfl le_rfl rfl

theorem Sound.step {c d : Clocked} {l : Label} (h : c.Sound) (hstep : c.step l = some d) :
    d.Sound := by
  obtain ⟨hguard, hd⟩ := Option.ite_none_right_eq_some.mp hstep
  obtain rfl := Option.some.inj hd
  obtain ⟨hclock, -⟩ := (Bool.and_eq_true _ _).mp hguard
  replace hclock : c.clock ≤ l.now := of_decide_eq_true hclock
  obtain ⟨u, hu, hsince⟩ := h.since
  obtain hsame | ⟨core, hlit, hcore, heq⟩ := Session.apply_cases h.lit l.now l.op
  · rw [hsame]
    refine ⟨h.lit, ⟨u, hu.trans hclock, hsince⟩, fun hfree seconds hcome => ?_⟩
    obtain ⟨due, hdue, hle⟩ := h.inTime hfree seconds hcome
    refine ⟨due, hdue, fun v hv => ?_⟩
    have hbound := hle v hv
    show _ ≤ max _ (l.now + 200)
    omega
  · rw [heq]
    obtain hcore | hcore := hcore
    · exact sound_arm hlit (hu.trans hclock) (hcore.trans hsince)
    · exact sound_arm hlit le_rfl hcore

/-- The timeouts run from `u`: the reference time is `u`, or nothing is to come that
counts from it. -/
def Counted (u : Nat) (s : Session) : Prop :=
  ∃ v, s.since = some v ∧ u ≤ v ∧ (v = u ∨ s.Done)

theorem Counted.of_reset {u now : Nat} {s t : Session} (h : Counted u s) (hu : u ≤ now)
    (hsettings : t.settings = s.settings) (hlocked : s.locked = true → t.locked = true)
    (hstage : s.stage = .blank → t.stage = .blank)
    (hsince : t.since = s.since ∨ t.since = some now ∧ t.Done) : Counted u t := by
  obtain hsince | ⟨hsince, hdone⟩ := hsince
  · obtain ⟨v, hv, huv, hcount⟩ := h
    refine ⟨v, hsince.trans hv, huv, hcount.imp_right fun hdone => ?_⟩
    rw [Session.Done, hsettings]
    exact ⟨hdone.1.imp_right hlocked, hdone.2.imp_right hstage⟩
  · exact ⟨now, hsince, hu, .inr hdone⟩

/-- What holds on a run in which the timeouts run from `u`. -/
structure OnTime (u : Nat) (c : Clocked) : Prop where
  sound : c.Sound
  free : c.session.inhibited = false
  counted : Counted u c.session

theorem timely_of_ne_fire {u : Nat} {c d : Clocked} {l : Label} (h : l.op ≠ .fire)
    (hd : d.Sound) : Timely u c l d where
  locked hfire := absurd hfire h
  blanked hfire := absurd hfire h
  screensaver_not_early hfire := absurd hfire h
  blank_not_early hfire := absurd hfire h
  lock_not_early hfire := absurd hfire h
  armed := hd.inTime

theorem counted_idleInhibitChanged {u now : Nat} {s t : Session} (h : Counted u s) (hu : u ≤ now)
    (hdone : s.Done) (hsettings : t.settings = s.settings) (hlocked : t.locked = s.locked)
    (hstage : t.stage = s.stage) (hsince : t.since = s.since) :
    Counted u (t.idleInhibitChanged now) := by
  obtain ⟨e, o, heq⟩ := t.idleInhibitChanged_eq now
  rw [heq]
  refine h.of_reset hu hsettings (fun hl => hlocked.trans hl) (fun hs => hstage.trans hs) ?_
  show (if t.inhibited then t.since else some now) = _ ∨ (if t.inhibited then _ else _) = _ ∧ _
  split
  · exact .inl hsince
  · refine .inr ⟨rfl, ?_⟩
    show (t.settings.lock = 0 ∨ t.locked = true) ∧ (t.settings.blank = 0 ∨ t.stage = .blank)
    rw [hsettings, hlocked, hstage]
    exact hdone

theorem due_iff {s : Session} {v : Nat} (h : s.since = some v) (now seconds : Nat) :
    s.due now seconds = true ↔ 0 < seconds ∧ seconds ≤ (now - v) / 1000 + 1 := by
  have hidle : s.idleFor now = now - v := by rw [Session.idleFor, h]; rfl
  rw [Session.due, hidle, Bool.and_eq_true, decide_eq_true_iff, decide_eq_true_iff]

theorem OnTime.fire {u : Nat} {c : Clocked} {now : Nat} (h : c.OnTime u) (hclock : c.clock ≤ now)
    (hcounts : CountsOn c ⟨now, .fire⟩) (hsound : Sound ⟨c.session.fire now, now⟩) :
    Counted u (c.session.fire now) ∧ Timely u c ⟨now, .fire⟩ ⟨c.session.fire now, now⟩ := by
  obtain ⟨v, hv, huv, hcount⟩ := h.counted
  obtain ⟨w, hw, hsince⟩ := h.sound.since
  obtain rfl : w = v := Option.some.inj (hsince.symm.trans hv)
  have hdue := due_iff hv now
  have hfired := Session.fired h.sound.lit h.free now
  generalize c.session.fire now = d at hsound hfired
  have hblank : c.session.stage = .blank → d.stage = .blank := fun hblank =>
    hfired.stage.trans (Session.stageNow_of_blank hblank now)
  have hblank' : c.session.due now c.session.settings.blank = true → d.stage = .blank :=
    fun hduenow => hfired.stage.trans (if_pos hduenow)
  constructor
  · refine h.counted.of_reset (huv.trans (hw.trans hclock)) hfired.settings (fun hl => ?_) hblank ?_
    · rw [hfired.locked, hl, Bool.true_or]
    · refine hfired.since.imp_right ?_
      rintro ⟨hopen, hlocks, hnow⟩
      refine ⟨hnow, .inr (by rw [hfired.locked, hlocks, Bool.or_true]), ?_⟩
      rw [hfired.settings]
      obtain hnever | hblanked | hduenow := hcounts hopen hlocks
      · exact .inl hnever
      · exact .inr (hblank hblanked)
      · exact .inr (hblank' hduenow)
  · refine ⟨fun _ hpos hlate => ?_, fun _ hpos hlate => ?_, fun _ hbefore hafter => ?_,
      fun _ hbefore hafter => ?_, fun _ hbefore hafter => ?_, hsound.inTime⟩
    · show d.locked = true
      rw [hfired.locked]
      obtain rfl | ⟨hlock, -⟩ := hcount
      · have hnow := (hdue c.session.settings.lock).mpr ⟨hpos, by simp only at hlate; omega⟩
        rw [Session.locksNow, hnow, Bool.true_or, Bool.or_true]
      · rw [hlock.resolve_left (by omega), Bool.true_or]
    · have hlit : d.Lit := hsound.lit
      show d.blanked = true
      rw [hlit, decide_eq_true_iff]
      obtain rfl | ⟨-, hdone⟩ := hcount
      · exact hblank' ((hdue _).mpr ⟨hpos, by simp only at hlate; omega⟩)
      · exact hblank (hdone.resolve_left (by omega))
    · replace hafter := hfired.stage.symm.trans hafter
      rw [Session.stageNow] at hafter
      split at hafter
      · cases hafter
      · split at hafter
        case isTrue hsaver =>
          obtain ⟨-, hle⟩ := (hdue _).mp ((Bool.and_eq_true _ _).mp hsaver).1
          simp only
          omega
        case isFalse => exact absurd hafter hbefore
    · replace hafter := hfired.stage.symm.trans hafter
      rw [Session.stageNow] at hafter
      split at hafter
      case isTrue hnow =>
        obtain ⟨-, hle⟩ := (hdue _).mp hnow
        simp only
        omega
      case isFalse =>
        split at hafter
        · cases hafter
        · exact absurd hafter hbefore
    · replace hafter := hfired.locked.symm.trans hafter
      rw [hbefore, Bool.false_or, Session.locksNow, Bool.or_eq_true, Bool.and_eq_true] at hafter
      obtain hnow | ⟨hnow, hlockOnBlank⟩ := hafter
      · obtain ⟨-, hle⟩ := (hdue _).mp hnow
        refine .inl ?_
        simp only
        omega
      · exact .inr ⟨hlockOnBlank, hblank' hnow⟩

theorem OnTime.step {u : Nat} {c d : Clocked} {l : Label} (h : c.OnTime u)
    (hstep : c.step l = some d) (hundisturbed : Undisturbed l d) (hcounts : CountsOn c l) :
    d.OnTime u ∧ Timely u c l d := by
  have hsound := h.sound.step hstep
  obtain ⟨hguard, hd⟩ := Option.ite_none_right_eq_some.mp hstep
  obtain rfl := Option.some.inj hd
  have hclock : c.clock ≤ l.now := of_decide_eq_true ((Bool.and_eq_true _ _).mp hguard).1
  obtain ⟨v, hv, huv, -⟩ := h.counted
  obtain ⟨w, hw, hsince⟩ := h.sound.since
  obtain rfl : w = v := Option.some.inj (hsince.symm.trans hv)
  have hu : u ≤ l.now := huv.trans (hw.trans hclock)
  obtain ⟨now, op⟩ := l
  suffices hcase : Counted u (c.session.apply now op) ∧
      Timely u c ⟨now, op⟩ ⟨c.session.apply now op, now⟩ from
    ⟨⟨hsound, hundisturbed.1, hcase.1⟩, hcase.2⟩
  cases op with
  | activity => exact hundisturbed.2.elim
  | prefs settings => exact hundisturbed.2.elim
  | wake => exact hundisturbed.2.elim
  | unlock => exact hundisturbed.2.elim
  | lock =>
      refine ⟨?_, timely_of_ne_fire nofun hsound⟩
      by_cases hlocked : c.session.locked = true
      · rw [Session.apply, Session.setLocked_of_eq hlocked]
        exact h.counted
      · obtain ⟨e, o, heq⟩ := Session.setLocked_of_ne hlocked now
        rw [Session.apply, heq]
        exact h.counted.of_reset hu rfl (fun _ => rfl) id
          (.inr ⟨rfl, .inr rfl, hcounts (Bool.eq_false_of_not_eq_true hlocked)⟩)
  | blank =>
      refine ⟨?_, timely_of_ne_fire nofun hsound⟩
      obtain ⟨e, o, timer, hlock⟩ := Session.lock_if c.session now c.session.settings.lockOnBlank
      have hlit : (if c.session.settings.lockOnBlank then c.session.setLocked now true
          else c.session).Lit := by
        rw [hlock]
        exact h.sound.lit
      obtain ⟨e', o', hblank⟩ := Session.setStage_eq hlit .blank
      rw [Session.apply, Session.blankNow, hblank, hlock]
      refine h.counted.of_reset hu rfl (fun hl => ?_) (fun _ => rfl) ?_
      · show (c.session.locked || _) = true
        rw [hl, Bool.true_or]
      · show (if _ then c.session.since else some now) = _ ∨
          (if _ then c.session.since else some now) = _ ∧ _
        split
        case isTrue => exact .inl rfl
        case isFalse hreset =>
          refine .inr ⟨rfl, .inr ?_, .inr rfl⟩
          show (c.session.locked || c.session.settings.lockOnBlank) = true
          revert hreset
          cases c.session.locked <;> cases c.session.settings.lockOnBlank <;> simp
  | hold client on =>
      refine ⟨?_, timely_of_ne_fire nofun hsound⟩
      by_cases hsame : decide (client ∈ c.session.holds) = on
      · rw [Session.apply, Session.setIdleHold, if_pos hsame]
        exact h.counted
      · rw [Session.apply, Session.setIdleHold, if_neg hsame]
        exact counted_idleInhibitChanged h.counted hu (hcounts.resolve_left hsame) rfl rfl rfl rfl
  | inhibit surface =>
      exact ⟨counted_idleInhibitChanged h.counted hu hcounts rfl rfl rfl rfl,
        timely_of_ne_fire nofun hsound⟩
  | uninhibit surface =>
      exact ⟨counted_idleInhibitChanged h.counted hu hcounts rfl rfl rfl rfl,
        timely_of_ne_fire nofun hsound⟩
  | fire => exact h.fire hclock hcounts hsound

/-- From any state that a run reaches, when the timeouts run from `u` and idling is not
inhibited: in every undisturbed run whose steps leave nothing to come when they set the
reference time, all is done in time and nothing early, and a timer is armed for what is
still to come. -/
theorem timely_of_countsOn (settings : IdleSettings) (boot : Nat) (before : List Label)
    (c : Clocked) (hc : exec step (start settings boot) before = some c) (u : Nat)
    (hu : c.session.since = some u) (hfree : c.session.inhibited = false) (as : List Label)
    (h : Along step (fun c l d => Undisturbed l d ∧ CountsOn c l) c as) :
    c.InTime ∧ Along step (Timely u) c as := by
  have hsound : c.Sound := Along.exec (R := Sound) (P := fun _ _ d => d.Sound)
    (fun _ _ _ hd => hd) (sound_start settings boot)
    (along_of_invariant Sound (fun _ _ _ hs hstep => hs.step hstep) (fun _ hs => hs) before
      (sound_start settings boot)) hc
  refine ⟨hsound.inTime, ?_⟩
  exact Along.imp (OnTime u) (fun _ _ _ hs hstep hP => (hs.step hstep hP.1 hP.2).1)
    (fun _ _ _ hs hstep hP => (hs.step hstep hP.1 hP.2).2)
    ⟨hsound, hfree, u, hu, le_rfl, .inl rfl⟩ h

/-- The default settings: the screensaver, and after it the lock and the displays. -/
theorem timely_of_countsOn_default :
    (start {} 0).InTime ∧
        Along step (Timely 0) (start {} 0) [⟨300000, .fire⟩, ⟨900000, .fire⟩] := by
  refine timely_of_countsOn {} 0 [] _ rfl 0 rfl rfl _ ?_
  refine .cons rfl ⟨⟨rfl, trivial⟩, ?_⟩ (.cons rfl ⟨⟨rfl, trivial⟩, ?_⟩ trivial)
  · exact fun _ hlocks => absurd hlocks (by decide)
  · exact fun _ _ => .inr (.inr (by decide))

/-- The displays should go off after 700 seconds. The lock at 300 sets the reference
time, and the timer at 900 brings no more than the screensaver. -/
theorem blank_late : ¬ ∀ (settings : IdleSettings) (as : List Label),
    Along step (fun _ l d => Undisturbed l d) (start settings 0) as →
      Along step (Timely 0) (start settings 0) as := by
  intro h
  have hrun := h { screensaver := 600, lock := 300, blank := 700 }
    [⟨300000, .fire⟩, ⟨900000, .fire⟩]
    (.cons rfl ⟨rfl, trivial⟩ (.cons rfl ⟨rfl, trivial⟩ trivial))
  have hlast := ((hrun _ rfl).2 _ rfl).1.blanked rfl (by decide) (by decide)
  exact absurd hlast (by decide)

end Clocked
end MindOS.Idle

/-!
## What the idle events tell

Every change of where the session stands is told by an event, and the last event told is
where it stands.
-/

namespace MindOS.Idle.Session

variable {s t u : Session}

/-- The event that was sent last is the one that would be sent now. -/
def Known (s : Session) : Prop := ∀ e, s.lastEvent = some e → e = s.idleJson

/-- The events sent from one session to the next tell of the change. -/
def Tells (s t : Session) : Prop :=
  ∃ sent, t.outbox = s.outbox ++ sent ∧ t.idleJson = sent.getLast?.getD s.idleJson ∧
    t.lastEvent = sent.getLast?.or s.lastEvent

theorem Tells.known (h : s.Tells t) (hs : s.Known) : t.Known := by
  obtain ⟨sent, -, hjson, hlast⟩ := h
  intro e he
  rw [hlast] at he
  rw [hjson]
  cases hsent : sent.getLast? with
  | none =>
      rw [hsent, Option.none_or] at he
      exact hs e he
  | some d =>
      rw [hsent, Option.some_or] at he
      exact (Option.some.inj he).symm

theorem Tells.of_eq (hout : t.outbox = s.outbox) (hjson : t.idleJson = s.idleJson)
    (hlast : t.lastEvent = s.lastEvent) : s.Tells t :=
  ⟨[], by rw [hout, List.append_nil], hjson, hlast⟩

theorem Tells.refl (s : Session) : s.Tells s := .of_eq rfl rfl rfl

theorem Tells.trans (h : s.Tells t) (h' : t.Tells u) : s.Tells u := by
  obtain ⟨sent, hout, hjson, hlast⟩ := h
  obtain ⟨more, hout', hjson', hlast'⟩ := h'
  refine ⟨sent ++ more, by rw [hout', hout, List.append_assoc], ?_, ?_⟩
  · rw [hjson', hjson, List.getLast?_append]
    cases more.getLast? <;> rfl
  · rw [hlast', hlast, List.getLast?_append, Option.or_assoc]

theorem Tells.armIdleTimer (h : s.Tells t) (now : Nat) : s.Tells (t.armIdleTimer now) :=
  h.trans (.of_eq rfl rfl rfl)

theorem tells_since (s : Session) (since : Option Nat) : s.Tells { s with since := since } :=
  .of_eq rfl rfl rfl

theorem tells_idleChanged (h : s.Known) (t : Session) (hout : t.outbox = s.outbox)
    (hlast : t.lastEvent = s.lastEvent) : s.Tells t.idleChanged := by
  unfold idleChanged
  split
  case isTrue heq => exact .of_eq hout (h _ (hlast.symm.trans heq)) hlast
  case isFalse hne => exact ⟨[t.idleJson], by rw [← hout], rfl, rfl⟩

theorem tells_setStage (h : s.Known) (stage : Stage) : s.Tells (s.setStage stage) := by
  unfold setStage
  split
  case isTrue heq => exact .refl s
  case isFalse hne => exact tells_idleChanged h _ rfl rfl

theorem tells_setLocked (h : s.Known) (now : Nat) (locked : Bool) :
    s.Tells (s.setLocked now locked) := by
  unfold setLocked
  split
  case isTrue heq => exact .refl s
  case isFalse hne =>
      have htold := tells_idleChanged h { s with locked := locked, since := some now } rfl rfl
      exact htold.armIdleTimer now

theorem tells_lock_if (h : s.Known) (now : Nat) (c : Bool) :
    s.Tells (if c then s.setLocked now true else s) := by
  cases c with
  | false => exact .refl s
  | true => exact tells_setLocked h now true

theorem tells_wakeIdle (h : s.Known) (now : Nat) : s.Tells (s.wakeIdle now) := by
  have hsince := tells_since s (some now)
  exact (hsince.trans (tells_setStage (hsince.known h) .active)).armIdleTimer now

theorem tells_blankNow (h : s.Known) (now : Nat) : s.Tells (s.blankNow now) := by
  have hlock := tells_lock_if h now s.settings.lockOnBlank
  exact (hlock.trans (tells_setStage (hlock.known h) .blank)).armIdleTimer now

theorem tells_idleInhibitChanged (h : s.Known) (t : Session) (hout : t.outbox = s.outbox)
    (hlast : t.lastEvent = s.lastEvent) (now : Nat) : s.Tells (t.idleInhibitChanged now) := by
  refine tells_idleChanged h _ ?_ ?_
  · show (if t.inhibited then t else { t with since := some now }).outbox = s.outbox
    split
    · exact hout
    · exact hout
  · show (if t.inhibited then t else { t with since := some now }).lastEvent = s.lastEvent
    split
    · exact hlast
    · exact hlast

theorem tells_idleTick (h : s.Known) (now : Nat) : s.Tells (s.idleTick now) := by
  unfold idleTick
  by_cases hinhibited : s.inhibited = true
  · rw [if_pos hinhibited]
    exact (tells_since s (some now)).armIdleTimer now
  · rw [if_neg hinhibited]
    have hlock := tells_lock_if h now (s.due now s.settings.lock)
    refine Tells.armIdleTimer (hlock.trans ?_) now
    generalize (if s.due now s.settings.lock then s.setLocked now true else s) = l at hlock
    have hl := hlock.known h
    by_cases hblank : s.due now s.settings.blank = true
    · rw [if_pos hblank]
      have hagain := tells_lock_if hl now s.settings.lockOnBlank
      exact hagain.trans (tells_setStage (hagain.known hl) .blank)
    · rw [if_neg hblank]
      split
      · exact tells_setStage hl .screensaver
      · exact .refl l

theorem tells_apply (h : s.Known) (now : Nat) (op : Op) : s.Tells (s.apply now op) := by
  cases op with
  | activity =>
      have hsince := tells_since s (some now)
      refine Tells.armIdleTimer (hsince.trans ?_) now
      split
      · exact tells_setStage (hsince.known h) .active
      · exact .refl _
  | prefs settings => exact tells_idleChanged h _ rfl rfl
  | wake => exact tells_wakeIdle h now
  | unlock =>
      have hunlocked := tells_setLocked h now false
      exact hunlocked.trans (tells_wakeIdle (hunlocked.known h) now)
  | lock => exact tells_setLocked h now true
  | blank => exact tells_blankNow h now
  | hold client on =>
      show s.Tells (s.setIdleHold now client on)
      unfold setIdleHold
      split
      · exact .refl s
      · exact tells_idleInhibitChanged h
          { s with holds := if on then insert client s.holds else s.holds.erase client } rfl rfl now
  | inhibit surface =>
      exact tells_idleInhibitChanged h { s with inhibitors := insert surface s.inhibitors } rfl rfl
        now
  | uninhibit surface =>
      exact tells_idleInhibitChanged h { s with inhibitors := s.inhibitors.erase surface } rfl rfl
        now
  | fire =>
      have htimer : s.Tells { s with timer := none } := .of_eq rfl rfl rfl
      exact htimer.trans (tells_idleTick (htimer.known h) now)

theorem known_start (settings : IdleSettings) (now : Nat) : (start settings now).Known := by
  intro e he
  cases he

end MindOS.Idle.Session
