import MindOS.Transition
import Mathlib.Logic.Function.Basic

/-!
# Presses and releases of the keys

A key that is pressed is kept by the compositor or forwarded to the client with the
keyboard. Whether a press is kept depends on much: the screen had to be woken, the Mind
bar is open, the key is a shortcut, a panel has the keyboard. Its release is kept if the
press was noted as suppressed, and if the screen has to be woken then.
-/

namespace MindOS.Keys

open Transition

abbrev Keycode := Nat

abbrev Client := Nat

/-- What the filter reads of a press. -/
structure Press where
  resetDisplays : Bool := false
  escape : Bool := false
  /-- The windows are switched through. -/
  cycleActive : Bool := false
  /-- Super is held, or Control and Alt: not for the Mind bar. -/
  chord : Bool := false
  shortcut : Bool := false
  /-- The window with the keyboard inhibits shortcuts. -/
  inhibited : Bool := false

structure Keyboard where
  suppressedKeys : List Keycode := []
  /-- The screensaver is up, or the displays are off. -/
  idling : Bool := false
  barOpen : Bool := false
  /-- The exclusive panel that takes the keys. -/
  panel : Option Client := none
  focus : Option Client := none

/-- Whether the filter keeps a press. -/
def Keyboard.intercepts (k : Keyboard) (p : Press) : Bool :=
  if k.panel.isSome then p.resetDisplays
  else
    p.resetDisplays || (p.cycleActive && p.escape && !p.inhibited) || (k.barOpen && !p.chord) ||
      (!p.inhibited && p.shortcut)

/-- An exclusive panel takes the keyboard with each key. -/
def Keyboard.takeFocus (k : Keyboard) : Keyboard := { k with focus := k.panel.or k.focus }

/-- A press, and whether it is forwarded. -/
def Keyboard.press (k : Keyboard) (code : Keycode) (p : Press) : Keyboard × Bool :=
  if k.idling then
    ({ k with idling := false, suppressedKeys := code :: k.suppressedKeys }, false)
  else if k.intercepts p then
    ({ k.takeFocus with suppressedKeys := code :: k.suppressedKeys }, false)
  else (k.takeFocus, true)

/-- A release, and whether it is forwarded. -/
def Keyboard.release (k : Keyboard) (code : Keycode) : Keyboard × Bool :=
  let kept := k.suppressedKeys.filter (· ≠ code)
  if k.idling then ({ k with idling := false, suppressedKeys := kept }, false)
  else if k.suppressedKeys.contains code then ({ k.takeFocus with suppressedKeys := kept }, false)
  else (k.takeFocus, true)

/-! ## What becomes of the presses -/

/-- What became of the press of a key that is down. -/
inductive Fate where
  | kept
  /-- Forwarded to a client that has had the keyboard since. -/
  | given (c : Client)
  /-- Forwarded, but to nobody or to what has lost the keyboard. -/
  | gone
  deriving DecidableEq

/-- The keyboard, with the keys that are down and what was forwarded last. -/
structure Watched where
  keyboard : Keyboard := {}
  down : Keycode → Option Fate := fun _ => none
  /-- The client that a key was forwarded to, if it was forwarded. -/
  forwarded : Option (Option Client) := none

inductive Event where
  | press (code : Keycode) (p : Press)
  | release (code : Keycode)
  /-- The screensaver starts or ends. -/
  | idle (on : Bool)
  | bar (opened : Bool)
  | panel (p : Option Client)
  | focus (c : Option Client)

/-- What a press is to a client that may have lost the keyboard. -/
def Fate.after (focus : Option Client) : Fate → Fate
  | .given c => if focus = some c then .given c else .gone
  | fate => fate

namespace Watched

/-- The keyboard changes; what was forwarded to another client than has it now is gone. -/
def follow (s : Watched) (k : Keyboard) (forwarded : Option (Option Client)) : Watched :=
  { keyboard := k
    down := fun code => (s.down code).map (Fate.after k.focus)
    forwarded := forwarded }

/-- What is forwarded of a key goes to what has the keyboard. -/
def forwardedTo (k : Keyboard) (forward : Bool) : Option (Option Client) :=
  if forward then some k.focus else none

/-- What becomes of a press that was forwarded so. -/
def fate : Option (Option Client) → Fate
  | none => .kept
  | some none => .gone
  | some (some c) => .given c

/-- What a press becomes. -/
def pressFate (s : Watched) (code : Keycode) (p : Press) : Fate :=
  let out := s.keyboard.press code p
  fate (forwardedTo out.1 out.2)

def pressed (s : Watched) (code : Keycode) (p : Press) : Watched :=
  let out := s.keyboard.press code p
  let t := s.follow out.1 (forwardedTo out.1 out.2)
  { t with down := Function.update t.down code (some (s.pressFate code p)) }

def released (s : Watched) (code : Keycode) : Watched :=
  let out := s.keyboard.release code
  let t := s.follow out.1 (forwardedTo out.1 out.2)
  { t with down := Function.update t.down code none }

/-- Keys are pressed when they are up and released when they are down. -/
def step (s : Watched) : Event → Option Watched
  | .press code p => if (s.down code).isSome then none else some (s.pressed code p)
  | .release code => if (s.down code).isNone then none else some (s.released code)
  | .idle on => some (s.follow { s.keyboard with idling := on } none)
  | .bar opened => some (s.follow { s.keyboard with barOpen := opened } none)
  | .panel p => some (s.follow { s.keyboard with panel := p } none)
  | .focus c => some (s.follow { s.keyboard with focus := c } none)

/-- The release of a key goes to the client that got its press and has the keyboard still,
and to none if the press was kept. -/
def Paired (s : Watched) : Event → Watched → Prop
  | .release code, t =>
      (∀ c, s.down code = some (.given c) → t.keyboard.focus = some c →
        t.forwarded = some (some c)) ∧
      (s.down code = some .kept → t.forwarded = none)
  | _, _ => True

/-- A key that a client has got the press of does not wake the screen by its release. -/
def WakesWithNone (s : Watched) : Event → Prop
  | .release code => s.keyboard.idling = true → ∀ c, s.down code ≠ some (.given c)
  | _ => True

/-- The suppressed keys are those whose press was kept, and what a client has got a press
of is what has the keyboard. -/
structure Inv (s : Watched) : Prop where
  suppressed : ∀ code, code ∈ s.keyboard.suppressedKeys ↔ s.down code = some .kept
  given : ∀ code c, s.down code = some (.given c) → s.keyboard.focus = some c

end Watched

/-! ## The filter -/

theorem Keyboard.press_suppressed (k : Keyboard) (code : Keycode) (p : Press) :
    (k.press code p).1.suppressedKeys =
      if (k.press code p).2 then k.suppressedKeys else code :: k.suppressedKeys := by
  unfold press
  by_cases hidle : k.idling = true
  · rw [if_pos hidle]
    rfl
  · rw [if_neg hidle]
    by_cases hkeep : k.intercepts p = true
    · rw [if_pos hkeep]
      rfl
    · rw [if_neg hkeep]
      rfl

theorem Keyboard.mem_release_suppressed (k : Keyboard) (code other : Keycode) :
    other ∈ (k.release code).1.suppressedKeys ↔ other ∈ k.suppressedKeys ∧ other ≠ code := by
  unfold release
  by_cases hidle : k.idling = true
  · simp [hidle]
  · by_cases hkept : code ∈ k.suppressedKeys
    · simp [hidle, hkept]
    · have hother : other ∈ k.suppressedKeys → other ≠ code := fun h he => hkept (he ▸ h)
      simpa [hidle, hkept, Keyboard.takeFocus] using hother

theorem Keyboard.release_forwards (k : Keyboard) (code : Keycode) :
    (k.release code).2 = true ↔ k.idling = false ∧ code ∉ k.suppressedKeys := by
  unfold release
  by_cases hidle : k.idling = true
  · simp [hidle]
  · by_cases hkept : code ∈ k.suppressedKeys <;> simp [hidle, hkept]

theorem Keyboard.release_focus_idling (k : Keyboard) (code : Keycode) (h : k.idling = true) :
    (k.release code).1.focus = k.focus := by
  unfold release
  rw [if_pos h]

/-! ## What a step leaves of the presses -/

@[simp] theorem Fate.after_eq_kept {focus : Option Client} {fate : Fate} :
    fate.after focus = .kept ↔ fate = .kept := by
  cases fate with
  | kept => simp [Fate.after]
  | given c => by_cases h : focus = some c <;> simp [Fate.after, h]
  | gone => simp [Fate.after]

@[simp] theorem Fate.after_eq_given {focus : Option Client} {fate : Fate} {c : Client} :
    fate.after focus = .given c ↔ fate = .given c ∧ focus = some c := by
  cases fate with
  | kept => simp [Fate.after]
  | given d =>
      by_cases h : focus = some d
      · simp only [Fate.after, if_pos h, Fate.given.injEq]
        constructor
        · rintro rfl
          exact ⟨rfl, h⟩
        · exact And.left
      · simp only [Fate.after, if_neg h, Fate.given.injEq, reduceCtorEq, false_iff, not_and]
        rintro rfl
        exact h
  | gone => simp [Fate.after]

namespace Watched

variable {s t : Watched} {k : Keyboard} {forwarded : Option (Option Client)}

theorem follow_kept {code : Keycode} :
    (s.follow k forwarded).down code = some .kept ↔ s.down code = some .kept := by
  simp [follow]

theorem follow_given {code : Keycode} {c : Client} :
    (s.follow k forwarded).down code = some (.given c) ↔
      s.down code = some (.given c) ∧ k.focus = some c := by
  cases hdown : s.down code <;> simp [follow, hdown]

theorem Inv.start (k : Keyboard) (h : k.suppressedKeys = []) : Inv { keyboard := k } where
  suppressed := by simp [h]
  given := by simp

theorem Inv.follow (h : s.Inv) (hk : k.suppressedKeys = s.keyboard.suppressedKeys) :
    (s.follow k forwarded).Inv where
  suppressed code := by
    rw [follow_kept, ← h.suppressed code, ← hk]
    rfl
  given code c hdown := (follow_given.mp hdown).2

theorem fate_forwardedTo_eq_kept {forward : Bool} :
    fate (forwardedTo k forward) = .kept ↔ forward = false := by
  cases forward with
  | false => simp [forwardedTo, fate]
  | true => cases hfocus : k.focus <;> simp [forwardedTo, fate, hfocus]

theorem focus_of_fate_forwardedTo {forward : Bool} {c : Client}
    (h : fate (forwardedTo k forward) = .given c) : k.focus = some c := by
  cases forward with
  | false => simp [forwardedTo, fate] at h
  | true =>
      cases hfocus : k.focus with
      | none => simp [forwardedTo, fate, hfocus] at h
      | some d => simpa [forwardedTo, fate, hfocus] using h

theorem pressed_down_self {code : Keycode} {p : Press} :
    (s.pressed code p).down code = some (s.pressFate code p) :=
  Function.update_self ..

theorem pressed_down_of_ne {code other : Keycode} {p : Press} (h : other ≠ code) :
    (s.pressed code p).down other = (s.follow (s.keyboard.press code p).1 none).down other :=
  Function.update_of_ne h ..

theorem released_down_self {code : Keycode} : (s.released code).down code = none :=
  Function.update_self ..

theorem released_down_of_ne {code other : Keycode} (h : other ≠ code) :
    (s.released code).down other = (s.follow (s.keyboard.release code).1 none).down other :=
  Function.update_of_ne h ..

theorem Inv.pressed {code : Keycode} (p : Press) (h : s.Inv) (hup : s.down code = none) :
    (s.pressed code p).Inv := by
  have hsuppressed : (s.pressed code p).keyboard.suppressedKeys = _ :=
    s.keyboard.press_suppressed code p
  constructor
  · intro other
    rw [hsuppressed]
    by_cases hother : other = code
    · subst other
      have hnot : code ∉ s.keyboard.suppressedKeys := by simp [h.suppressed, hup]
      rw [pressed_down_self, Option.some.injEq, pressFate, fate_forwardedTo_eq_kept]
      cases (s.keyboard.press code p).2 <;> simp [hnot]
    · rw [pressed_down_of_ne hother, follow_kept, ← h.suppressed other]
      cases (s.keyboard.press code p).2 <;> simp [hother]
  · intro other c hdown
    by_cases hother : other = code
    · subst other
      rw [pressed_down_self] at hdown
      exact focus_of_fate_forwardedTo (Option.some.inj hdown)
    · rw [pressed_down_of_ne hother] at hdown
      exact (follow_given.mp hdown).2

theorem Inv.released (h : s.Inv) (code : Keycode) : (s.released code).Inv := by
  constructor
  · intro other
    have hmem : other ∈ (s.released code).keyboard.suppressedKeys ↔ _ :=
      s.keyboard.mem_release_suppressed code other
    rw [hmem]
    by_cases hother : other = code
    · subst other
      simp [released_down_self]
    · rw [released_down_of_ne hother, follow_kept, ← h.suppressed other]
      simp [hother]
  · intro other c hdown
    by_cases hother : other = code
    · subst other
      simp [released_down_self] at hdown
    · rw [released_down_of_ne hother] at hdown
      exact (follow_given.mp hdown).2

theorem Inv.step {e : Event} (h : s.Inv) (ht : step s e = some t) : t.Inv := by
  cases e with
  | press code p =>
      obtain ⟨hup, ht⟩ := Option.ite_none_left_eq_some.mp ht
      exact Option.some.inj ht ▸ h.pressed p (Option.not_isSome_iff_eq_none.mp hup)
  | release code =>
      obtain ⟨-, ht⟩ := Option.ite_none_left_eq_some.mp ht
      exact Option.some.inj ht ▸ h.released code
  | idle on => exact Option.some.inj ht ▸ h.follow rfl
  | bar opened => exact Option.some.inj ht ▸ h.follow rfl
  | panel p => exact Option.some.inj ht ▸ h.follow rfl
  | focus c => exact Option.some.inj ht ▸ h.follow rfl

/-! ## Releases -/

theorem released_forwarded {code : Keycode} :
    (s.released code).forwarded =
      forwardedTo (s.released code).keyboard (s.keyboard.release code).2 := rfl

theorem released_paired_iff (h : s.Inv) (code : Keycode) :
    Paired s (.release code) (s.released code) ↔ WakesWithNone s (.release code) := by
  have hforwards := s.keyboard.release_forwards code
  constructor
  · rintro ⟨hgiven, -⟩ hidle c hc
    have hfocus : (s.released code).keyboard.focus = some c :=
      (s.keyboard.release_focus_idling code hidle).trans (h.given code c hc)
    have hkeeps : (s.keyboard.release code).2 = false := by
      rw [Bool.eq_false_iff, Ne, hforwards, hidle]
      simp
    have hto := hgiven c hc hfocus
    rw [released_forwarded, hkeeps] at hto
    simp [forwardedTo] at hto
  · intro hwakes
    constructor
    · intro c hc hfocus
      have hon : s.keyboard.idling = false := by
        rw [Bool.eq_false_iff]
        exact fun hidle => hwakes hidle c hc
      have hnot : code ∉ s.keyboard.suppressedKeys := by simp [h.suppressed, hc]
      rw [released_forwarded, hforwards.mpr ⟨hon, hnot⟩]
      simp [forwardedTo, hfocus]
    · intro hkept
      have hkeeps : (s.keyboard.release code).2 = false := by
        rw [Bool.eq_false_iff, Ne, hforwards]
        exact fun hon => hon.2 ((h.suppressed code).mpr hkept)
      rw [released_forwarded, hkeeps]
      rfl

theorem paired_iff {e : Event} (h : s.Inv) (ht : step s e = some t) :
    Paired s e t ↔ WakesWithNone s e := by
  cases e with
  | release code =>
      obtain ⟨-, ht⟩ := Option.ite_none_left_eq_some.mp ht
      exact Option.some.inj ht ▸ released_paired_iff h code
  | press code p => rfl
  | idle on => rfl
  | bar opened => rfl
  | panel p => rfl
  | focus c => rfl

/-- From a keyboard with no key down, every release of a run goes the way of its press if
and only if none that a client is owed wakes the screen. -/
theorem releases_along_iff (k : Keyboard) (hk : k.suppressedKeys = []) (events : List Event) :
    Along step Paired { keyboard := k } events ↔
      Along step (fun s e _ => WakesWithNone s e) { keyboard := k } events :=
  along_iff Inv (fun _ _ _ h ht _ => h.step ht) (fun _ _ _ h ht => paired_iff h ht) events
    (Inv.start k hk)

/-- A key is pressed and released in a window while the Mind bar opens and closes. -/
theorem releases_along_iff_typing :
    Along step Paired { keyboard := { focus := some 1 } }
        [.press 30 {}, .release 30, .bar true, .press 31 {}, .bar false, .release 31] ↔
      Along step (fun s e _ => WakesWithNone s e) { keyboard := { focus := some 1 } }
        [.press 30 {}, .release 30, .bar true, .press 31 {}, .bar false, .release 31] :=
  releases_along_iff { focus := some 1 } rfl _

/-- A key is held in a window until the screensaver starts: its release wakes the screen,
and the window is not told of it. -/
theorem held_key_stays_down :
    ¬ ∀ (k : Keyboard) (events : List Event), k.suppressedKeys = [] →
      Along step Paired { keyboard := k } events := by
  intro hall
  obtain ⟨-, hidle⟩ := hall { focus := some 1 } [.press 30 {}, .idle true, .release 30] rfl _ rfl
  obtain ⟨-, hrelease⟩ := hidle _ rfl
  obtain ⟨⟨hgiven, -⟩, -⟩ := hrelease _ rfl
  have hto := hgiven 1 rfl rfl
  exact absurd hto (by decide)

end Watched

end MindOS.Keys
