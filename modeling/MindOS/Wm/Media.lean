import MindOS.Text.Basic
import MindOS.Transition

/-!
# Media keys that repeat

The compositor sends presses and releases of media keys through a queue to a worker, which
runs a command for each press and runs it again while the key is held. Both sides keep
their own idea of the key that is held: the compositor the key pressed last, the worker
what it repeats. A command takes its time, so that presses and releases come in while
it runs.
-/

namespace MindOS.Media

open Transition

abbrev Key := Nat

inductive Action where
  | volumeUp
  | volumeDown
  | mute
  | micMute
  | brightnessUp
  | brightnessDown
  | playPause
  | pause
  | stop
  | next
  | previous
  deriving DecidableEq

def Action.repeats : Action → Bool
  | .volumeUp | .volumeDown | .brightnessUp | .brightnessDown => true
  | _ => false

/-- A press: the key, what it does and the output that shows it. -/
structure Press where
  key : Key
  action : Action
  output : Option Text
  deriving DecidableEq

inductive Input where
  | press (p : Press)
  | release (key : Key)

/-- The compositor's side, the queue, and the worker. Times are in milliseconds. -/
structure MediaKeys where
  held : Option Key := none
  queue : List Input := []
  /-- The compositor's side has gone. -/
  closed : Bool := false
  now : Nat := 0
  /-- What the worker repeats, and when. -/
  repeating : Option (Press × Nat) := none
  /-- The command that runs, and the time until it is repeated. -/
  running : Option (Press × Nat) := none
  /-- The worker has ended. -/
  ended : Bool := false

inductive Label where
  | press (p : Press)
  | release (key : Key)
  | stop
  | hangup
  | elapse (ms : Nat)
  /-- The worker takes what is next in the queue, or finds that nothing can come. -/
  | receive
  /-- The time is up and nothing has come. -/
  | timeout
  /-- The command has run, and the compositor takes its feedback or not. -/
  | finish (success heard : Bool)

namespace MediaKeys

variable {s t : MediaKeys}

def send (s : MediaKeys) (input : Input) : MediaKeys :=
  if s.ended then s else { s with queue := s.queue ++ [input] }

def press (s : MediaKeys) (p : Press) : MediaKeys := { s with held := some p.key }.send (.press p)

def release (s : MediaKeys) (key : Key) : MediaKeys :=
  if s.held = some key then { s with held := none }.send (.release key) else s

def stop (s : MediaKeys) : MediaKeys :=
  match s.held with
  | some key => s.release key
  | none => s

/-- The worker ends, and with it what is in the queue. -/
def finishWorker (s : MediaKeys) : MediaKeys :=
  { s with queue := [], repeating := none, running := none, ended := true }

def receive (s : MediaKeys) : Option MediaKeys :=
  if s.ended ∨ s.running.isSome then none
  else
    match s.queue with
    | .press p :: queue => some { s with queue := queue, running := some (p, 400) }
    | .release key :: queue =>
        some { s with queue := queue, repeating := s.repeating.filter fun r => r.1.key ≠ key }
    | [] => if s.closed then some s.finishWorker else none

def timeout (s : MediaKeys) : Option MediaKeys :=
  if s.ended ∨ s.running.isSome ∨ s.closed ∨ s.queue ≠ [] then none
  else
    match s.repeating with
    | some (p, deadline) =>
        if deadline ≤ s.now then some { s with running := some (p, 80) } else none
    | none => none

def finish (s : MediaKeys) (success heard : Bool) : Option MediaKeys :=
  s.running.map fun (p, delay) =>
    if heard then
      { s with
        running := none
        repeating := if success && p.action.repeats then some (p, s.now + delay) else none }
    else s.finishWorker

def step (s : MediaKeys) : Label → Option MediaKeys
  | .press p => if s.closed then none else some (s.press p)
  | .release key => if s.closed then none else some (s.release key)
  | .stop => if s.closed then none else some s.stop
  | .hangup => some { s with closed := true }
  | .elapse ms => some { s with now := s.now + ms }
  | .receive => s.receive
  | .timeout => s.timeout
  | .finish success heard => s.finish success heard

/-! ### The key pressed last -/

/-- The press that was last, while its key is held. -/
def follow (down : Option Press) : Label → Option Press
  | .press p => some p
  | .release key => down.filter fun p => p.key ≠ key
  | .stop => none
  | _ => down

def down (as : List Label) : Option Press := as.foldl follow none

/-- The press is the last one, and its key has not been released since. -/
def LastDown (as : List Label) (p : Press) : Prop :=
  ∃ before after, as = before ++ .press p :: after ∧
    ∀ a ∈ after, (∀ q, a ≠ .press q) ∧ a ≠ .release p.key ∧ a ≠ .stop

/-- Behind every press the key is released, or everything is. -/
def AllReleased (as : List Label) : Prop :=
  ∀ before p after, as = before ++ .press p :: after →
    ∃ a ∈ after, a = .release p.key ∨ a = .stop

theorem down_concat (as : List Label) (a : Label) : down (as ++ [a]) = follow (down as) a := by
  rw [down, down, List.foldl_append]
  rfl

theorem follow_eq_some {d : Option Press} {a : Label} {p : Press} (h : follow d a = some p) :
    a = .press p ∨ d = some p ∧ (∀ q, a ≠ .press q) ∧ a ≠ .release p.key ∧ a ≠ .stop := by
  cases a with
  | press q =>
      cases h
      exact .inl rfl
  | release key =>
      obtain ⟨hd, hkey⟩ := Option.filter_eq_some_iff.mp h
      refine .inr ⟨hd, nofun, fun heq => ?_, nofun⟩
      cases heq
      simp at hkey
  | stop => cases h
  | _ => exact .inr ⟨h, nofun, nofun, nofun⟩

theorem lastDown_of_down {as : List Label} {p : Press} (h : down as = some p) :
    LastDown as p := by
  induction as using List.reverseRecOn with
  | nil => cases h
  | append_singleton as a ih =>
      rw [down_concat] at h
      obtain rfl | ⟨hd, hquiet⟩ := follow_eq_some h
      · exact ⟨as, [], rfl, nofun⟩
      · obtain ⟨before, after, rfl, hafter⟩ := ih hd
        refine ⟨before, after ++ [a], by simp, fun b hb => ?_⟩
        obtain hb | hb := List.mem_append.mp hb
        · exact hafter b hb
        · obtain rfl := List.mem_singleton.mp hb
          exact hquiet

theorem down_of_allReleased {as : List Label} (h : AllReleased as) : down as = none := by
  by_contra hsome
  obtain ⟨p, hp⟩ := Option.ne_none_iff_exists'.mp hsome
  obtain ⟨before, after, heq, hafter⟩ := lastDown_of_down hp
  obtain ⟨a, ha, hreleased⟩ := h before p after heq
  obtain ⟨-, hrelease, hstop⟩ := hafter a ha
  exact hreleased.elim hrelease hstop

/-! ### What the worker will repeat -/

/-- What the worker repeats when it has taken an input. -/
def hear (job : Option Press) : Input → Option Press
  | .press p => some p
  | .release key => job.filter fun p => p.key ≠ key

/-- What the worker runs, or else repeats. -/
def job (s : MediaKeys) : Option Press := (s.running.map Prod.fst).or (s.repeating.map Prod.fst)

theorem foldl_hear_none {queue : List Input} {p : Press} (h : queue.foldl hear none = some p)
    (job : Option Press) : queue.foldl hear job = some p := by
  induction queue generalizing job with
  | nil => cases h
  | cons input queue ih =>
      cases input with
      | press q => exact h
      | release key => exact ih h _

/-- What the worker will repeat, once it has heard everything, is the key that is held. -/
structure Agrees (as : List Label) (s : MediaKeys) : Prop where
  held : s.held = (down as).map Press.key
  heard : ∀ p, s.queue.foldl hear s.job = some p → down as = some p
  ended : s.ended = true → s.queue = [] ∧ s.job = none

namespace Agrees

variable {as : List Label} {a : Label}

theorem of_worker (h : Agrees as s) (ha : follow (down as) a = down as) (hheld : t.held = s.held)
    (hheard : ∀ p, t.queue.foldl hear t.job = some p → s.queue.foldl hear s.job = some p)
    (hended : t.ended = true → t.queue = [] ∧ t.job = none) : Agrees (as ++ [a]) t := by
  rw [← down_concat] at ha
  refine ⟨?_, fun p hp => ?_, hended⟩
  · rw [hheld, ha]
    exact h.held
  · rw [ha]
    exact h.heard p (hheard p hp)

theorem of_send (h : Agrees as s) {input : Input}
    (hheard : ∀ p, hear (s.queue.foldl hear s.job) input = some p →
      follow (down as) a = some p) :
    Agrees (as ++ [a])
      ({ s with held := (follow (down as) a).map Press.key }.send input) := by
  rw [← down_concat] at hheard ⊢
  rw [send]
  split
  case isTrue hended =>
    obtain ⟨hqueue, hjob⟩ := h.ended hended
    refine ⟨rfl, fun p hp => ?_, h.ended⟩
    have hnone : s.queue.foldl hear s.job = none := by
      rw [hqueue, hjob]
      rfl
    cases hp.symm.trans hnone
  case isFalse hended =>
    refine ⟨rfl, fun p hp => hheard p ?_, fun htrue => absurd htrue hended⟩
    change (s.queue ++ [input]).foldl hear s.job = some p at hp
    rwa [List.foldl_append] at hp

theorem release (h : Agrees as s) (key : Key)
    (ha : follow (down as) a = (down as).filter fun p => p.key ≠ key) :
    Agrees (as ++ [a]) (s.release key) := by
  rw [MediaKeys.release]
  split
  case isTrue hheld =>
    rw [h.held] at hheld
    obtain ⟨p, hp, hkey⟩ := Option.map_eq_some_iff.mp hheld
    have hnone : follow (down as) a = none := by
      rw [ha, hp]
      simp [hkey]
    have hheard : ∀ q, hear (s.queue.foldl hear s.job) (.release key) = some q →
        follow (down as) a = some q := by
      intro q hq
      obtain ⟨hq, hother⟩ := Option.filter_eq_some_iff.mp hq
      rw [h.heard q hq] at hp
      cases hp
      simp [hkey] at hother
    have hsent := h.of_send hheard
    rwa [hnone] at hsent
  case isFalse hheld =>
    refine h.of_worker ?_ rfl (fun _ => id) h.ended
    rw [ha]
    rw [h.held] at hheld
    cases hd : down as with
    | none => rfl
    | some p =>
        have hkey : p.key ≠ key := fun heq => hheld (by rw [hd, ← heq]; rfl)
        simp [hkey]

theorem finishWorker (h : Agrees as s) (ha : follow (down as) a = down as) :
    Agrees (as ++ [a]) s.finishWorker :=
  h.of_worker ha rfl nofun fun _ => ⟨rfl, rfl⟩

theorem receive (h : Agrees as s) (hstep : s.receive = some t) :
    Agrees (as ++ [.receive]) t := by
  rw [MediaKeys.receive] at hstep
  split at hstep
  case isTrue => cases hstep
  case isFalse hwaits =>
    obtain ⟨hended, hrunning⟩ := not_or.mp hwaits
    have hnone : s.running = none := by simpa using hrunning
    have hjob : s.job = s.repeating.map Prod.fst := by
      rw [job, hnone]
      rfl
    split at hstep
    case h_1 p queue hqueue =>
      cases hstep
      refine h.of_worker rfl rfl (fun q hq => ?_) fun htrue => absurd htrue hended
      rw [hqueue]
      exact hq
    case h_2 key queue hqueue =>
      cases hstep
      refine h.of_worker rfl rfl (fun q hq => ?_) fun htrue => absurd htrue hended
      have hsame : hear s.job (.release key) =
          (s.repeating.filter fun r => r.1.key ≠ key).map Prod.fst := by
        rw [hjob, hear, Option.filter_map]
        rfl
      rw [hqueue, List.foldl_cons, hsame]
      change queue.foldl hear (s.running.map Prod.fst |>.or _) = some q at hq
      rwa [hnone] at hq
    case h_3 =>
      split at hstep
      case isTrue =>
        cases hstep
        exact h.finishWorker rfl
      case isFalse => cases hstep

theorem finish (h : Agrees as s) {success heard : Bool} (hstep : s.finish success heard = some t) :
    Agrees (as ++ [.finish success heard]) t := by
  obtain ⟨⟨p, delay⟩, hrunning, rfl⟩ := Option.map_eq_some_iff.mp hstep
  have hjob : s.job = some p := by
    rw [job, hrunning]
    rfl
  cases heard with
  | false => exact h.finishWorker rfl
  | true =>
      refine h.of_worker rfl rfl (fun q hq => ?_) fun htrue => ?_
      · rw [hjob]
        -- the command is repeated, or nothing is
        by_cases hrepeats : (success && p.action.repeats) = true
        · simpa [job, hrepeats] using hq
        · exact foldl_hear_none (by simpa [job, hrepeats] using hq) (some p)
      · cases hjob.symm.trans (h.ended htrue).2

end Agrees

theorem timeout_cases (h : s.timeout = some t) : s.ended = false ∧ s.queue = [] ∧
    ∃ p deadline, s.running = none ∧ s.repeating = some (p, deadline) ∧ deadline ≤ s.now ∧
      t = { s with running := some (p, 80) } := by
  rw [timeout] at h
  split at h
  case isTrue => cases h
  case isFalse hready =>
    simp only [not_or, Bool.not_eq_true, Option.isSome_eq_false_iff, Option.isNone_iff_eq_none,
      not_not] at hready
    obtain ⟨hended, hrunning, -, hqueue⟩ := hready
    split at h
    case h_1 p deadline hrepeating =>
      split at h
      case isTrue hdue =>
        cases h
        exact ⟨hended, hqueue, p, deadline, hrunning, hrepeating, hdue, rfl⟩
      case isFalse => cases h
    case h_2 => cases h

theorem Agrees.step {as : List Label} {a : Label} (h : Agrees as s) (hstep : s.step a = some t) :
    Agrees (as ++ [a]) t := by
  cases a with
  | press p =>
      rw [MediaKeys.step] at hstep
      split at hstep
      case isTrue => cases hstep
      case isFalse =>
        cases hstep
        exact h.of_send (a := .press p) fun q hq => hq
  | release key =>
      rw [MediaKeys.step] at hstep
      split at hstep
      case isTrue => cases hstep
      case isFalse =>
        cases hstep
        exact h.release key rfl
  | stop =>
      rw [MediaKeys.step] at hstep
      split at hstep
      case isTrue => cases hstep
      case isFalse =>
        cases hstep
        have hheld := h.held
        rw [MediaKeys.stop]
        cases hd : down as with
        | none =>
            rw [hd] at hheld
            rw [hheld]
            exact h.of_worker hd.symm rfl (fun _ => id) h.ended
        | some p =>
            rw [hd] at hheld
            rw [hheld]
            apply h.release p.key
            simp [follow, hd, Option.filter]
  | hangup =>
      cases hstep
      exact h.of_worker rfl rfl (fun _ => id) h.ended
  | elapse ms =>
      cases hstep
      exact h.of_worker rfl rfl (fun _ => id) h.ended
  | receive => exact h.receive hstep
  | timeout =>
      obtain ⟨hended, -, p, deadline, hrunning, hrepeating, -, rfl⟩ := timeout_cases hstep
      refine h.of_worker rfl rfl (fun q hq => ?_) fun htrue => ?_
      · rwa [job, hrunning, hrepeating]
      · cases hended.symm.trans htrue
  | finish success heard => exact h.finish hstep

theorem agrees_exec {as : List Label} (h : exec step {} as = some s) : Agrees as s := by
  induction as using List.reverseRecOn generalizing s with
  | nil =>
      cases h
      exact ⟨rfl, nofun, nofun⟩
  | append_singleton as a ih =>
      rw [exec_append] at h
      obtain ⟨r, hr, hlast⟩ := Option.bind_eq_some_iff.mp h
      obtain ⟨u, hu, hsame⟩ := Option.bind_eq_some_iff.mp hlast
      cases hsame
      exact (ih hr).step hu

/-- The worker repeats only for the key pressed last, while that has not been released; and
when all keys have been released and the queue is empty nothing will be repeated. -/
theorem repeats_only_held {as : List Label} (h : exec step {} as = some s) :
    (∀ t p delay, s.step .timeout = some t → t.running = some (p, delay) → LastDown as p) ∧
      (AllReleased as → s.queue = [] → s.repeating = none ∧ s.running = none) := by
  have hagrees := agrees_exec h
  constructor
  · intro t p delay hstep hrunning
    obtain ⟨-, hqueue, q, deadline, hidle, hrepeating, -, rfl⟩ := timeout_cases hstep
    cases hrunning
    have hjob : s.job = some p := by
      rw [job, hidle, hrepeating]
      rfl
    exact lastDown_of_down (hagrees.heard p (by rw [hqueue, hjob]; rfl))
  · intro hreleased hqueue
    have hjob : s.job = none := by
      by_contra hsome
      obtain ⟨p, hp⟩ := Option.ne_none_iff_exists'.mp hsome
      have hdown := hagrees.heard p (by rw [hqueue, hp]; rfl)
      cases hdown.symm.trans (down_of_allReleased hreleased)
    rw [job] at hjob
    obtain ⟨hrunning, hrepeating⟩ := Option.or_eq_none_iff.mp hjob
    exact ⟨Option.map_eq_none_iff.mp hrepeating, Option.map_eq_none_iff.mp hrunning⟩

/-- The key that makes it louder is pressed, and its time is up. -/
theorem repeats_only_held_louder : ∃ s t, exec step {}
      [.press ⟨115, .volumeUp, none⟩, .receive, .finish true true, .elapse 400] = some s ∧
    s.step .timeout = some t ∧ LastDown
      [.press ⟨115, .volumeUp, none⟩, .receive, .finish true true, .elapse 400]
      ⟨115, .volumeUp, none⟩ := by
  let p : Press := ⟨115, .volumeUp, none⟩
  let s : MediaKeys := { held := some 115, now := 400, repeating := some (p, 400) }
  have hrun : exec step {} [.press p, .receive, .finish true true, .elapse 400] = some s := rfl
  have hstep : s.step .timeout = some { s with running := some (p, 80) } := by
    simp [step, timeout, s]
  exact ⟨s, _, hrun, hstep, (repeats_only_held hrun).1 _ p 80 hstep rfl⟩

end MediaKeys

end MindOS.Media
