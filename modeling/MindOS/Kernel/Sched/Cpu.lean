import Mathlib.Data.List.Nodup
import Mathlib.Logic.Function.Basic

/-!
# The run queue

What the scheduler keeps of the tasks on one CPU: the state of each task, the flag that says
that it is queued, and the queue. `wake`, `enqueue` and `schedule` change them with
interrupts off, so each is one step; the task that runs sets its own state between them.

The flag of the task that runs says nothing about the queue: `wake` sets it and leaves the
task out. A task that gives up the CPU with the flag set is then not queued either.
-/

namespace MindOS.Kernel.Sched

inductive TaskState where
  | runnable
  | running
  | blocked
  | zombie
  deriving DecidableEq

/-- The scheduler's records on one CPU, and which tasks have been started. -/
structure Cpu (T : Type) where
  state : T → TaskState
  onRq : T → Bool
  queue : List T
  current : T
  idle : T
  started : T → Bool

namespace Cpu

variable {T : Type} [DecidableEq T]

def setState (s : Cpu T) (t : T) (st : TaskState) : Cpu T :=
  { s with state := Function.update s.state t st }

def setOnRq (s : Cpu T) (t : T) (b : Bool) : Cpu T :=
  { s with onRq := Function.update s.onRq t b }

def push (s : Cpu T) (t : T) : Cpu T := { s with queue := s.queue ++ [t] }

/-- Make a task runnable. -/
def wake (s : Cpu T) (t : T) : Cpu T :=
  if s.state t = .zombie then s
  else
    let marked := s.onRq t
    let s := (s.setState t .runnable).setOnRq t true
    if marked = false ∧ t ≠ s.current then s.push t
    else if t ≠ s.current ∧ t ∉ s.queue then s.push t
    else s

/-- Start a new task. -/
def enqueue (s : Cpu T) (t : T) : Cpu T :=
  let s := ((s.setState t .runnable).setOnRq t true).push t
  { s with started := Function.update s.started t true }

/-- Take the first runnable task off the queue, and what is in front of it. -/
def pickFrom (s : Cpu T) : List T → Option T × Cpu T
  | [] => (none, { s with queue := [] })
  | t :: q =>
      let s := s.setOnRq t false
      if s.state t = .runnable then (some t, { s with queue := q }) else pickFrom s q

def pickNext (s : Cpu T) : Option T × Cpu T := s.pickFrom s.queue

/-- The task that runs is to run again. -/
def settle (s : Cpu T) : Cpu T :=
  if s.state s.current = .running then s.setState s.current .runnable else s

/-- The task that runs is to run again, and is not the idle task. -/
def GoesOn (s : Cpu T) : Prop := s.state s.current = .runnable ∧ s.current ≠ s.idle

instance (s : Cpu T) : Decidable s.GoesOn := inferInstanceAs (Decidable (_ ∧ _))

/-- It goes to the end of the queue then, unless its flag says that it is queued. -/
def requeue (s : Cpu T) : Cpu T :=
  if s.GoesOn then
    if s.onRq s.current then s else (s.setOnRq s.current true).push s.current
  else s

/-- The task that is picked, and the records without it. -/
def pick (s : Cpu T) : T × Cpu T :=
  match s.pickNext with
  | (some t, s) => (t, s)
  | (none, s) =>
      if s.state s.current = .runnable then
        let s := s.setOnRq s.current false
        (s.current, { s with queue := s.queue.filter (· ≠ s.current) })
      else (s.idle, s)

/-- Give the CPU to a task. -/
def run (s : Cpu T) (t : T) : Cpu T := { s.setState t .running with current := t }

/-- The task that gets the CPU when it is given up, and the records at that moment. -/
def next (s : Cpu T) : T × Cpu T := s.settle.requeue.pick

/-- Give up the CPU. -/
def schedule (s : Cpu T) : Cpu T := s.next.2.run s.next.1

@[simp] theorem setOnRq_queue (s : Cpu T) (t : T) (b : Bool) :
    (s.setOnRq t b).queue = s.queue := rfl

omit [DecidableEq T] in
@[simp] theorem push_queue (s : Cpu T) (t : T) : (s.push t).queue = s.queue ++ [t] := rfl

@[simp] theorem setState_self (s : Cpu T) (t : T) (st : TaskState) :
    (s.setState t st).state t = st := Function.update_self ..

theorem setState_of_ne (s : Cpu T) {t u : T} (h : u ≠ t) (st : TaskState) :
    (s.setState t st).state u = s.state u := Function.update_of_ne h ..

@[simp] theorem setOnRq_self (s : Cpu T) (t : T) (b : Bool) : (s.setOnRq t b).onRq t = b :=
  Function.update_self ..

theorem setOnRq_of_ne (s : Cpu T) {t u : T} (h : u ≠ t) (b : Bool) :
    (s.setOnRq t b).onRq u = s.onRq u := Function.update_of_ne h ..

/-- A task that runs when it gets the CPU. -/
def Ready (s : Cpu T) (t : T) : Prop :=
  s.started t = true ∧ s.state t = .runnable ∧ t ≠ s.current ∧ t ≠ s.idle

/-- The queue holds every task that is ready, once. -/
structure Inv (s : Cpu T) : Prop where
  nodup : s.queue.Nodup
  queued : ∀ t, t ∈ s.queue ↔ s.Ready t
  marked : ∀ t ∈ s.queue, s.onRq t = true
  started : s.current = s.idle ∨ s.started s.current = true
  idle : s.state s.idle = .runnable ∨ s.current = s.idle ∧ s.state s.idle = .running

/-- No task is lost: whoever is ready is in the queue exactly once. -/
def Kept (s : Cpu T) : Prop := ∀ t, s.Ready t → s.queue.count t = 1

theorem Inv.kept {s : Cpu T} (h : s.Inv) : s.Kept := fun t ht =>
  List.count_eq_one_of_mem h.nodup ((h.queued t).mpr ht)

/-- Giving up the CPU loses the task that runs: it is to run again, its flag is set, and
another task is queued. -/
def LosesCurrent (s : Cpu T) : Prop :=
  (s.state s.current = .running ∨ s.state s.current = .runnable) ∧ s.current ≠ s.idle ∧
    s.onRq s.current = true ∧ s.queue ≠ []

/-! ### What the steps keep -/

section Steps

variable {s : Cpu T} {t : T}

theorem Inv.setState_current (h : s.Inv) (st : TaskState)
    (hidle : s.current = s.idle → st = .runnable ∨ st = .running) :
    (s.setState s.current st).Inv := by
  have hready : ∀ t, (s.setState s.current st).Ready t ↔ s.Ready t := by
    intro t
    refine and_congr_right fun _ => ?_
    by_cases ht : t = s.current
    · exact iff_of_false (fun hr => hr.2.1 ht) (fun hr => hr.2.1 ht)
    · rw [setState_of_ne s ht]
      rfl
  refine ⟨h.nodup, fun t => (h.queued t).trans (hready t).symm, h.marked, h.started, ?_⟩
  change (s.setState s.current st).state s.idle = .runnable ∨ s.current = s.idle ∧
    (s.setState s.current st).state s.idle = .running
  by_cases hcur : s.current = s.idle
  · rw [← hcur, setState_self]
    exact (hidle hcur).imp_right fun hst => ⟨rfl, hst⟩
  · rw [setState_of_ne s (Ne.symm hcur)]
    exact h.idle.imp_right fun hi => absurd hi.1 hcur

omit [DecidableEq T] in
theorem Inv.not_mem_current (h : s.Inv) : s.current ∉ s.queue := fun hmem =>
  ((h.queued _).mp hmem).2.2.1 rfl

theorem Inv.setOnRq (h : s.Inv) {b : Bool} (ht : t ∈ s.queue → b = true) :
    (s.setOnRq t b).Inv := by
  refine ⟨h.nodup, h.queued, fun u hu => ?_, h.started, h.idle⟩
  by_cases hut : u = t
  · rw [hut, setOnRq_self]
    exact ht (hut ▸ hu)
  · rw [setOnRq_of_ne s hut]
    exact h.marked u hu

theorem Inv.enqueue (h : s.Inv) (hcur : t ≠ s.current) (hidle : t ≠ s.idle) (ht : t ∉ s.queue) :
    (s.enqueue t).Inv := by
  have hother : ∀ {u}, u ≠ t → (s.enqueue t).state u = s.state u ∧
      (s.enqueue t).started u = s.started u := fun hu =>
    ⟨setState_of_ne s hu _, Function.update_of_ne hu ..⟩
  have hself : (s.enqueue t).state t = .runnable ∧ (s.enqueue t).started t = true :=
    ⟨setState_self s t _, Function.update_self ..⟩
  have hmem : ∀ u, u ∈ (s.enqueue t).queue ↔ u ∈ s.queue ∨ u = t := fun u =>
    List.mem_append.trans (or_congr_right List.mem_singleton)
  refine ⟨?_, fun u => ?_, fun u hu => ?_, ?_, ?_⟩
  · exact List.nodup_append_comm.mp (List.nodup_cons.mpr ⟨ht, h.nodup⟩)
  · rw [hmem, Ready]
    by_cases hu : u = t
    · rw [hu, hself.1, hself.2]
      exact iff_of_true (.inr rfl) ⟨rfl, rfl, hcur, hidle⟩
    · rw [(hother hu).1, (hother hu).2]
      simp only [hu, or_false]
      exact h.queued u
  · by_cases hut : u = t
    · rw [hut]
      exact setOnRq_self _ t true
    · have hqueued : u ∈ s.queue := ((hmem u).mp hu).resolve_right hut
      exact (setOnRq_of_ne _ hut true).trans (h.marked u hqueued)
  · exact h.started.imp_right fun hs => (hother (Ne.symm hcur)).2.trans hs
  · change (s.enqueue t).state s.idle = .runnable ∨ _ ∧ (s.enqueue t).state s.idle = .running
    rw [(hother (Ne.symm hidle)).1]
    exact h.idle

theorem Inv.push (h : s.Inv) (hstarted : s.started t = true) (hcur : t ≠ s.current)
    (hidle : t ≠ s.idle) (ht : t ∉ s.queue) :
    (((s.setState t .runnable).setOnRq t true).push t).Inv := by
  have hsame : Function.update s.started t true = s.started := by
    rw [← hstarted, Function.update_eq_self]
  have hnew := h.enqueue hcur hidle ht
  change Inv { ((s.setState t .runnable).setOnRq t true).push t with
    started := Function.update s.started t true } at hnew
  rwa [hsame] at hnew

theorem Inv.wake (h : s.Inv) (hstarted : s.started t = true) (hidle : t ≠ s.idle) :
    (s.wake t).Inv := by
  unfold Cpu.wake
  split
  · exact h
  · by_cases hcur : t = s.current
    · dsimp only
      rw [if_neg fun hpush => hpush.2 hcur, if_neg fun hpush => hpush.1 hcur, hcur]
      have hrun := h.setState_current .runnable fun hc => absurd (hcur.trans hc) hidle
      exact hrun.setOnRq fun _ => rfl
    · by_cases hmem : t ∈ s.queue
      · have hsame : s.setState t .runnable = s := by
          rw [Cpu.setState, ← ((h.queued t).mp hmem).2.1, Function.update_eq_self]
        dsimp only
        rw [if_neg (by simp [h.marked t hmem]), if_neg fun hpush => hpush.2 hmem, hsame]
        exact h.setOnRq fun _ => rfl
      · have hpush := h.push hstarted hcur hidle hmem
        dsimp only
        split
        · exact hpush
        · rw [if_pos ⟨hcur, hmem⟩]
          exact hpush

/-! ### Giving up the CPU -/

theorem pick_cons {u : T} {q : List T} (h : s.state u = .runnable) (hq : s.queue = u :: q) :
    s.pick = (u, { s.setOnRq u false with queue := q }) := by
  have hfirst : (s.setOnRq u false).state u = .runnable := h
  rw [pick, pickNext, hq, pickFrom]
  dsimp only
  rw [if_pos hfirst]

theorem pick_nil (hq : s.queue = []) :
    s.pick = if s.state s.current = .runnable then
      (s.current, { s.setOnRq s.current false with queue := [] })
      else (s.idle, { s with queue := [] }) := by
  rw [pick, pickNext, hq, pickFrom]
  rfl

/-- What giving up the CPU comes to: another task runs, and the one that ran is queued if it
is to run again. -/
structure Switches (s s' : Cpu T) : Prop where
  idle : s'.idle = s.idle
  started : s'.started = s.started
  current : s'.current = s.idle ∨ s.started s'.current = true
  stateCurrent : s'.state s'.current = .running
  stateOther : ∀ v, v ≠ s'.current → s'.state v = s.state v
  nodup : s'.queue.Nodup
  queue : ∀ v, v ∈ s'.queue ↔ v ≠ s'.current ∧ (v ∈ s.queue ∨ v = s.current ∧ s.GoesOn)
  marked : ∀ v ∈ s'.queue, s'.onRq v = true

theorem Inv.switches {s' : Cpu T} (h : s.Inv) (hidle : s.state s.idle = .runnable)
    (hs : s.Switches s') : s'.Inv := by
  refine ⟨hs.nodup, fun v => ?_, hs.marked, ?_, ?_⟩
  · rw [hs.queue, Ready, hs.started, hs.idle]
    by_cases hv : v = s'.current
    · exact iff_of_false (fun hq => hq.1 hv) fun hr => hr.2.2.1 hv
    · rw [hs.stateOther v hv, h.queued, Ready]
      by_cases hcur : v = s.current
      · have hstarted : s.current ≠ s.idle → s.started s.current = true := h.started.resolve_left
        rw [hcur] at hv ⊢
        constructor
        · rintro ⟨-, hready | ⟨-, hstate, hne⟩⟩
          · exact absurd rfl hready.2.2.1
          · exact ⟨hstarted hne, hstate, hv, hne⟩
        · rintro ⟨-, hstate, -, hne⟩
          exact ⟨hv, .inr ⟨rfl, hstate, hne⟩⟩
      · simp only [hcur, hv, ne_eq, not_false_eq_true, true_and, false_and, or_false]
  · rw [hs.idle, hs.started]
    exact hs.current
  · rw [hs.idle]
    by_cases hcur : s.idle = s'.current
    · refine .inr ⟨hcur.symm, ?_⟩
      rw [hcur]
      exact hs.stateCurrent
    · exact .inl ((hs.stateOther _ hcur).trans hidle)

theorem Inv.settle (h : s.Inv) : s.settle.Inv := by
  unfold Cpu.settle
  split
  · exact h.setState_current _ fun _ => .inl rfl
  · exact h

@[simp] theorem settle_idle (s : Cpu T) : s.settle.idle = s.idle := by
  unfold Cpu.settle
  split <;> rfl

@[simp] theorem settle_current (s : Cpu T) : s.settle.current = s.current := by
  unfold Cpu.settle
  split <;> rfl

@[simp] theorem settle_queue (s : Cpu T) : s.settle.queue = s.queue := by
  unfold Cpu.settle
  split <;> rfl

@[simp] theorem settle_onRq (s : Cpu T) : s.settle.onRq = s.onRq := by
  unfold Cpu.settle
  split <;> rfl

@[simp] theorem settle_started (s : Cpu T) : s.settle.started = s.started := by
  unfold Cpu.settle
  split <;> rfl

theorem settle_state_current (s : Cpu T) :
    s.settle.state s.current = .runnable ↔
      s.state s.current = .running ∨ s.state s.current = .runnable := by
  unfold Cpu.settle
  split
  case isTrue h => exact iff_of_true (setState_self s _ _) (.inl h)
  case isFalse h => simp [h]

theorem Inv.settle_state_idle (h : s.Inv) : s.settle.state s.idle = .runnable := by
  by_cases hcur : s.current = s.idle
  · rw [← hcur, settle_state_current, hcur, or_comm]
    exact h.idle.imp_right And.right
  · have hidle := h.idle.resolve_right fun hrunning => hcur hrunning.1
    unfold Cpu.settle
    split
    · exact (setState_of_ne s (Ne.symm hcur) _).trans hidle
    · exact hidle

omit [DecidableEq T] in
theorem Inv.started_of_mem (h : s.Inv) (ht : t ∈ s.queue) : s.started t = true :=
  ((h.queued t).mp ht).1

/-- What is left when a task is picked off the front of a queue that the task that ran has
gone to the end of, or not. -/
theorem switches_run {r : Cpu T} {u : T} {q : List T} (hstate : r.state = s.state)
    (hidle : r.idle = s.idle) (hstarted : r.started = s.started)
    (hu : u = s.idle ∨ s.started u = true) (hnodup : q.Nodup)
    (hqueue : ∀ v, v ∈ q ↔ v ≠ u ∧ (v ∈ s.queue ∨ v = s.current ∧ s.GoesOn))
    (hmarked : ∀ v ∈ q, r.onRq v = true) :
    s.Switches (({ r with queue := q } : Cpu T).run u) := by
  refine ⟨hidle, hstarted, hu, setState_self _ _ _, fun v hv => ?_, hnodup, hqueue, hmarked⟩
  exact (setState_of_ne _ hv _).trans (congrFun hstate v)

theorem Inv.schedule_settled (h : s.Inv) (hidle : s.state s.idle = .runnable)
    (hkeeps : s.GoesOn → s.onRq s.current = true → s.queue = []) :
    s.Switches (s.requeue.pick.2.run s.requeue.pick.1) ∧
      s.requeue.pick.2.state s.requeue.pick.1 = .runnable := by
  have hnot := h.not_mem_current
  by_cases hgoes : s.GoesOn
  · -- The task that runs is queued behind the others, or is the only one.
    cases hq : s.queue with
    | nil =>
        have hpick : ∃ r : Cpu T, s.requeue.pick = (s.current, { r with queue := [] }) ∧
            r.state = s.state ∧ r.idle = s.idle ∧ r.started = s.started := by
          cases hflag : s.onRq s.current with
          | true =>
              rw [requeue, if_pos hgoes, hflag, if_pos rfl, pick_nil hq, if_pos hgoes.1]
              exact ⟨_, rfl, rfl, rfl, rfl⟩
          | false =>
              have hqueue : ((s.setOnRq s.current true).push s.current).queue = [s.current] := by
                rw [push_queue, setOnRq_queue, hq, List.nil_append]
              have hpick := pick_cons (s := (s.setOnRq s.current true).push s.current) hgoes.1
                hqueue
              rw [requeue, if_pos hgoes, hflag, if_neg (by simp), hpick]
              exact ⟨_, rfl, rfl, rfl, rfl⟩
        obtain ⟨r, hpick, hstate, hridle, hstarted⟩ := hpick
        rw [hpick]
        refine ⟨switches_run hstate hridle hstarted h.started List.nodup_nil (fun v => ?_)
          (by simp), ?_⟩
        · rw [hq]
          simp only [List.not_mem_nil, false_or, false_iff]
          exact fun hv => hv.1 hv.2.1
        · exact (congrFun hstate _).trans hgoes.1
    | cons u q =>
        have hmem : u ∈ s.queue := by rw [hq]; exact List.mem_cons_self
        have hready := (h.queued u).mp hmem
        have hflag : s.onRq s.current = false := by
          by_contra hflag
          rw [hkeeps hgoes (by simpa using hflag)] at hmem
          cases hmem
        have hqueue : ((s.setOnRq s.current true).push s.current).queue =
            u :: (q ++ [s.current]) := by
          rw [push_queue, setOnRq_queue, hq, List.cons_append]
        have hpick := pick_cons (s := (s.setOnRq s.current true).push s.current) hready.2.1 hqueue
        rw [requeue, if_pos hgoes, hflag, if_neg (by simp), hpick]
        have hnodup : (u :: (q ++ [s.current])).Nodup := by
          rw [← List.cons_append, ← hq]
          exact List.nodup_append_comm.mp (List.nodup_cons.mpr ⟨hnot, h.nodup⟩)
        obtain ⟨hu, hrest⟩ := List.nodup_cons.mp hnodup
        have hne : ∀ {v}, v ∈ q ++ [s.current] → v ≠ u := fun hv => ne_of_mem_of_not_mem hv hu
        refine ⟨switches_run rfl rfl rfl (.inr hready.1) hrest (fun v => ?_) fun v hv => ?_,
          hready.2.1⟩
        · rw [hq, List.mem_cons]
          refine ⟨fun hv => ⟨hne hv, ?_⟩, ?_⟩
          · obtain hv | hv := List.mem_append.mp hv
            · exact .inl (.inr hv)
            · exact .inr ⟨List.mem_singleton.mp hv, hgoes⟩
          · rintro ⟨hvu, (rfl | hv) | ⟨rfl, -⟩⟩
            · exact absurd rfl hvu
            · exact List.mem_append_left _ hv
            · exact List.mem_append_right _ (List.mem_singleton.mpr rfl)
        · refine (setOnRq_of_ne _ (hne hv) _).trans ?_
          by_cases hcur : v = s.current
          · rw [hcur]
            exact setOnRq_self s s.current true
          · refine (setOnRq_of_ne s hcur true).trans (h.marked v ?_)
            rw [hq]
            have hvq := (List.mem_append.mp hv).resolve_right (by simpa using hcur)
            exact List.mem_cons_of_mem u hvq
  · have hrequeue : s.requeue = s := by
      rw [requeue, if_neg hgoes]
    rw [hrequeue]
    cases hq : s.queue with
    | nil =>
        have hpick : ∃ r : Cpu T, s.pick = (s.idle, { r with queue := [] }) ∧
            r.state = s.state ∧ r.idle = s.idle ∧ r.started = s.started := by
          rw [pick_nil hq]
          split
          case isTrue hstate =>
            have hcur : s.current = s.idle := by
              by_contra hne
              exact hgoes ⟨hstate, hne⟩
            rw [hcur]
            exact ⟨_, rfl, rfl, rfl, rfl⟩
          case isFalse => exact ⟨_, rfl, rfl, rfl, rfl⟩
        obtain ⟨r, hpick, hstate, hridle, hstarted⟩ := hpick
        rw [hpick]
        refine ⟨switches_run hstate hridle hstarted (.inl rfl) List.nodup_nil (fun v => ?_)
          (by simp), (congrFun hstate _).trans hidle⟩
        rw [hq]
        simp [hgoes]
    | cons u q =>
        have hready := (h.queued u).mp (by rw [hq]; exact List.mem_cons_self)
        obtain ⟨hu, hrest⟩ := List.nodup_cons.mp (hq ▸ h.nodup)
        rw [pick_cons hready.2.1 hq]
        refine ⟨switches_run rfl rfl rfl (.inr hready.1) hrest (fun v => ?_) fun v hv => ?_,
          hready.2.1⟩
        · rw [hq, List.mem_cons]
          simp only [hgoes, and_false, or_false]
          constructor
          · exact fun hv => ⟨ne_of_mem_of_not_mem hv hu, .inr hv⟩
          · exact fun hv => hv.2.resolve_left hv.1
        · refine (setOnRq_of_ne s (ne_of_mem_of_not_mem hv hu) _).trans (h.marked v ?_)
          rw [hq]
          exact List.mem_cons_of_mem u hv

/-- Giving up the CPU switches as it should and picks a runnable task, unless it loses the
task that ran. -/
theorem Inv.switches_schedule (h : s.Inv) (hkeeps : ¬s.LosesCurrent) :
    s.settle.Switches s.schedule ∧ s.next.2.state s.next.1 = .runnable := by
  have hidle : s.settle.state s.settle.idle = .runnable := by
    rw [settle_idle]
    exact h.settle_state_idle
  refine h.settle.schedule_settled hidle fun hgoes hflag => ?_
  by_contra hq
  rw [GoesOn, settle_current, settle_state_current, settle_idle] at hgoes
  rw [settle_onRq, settle_current] at hflag
  rw [settle_queue] at hq
  exact hkeeps ⟨hgoes.1, hgoes.2, hflag, hq⟩

theorem Inv.schedule (h : s.Inv) (hkeeps : ¬s.LosesCurrent) : s.schedule.Inv := by
  refine h.settle.switches ?_ (h.switches_schedule hkeeps).1
  rw [settle_idle]
  exact h.settle_state_idle

theorem Inv.not_kept_schedule (h : s.Inv) (hloses : s.LosesCurrent) : ¬s.schedule.Kept := by
  obtain ⟨hstate, hidle, hflag, hq⟩ := hloses
  obtain ⟨u, q, hq⟩ := List.exists_cons_of_ne_nil hq
  have hrunnable := (settle_state_current s).mpr hstate
  have hgoes : s.settle.GoesOn := by
    rw [GoesOn, settle_current, settle_idle]
    exact ⟨hrunnable, hidle⟩
  have hready := (h.settle.queued u).mp (by rw [settle_queue, hq]; exact List.mem_cons_self)
  have hnext : s.next = (u, { s.settle.setOnRq u false with queue := q }) := by
    rw [next, requeue, if_pos hgoes, if_pos (by rw [settle_onRq, settle_current]; exact hflag)]
    exact pick_cons hready.2.1 (by rw [settle_queue, hq])
  have hcur : s.current ≠ u := fun hcur => hready.2.2.1 (by rw [settle_current, hcur])
  have hlost : s.schedule.Ready s.current := by
    have hstarted := h.settle.started.resolve_left hgoes.2
    rw [settle_current] at hstarted
    rw [Cpu.schedule, hnext]
    refine ⟨hstarted, (setState_of_ne _ hcur _).trans hrunnable, hcur, ?_⟩
    · change s.current ≠ s.settle.idle
      rw [settle_idle]
      exact hidle
  intro hkept
  have hcount := hkept _ hlost
  have hqueue : s.schedule.queue = q := by
    rw [Cpu.schedule, hnext]
    rfl
  have hnot := h.not_mem_current
  rw [hq] at hnot
  have habsent : s.current ∉ q := fun hmem => hnot (List.mem_cons_of_mem u hmem)
  rw [hqueue, List.count_eq_zero_of_not_mem habsent] at hcount
  cases hcount

end Steps

end Cpu

end MindOS.Kernel.Sched
