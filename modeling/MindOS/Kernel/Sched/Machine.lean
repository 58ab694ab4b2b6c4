import MindOS.Kernel.Sched.Cpu
import MindOS.Transition

/-!
# Tasks, wait queues and interrupts on one CPU

A run takes one statement of the running task or one interrupt handler at a time; what a
spin lock encloses is one statement. A task stands at a point of `wait_inner`,
`PollTable::block`, `yield_now` or `wake_all`, and gives up the CPU at some of them. Handlers
may come at every point, also between the statement by which a task declares itself blocked
and the one by which it gives up the CPU.

No task is lost in a run exactly when none gives up the CPU that has been woken since it got
it, is to run again, and leaves the CPU to another.
-/

namespace MindOS.Kernel.Sched

open Transition

/-- A call of `wait_inner`: the queue, whether signals interrupt it, and a deadline or 0. -/
structure Wait (Q : Type) where
  queue : Q
  interruptible : Bool
  deadline : Nat

/-- Where a task stands: in none of the calls; in a round of `wait_inner`; in `prepare`,
`cancel` or `block` of a poll table; in `yield_now`; or in `wake_one` or `wake_all` and the
like, with the tasks that are still to be woken. -/
inductive Point (T Q : Type) where
  | run
  | waiting (w : Wait Q)
  | declared (w : Wait Q)
  | armed (w : Wait Q)
  | resumed (w : Wait Q)
  | disarmed (w : Wait Q)
  | uninterruptible (w : Wait Q)
  | preparing
  | canceling
  | timing (deadline : Nat)
  | blocking (deadline : Nat)
  | unblocked (deadline : Nat)
  | released (deadline : Nat)
  | untimed
  | yielding
  | waking (ts : List T)

structure Machine (T Q : Type) where
  cpu : Cpu T
  interruptible : T → Bool
  timedOut : T → Bool
  waiters : Q → List T
  sleepers : List (Nat × T)
  /-- The queues that the poll table of a task is registered on. -/
  table : T → List Q
  point : T → Point T Q

/-- A statement of the running task, or a handler. -/
inductive Act (T Q : Type) where
  /-- The timer interrupt at a time. -/
  | tick (now : Nat)
  /-- A device interrupt that calls `wake_one` or `wake_all`. -/
  | irqWakeOne (q : Q)
  | irqWakeAll (q : Q)
  /-- A handler that sends a signal. -/
  | irqSignal (t : T)
  | start (t : T)
  /-- The locked half of `wake_one` and `wake_all`, and the wakes behind it. -/
  | takeOne (q : Q)
  | takeAll (q : Q)
  | takeSignal (t : T)
  | wakeNext
  /-- `wait_inner`: the call, a return, and the statements of one round. Those on the timers
  and on `interruptible` are the same in `block`. -/
  | waitInner (w : Wait Q)
  | leave
  | declare
  | arm
  | disarm
  | clearInterruptible
  | unregister
  /-- The poll table. -/
  | add (q : Q)
  | prepare
  | setInterruptible
  | cancel
  | block (deadline : Nat)
  | takeTimedOut
  | clear
  | yieldNow
  | schedule
  | exit

/-- What the idle task does, or a handler while it runs: it never waits, blocks or exits. -/
def Act.whileIdle {T Q : Type} : Act T Q → Bool
  | .tick _ | .irqWakeOne _ | .irqWakeAll _ | .irqSignal _ | .start _ => true
  | .takeOne _ | .takeAll _ | .takeSignal _ | .wakeNext | .yieldNow | .schedule => true
  | _ => false

namespace Machine

variable {T Q : Type} [DecidableEq T] [DecidableEq Q]

def current (m : Machine T Q) : T := m.cpu.current

def goTo (m : Machine T Q) (p : Point T Q) : Machine T Q :=
  { m with point := Function.update m.point m.current p }

def wake (m : Machine T Q) (t : T) : Machine T Q := { m with cpu := m.cpu.wake t }

def wakeEach (m : Machine T Q) (ts : List T) : Machine T Q := ts.foldl wake m

def setWaiters (m : Machine T Q) (q : Q) (ts : List T) : Machine T Q :=
  { m with waiters := Function.update m.waiters q ts }

def setState (m : Machine T Q) (st : TaskState) : Machine T Q :=
  { m with cpu := m.cpu.setState m.current st }

def setInterruptible (m : Machine T Q) (b : Bool) : Machine T Q :=
  { m with interruptible := Function.update m.interruptible m.current b }

/-- `timer::tick`: the sleepers whose time has come are told so and woken. -/
def tick (m : Machine T Q) (now : Nat) : Machine T Q :=
  let expired := (m.sleepers.filter fun e => e.1 ≤ now).map Prod.snd
  let m := { m with sleepers := m.sleepers.filter fun e => ¬e.1 ≤ now }
  expired.foldl (fun m t => wake { m with timedOut := Function.update m.timedOut t true } t) m

/-- `timer::arm`, for the running task. -/
def armTimer (m : Machine T Q) (deadline : Nat) : Machine T Q :=
  if deadline = 0 then m else { m with sleepers := m.sleepers ++ [(deadline, m.current)] }

/-- `timer::disarm`, for the running task. -/
def disarmTimer (m : Machine T Q) (deadline : Nat) : Machine T Q :=
  if deadline = 0 then m
  else { m with sleepers := m.sleepers.filter fun e => e.2 ≠ m.current }

def clearTimedOut (m : Machine T Q) (deadline : Nat) : Machine T Q :=
  if deadline = 0 then m
  else { m with timedOut := Function.update m.timedOut m.current false }

/-- `interrupt_if_sleeping` finds the task asleep; only a task that has been started is. -/
def Asleep (m : Machine T Q) (t : T) : Prop :=
  m.cpu.started t = true ∧ t ≠ m.cpu.idle ∧ m.cpu.state t = .blocked ∧ m.interruptible t = true

instance (m : Machine T Q) (t : T) : Decidable (m.Asleep t) :=
  inferInstanceAs (Decidable (_ ∧ _))

/-- The task that a queue wakes first: the last that came. -/
def popped (m : Machine T Q) (q : Q) : List T := (m.waiters q).getLast?.toList

/-- The point of the running task. -/
def here (m : Machine T Q) : Point T Q := m.point m.current

/-- Where a statement or a handler leads. -/
def move (m : Machine T Q) : Act T Q → Option (Machine T Q)
  | .tick now => some (m.tick now)
  | .irqWakeOne q => some ((m.setWaiters q (m.waiters q).dropLast).wakeEach (m.popped q))
  | .irqWakeAll q => some ((m.setWaiters q []).wakeEach (m.waiters q))
  | .irqSignal t => some (if m.Asleep t then m.wake t else m)
  | .start t =>
      if m.cpu.started t = false ∧ t ≠ m.cpu.idle then some { m with cpu := m.cpu.enqueue t }
      else none
  | .takeOne q =>
      match m.here with
      | .run => some ((m.setWaiters q (m.waiters q).dropLast).goTo (.waking (m.popped q)))
      | _ => none
  | .takeAll q =>
      match m.here with
      | .run => some ((m.setWaiters q []).goTo (.waking (m.waiters q)))
      | _ => none
  | .takeSignal t =>
      match m.here with
      | .run => some (if m.Asleep t then m.goTo (.waking [t]) else m)
      | _ => none
  | .wakeNext =>
      match m.here with
      | .waking [] => some (m.goTo .run)
      | .waking (t :: ts) => some ((m.goTo (.waking ts)).wake t)
      | _ => none
  | .waitInner w =>
      match m.here with
      | .run => some (m.goTo (.waiting w))
      | _ => none
  | .leave =>
      match m.here with
      | .waiting _ => some (m.goTo .run)
      | _ => none
  | .declare =>
      match m.here with
      | .waiting w =>
          some ((((m.setState .blocked).setInterruptible w.interruptible).setWaiters w.queue
            (m.waiters w.queue ++ [m.current])).goTo (.declared w))
      | _ => none
  | .arm =>
      match m.here with
      | .declared w => some ((m.armTimer w.deadline).goTo (.armed w))
      | .timing d => some ((m.armTimer d).goTo (.blocking d))
      | _ => none
  | .disarm =>
      match m.here with
      | .resumed w => some ((m.disarmTimer w.deadline).goTo (.disarmed w))
      | .unblocked d => some ((m.disarmTimer d).goTo (.released d))
      | _ => none
  | .clearInterruptible =>
      match m.here with
      | .disarmed w => some ((m.setInterruptible false).goTo (.uninterruptible w))
      | .canceling => some ((m.setInterruptible false).goTo .run)
      | .untimed => some ((m.setInterruptible false).goTo .run)
      | _ => none
  | .unregister =>
      match m.here with
      | .uninterruptible w =>
          some ((m.setWaiters w.queue ((m.waiters w.queue).filter (· ≠ m.current))).goTo
            (.waiting w))
      | _ => none
  | .add q =>
      match m.here with
      | .run =>
          let ts := if m.current ∈ m.waiters q then m.waiters q else m.waiters q ++ [m.current]
          some { m.setWaiters q ts with
            table := Function.update m.table m.current (m.table m.current ++ [q]) }
      | _ => none
  | .prepare =>
      match m.here with
      | .run => some ((m.setState .blocked).goTo .preparing)
      | _ => none
  | .setInterruptible =>
      match m.here with
      | .preparing => some ((m.setInterruptible true).goTo .run)
      | _ => none
  | .cancel =>
      match m.here with
      | .run => some ((m.setState .running).goTo .canceling)
      | _ => none
  | .block d =>
      match m.here with
      | .run => some ((m.clearTimedOut d).goTo (.timing d))
      | _ => none
  | .takeTimedOut =>
      match m.here with
      | .released d => some ((m.clearTimedOut d).goTo .untimed)
      | _ => none
  | .clear =>
      match m.here, m.table m.current with
      | .run, q :: qs =>
          some { m.setWaiters q ((m.waiters q).filter (· ≠ m.current)) with
            table := Function.update m.table m.current qs }
      | _, _ => none
  | .yieldNow =>
      match m.here with
      | .run => some ((m.setState .runnable).goTo .yielding)
      | _ => none
  | .schedule =>
      match m.here with
      | .armed w => some { m.goTo (.resumed w) with cpu := m.cpu.schedule }
      | .blocking d => some { m.goTo (.unblocked d) with cpu := m.cpu.schedule }
      | .yielding => some { m.goTo .run with cpu := m.cpu.schedule }
      | _ => none
  | .exit =>
      match m.here with
      | .run => some { m with cpu := (m.cpu.setState m.current .zombie).schedule }
      | _ => none

/-- One step. -/
def step (m : Machine T Q) (a : Act T Q) : Option (Machine T Q) :=
  if m.current = m.cpu.idle ∧ a.whileIdle = false then none else m.move a

/-- The records with which a task gives up the CPU in a step, if one does. -/
def givesUp (m : Machine T Q) : Act T Q → Option (Cpu T)
  | .schedule => some m.cpu
  | .exit => some (m.cpu.setState m.current .zombie)
  | _ => none

/-- When the step has given up the CPU, every task that is started and runnable is in the
queue once, and the task that was picked was runnable. -/
def Good (m : Machine T Q) (a : Act T Q) (m' : Machine T Q) : Prop :=
  ∀ s, m.givesUp a = some s → m'.cpu.Kept ∧ s.next.2.state s.next.1 = .runnable

/-- A task that gives up the CPU to another and is to run again has not been woken since it
got the CPU. -/
def Sound (m : Machine T Q) (a : Act T Q) : Prop :=
  ∀ s, m.givesUp a = some s → ¬s.LosesCurrent

/-- The boot context runs as the idle task, and no task has been started. -/
structure Fresh (m : Machine T Q) : Prop where
  current : m.current = m.cpu.idle
  idle : m.cpu.state m.cpu.idle = .running
  queue : m.cpu.queue = []
  started : ∀ t, m.cpu.started t = false
  waiters : ∀ q, m.waiters q = []
  sleepers : m.sleepers = []
  point : ∀ t, m.point t = .run

/-- The machine when the scheduler has started. -/
def boot (idle : T) : Machine T Q where
  cpu := {
    state := Function.update (fun _ => .runnable) idle .running
    onRq := fun _ => false
    queue := []
    current := idle
    idle := idle
    started := fun _ => false }
  interruptible := fun _ => false
  timedOut := fun _ => false
  waiters := fun _ => []
  sleepers := []
  table := fun _ => []
  point := fun _ => .run

omit [DecidableEq Q] in
theorem boot_fresh (idle : T) : (boot idle : Machine T Q).Fresh :=
  ⟨rfl, by simp [boot], rfl, fun _ => rfl, fun _ => rfl, rfl, fun _ => rfl⟩

end Machine

end MindOS.Kernel.Sched
