import MindOS.Bits
import MindOS.Kernel.Sched.Cpu

/-!
# Signals and the threads of a process

What the kernel keeps of the signals of one process and of the waits of its threads. On one
CPU only the thread that runs takes steps, and it stops running only where it gives up the
CPU; a signal can be sent at any time, by a handler or by another process.
-/

namespace MindOS.Kernel.Signal

open Bits Sched

def SIGKILL : Int := 9
def SIGCONT : Int := 18
def SIGSTOP : Int := 19
def SIGTSTP : Int := 20
def SIGTTIN : Int := 21
def SIGTTOU : Int := 22

def SIG_DFL : Nat := 0
def SIG_IGN : Nat := 1

def sigBit (signo : Int) : BitVec 64 := bit (signo - 1).toNat

/-- The signals that cannot be blocked. -/
def KILL_MASK : BitVec 64 := sigBit SIGKILL ||| sigBit SIGSTOP

/-- The faults, which are taken before other signals. -/
def syncMask : BitVec 64 := sigBit 11 ||| sigBit 7 ||| sigBit 4 ||| sigBit 8 ||| sigBit 5

def stopMask : BitVec 64 := sigBit SIGSTOP ||| sigBit SIGTSTP ||| sigBit SIGTTIN ||| sigBit SIGTTOU

/-- The default action is to ignore the signal: SIGCHLD, SIGURG and SIGWINCH. -/
def ignoredByDefault (signo : Int) : Bool := signo = 17 ∨ signo = 23 ∨ signo = 28

def isStop (signo : Int) : Bool :=
  signo = SIGSTOP ∨ signo = SIGTSTP ∨ signo = SIGTTIN ∨ signo = SIGTTOU

/-- A signal is dropped when it is sent. -/
def ignored (handler : Nat) (signo : Int) : Bool :=
  (handler = SIG_IGN ∧ signo ≠ SIGKILL ∧ signo ≠ SIGSTOP) ∨
    (handler = SIG_DFL ∧ ignoredByDefault signo)

/-- The signal that is taken first of those that can be. -/
def choose (pending : BitVec 64) : Int :=
  if pending &&& sigBit SIGKILL ≠ 0 then SIGKILL
  else if pending &&& syncMask ≠ 0 then trailingZeros (pending &&& syncMask) + 1
  else trailingZeros pending + 1

/-- Where a thread stands in a wait, interruptible or not: outside; at the start of a round of
`wait_inner`; after the last look for signals there; in `prepare` and after it, before `block`
looks for signals; in `cancel`; about to give up the CPU; without it; and with it again. -/
inductive Point where
  | run
  | waiting (interruptible : Bool)
  | checked (interruptible : Bool)
  | preparing
  | prepared
  | canceling
  | declared
  | away
  | resumed
  deriving DecidableEq

/-- The signals of a process and its threads. -/
structure Threads (T : Type) where
  threads : List T
  zombie : Bool
  sharedPending : BitVec 64
  handler : Int → Nat
  pending : T → BitVec 64
  mask : T → BitVec 64
  state : T → TaskState
  interruptible : T → Bool
  point : T → Point
  current : Option T

/-- A signal sent, a wake for another reason, or what the running thread does next. -/
inductive Act (T : Type) where
  | send (signo : Int)
  | sendToTask (t : T) (signo : Int)
  | postSignal (t : T) (signo : Int)
  | wake (t : T)
  | dispatch (t : T)
  | clone (t : T)
  | exit
  | setMask (mask : BitVec 64)
  | sigaction (signo : Int) (handler : Nat)
  /-- `dequeue`, for `deliver_pending`. -/
  | dequeue
  /-- `rt_sigtimedwait` takes a signal. -/
  | takeWanted (want : BitVec 64)
  /-- `wait_inner`: the call, a return, the look for signals, and the rest of a round. -/
  | wait (interruptible : Bool)
  | leave
  | check
  | declare
  | clearInterruptible
  /-- The poll table. -/
  | prepare
  | setInterruptible
  | cancel
  | block
  | yieldNow
  | schedule

namespace Threads

variable {T : Type} [DecidableEq T]

def setState (m : Threads T) (t : T) (st : TaskState) : Threads T :=
  { m with state := Function.update m.state t st }

def goTo (m : Threads T) (t : T) (p : Point) : Threads T :=
  { m with point := Function.update m.point t p }

def setInterruptible (m : Threads T) (t : T) (b : Bool) : Threads T :=
  { m with interruptible := Function.update m.interruptible t b }

def setPending (m : Threads T) (t : T) (w : BitVec 64) : Threads T :=
  { m with pending := Function.update m.pending t w }

def setMask (m : Threads T) (t : T) (w : BitVec 64) : Threads T :=
  { m with mask := Function.update m.mask t w }

def wake (m : Threads T) (t : T) : Threads T :=
  if m.state t = .zombie then m else m.setState t .runnable

def interruptIfSleeping (m : Threads T) (t : T) : Threads T :=
  if m.state t = .blocked ∧ m.interruptible t = true then m.wake t else m

/-- The signals that a thread would take. -/
def pendingUnblocked (m : Threads T) (t : T) : BitVec 64 :=
  (m.pending t ||| m.sharedPending) &&& ~~~m.mask t

def postSignal (m : Threads T) (t : T) (signo : Int) : Threads T :=
  (m.setPending t (m.pending t ||| sigBit signo)).interruptIfSleeping t

/-- A pending signal of the other kind is discarded by SIGCONT and by the stop signals. -/
def cancelled (signo : Int) : BitVec 64 :=
  (if signo = SIGCONT then stopMask else 0) ||| if isStop signo then sigBit SIGCONT else 0

/-- The thread that is to take a signal: one that does not block it, or any. -/
def target (m : Threads T) (signo : Int) : Option T :=
  (m.threads.find? fun t => m.mask t &&& sigBit signo = 0).or m.threads.head?

/-- Queue a signal for the process. -/
def send (m : Threads T) (signo : Int) : Threads T :=
  if signo ≤ 0 ∨ 64 < signo then m
  else if m.zombie then m
  else
    let m := { m with sharedPending := m.sharedPending &&& ~~~cancelled signo }
    if ignored (m.handler signo) signo then m
    else
      let m := { m with sharedPending := m.sharedPending ||| sigBit signo }
      match m.target signo with
      | some t =>
          let m := m.interruptIfSleeping t
          if signo = SIGKILL then m.threads.foldl interruptIfSleeping m else m
      | none => m

def sendToTask (m : Threads T) (t : T) (signo : Int) : Threads T :=
  if signo ≤ 0 ∨ 64 < signo then m
  else if ignored (m.handler signo) signo then m
  else m.postSignal t signo

/-- What `dequeue` takes, and whether it is a signal of the process. -/
def dequeue (m : Threads T) (t : T) : Option (Int × Bool) :=
  let own := m.pending t &&& ~~~m.mask t
  let shared := m.sharedPending &&& ~~~m.mask t
  if own ≠ 0 then some (choose own, false)
  else if shared ≠ 0 then some (choose shared, true)
  else none

/-- What `rt_sigtimedwait` takes. -/
def wanted (m : Threads T) (t : T) (want : BitVec 64) : Option (Int × Bool) :=
  let avail := (m.pending t ||| m.sharedPending) &&& want
  if avail ≠ 0 then
    let signo : Int := trailingZeros avail + 1
    some (signo, m.pending t &&& sigBit signo = 0)
  else none

/-- The thread has taken a signal. -/
def take (m : Threads T) (t : T) : Int × Bool → Threads T
  | (signo, true) => { m with sharedPending := m.sharedPending &&& ~~~sigBit signo }
  | (signo, false) => m.setPending t (m.pending t &&& ~~~sigBit signo)

/-- Ignoring a signal discards it where it is pending. -/
def sigaction (m : Threads T) (signo : Int) (handler : Nat) : Threads T :=
  let m := { m with handler := Function.update m.handler signo handler }
  if handler = SIG_IGN then
    { m with
      sharedPending := m.sharedPending &&& ~~~sigBit signo
      pending := fun t =>
        if t ∈ m.threads then m.pending t &&& ~~~sigBit signo else m.pending t }
  else m

/-- A new thread has the mask of the one that makes it. -/
def clone (m : Threads T) (me t : T) : Threads T :=
  let m := { m with threads := m.threads ++ [t] }
  (((m.setMask t (m.mask me)).setPending t 0).setState t .runnable).goTo t .run

/-- A thread is gone, and the process with the last. -/
def exit (m : Threads T) (me : T) : Threads T :=
  let threads := m.threads.filter (· ≠ me)
  { m.setState me .zombie with
    threads := threads
    current := none
    zombie := threads.isEmpty }

/-- A thread gives up the CPU. -/
def giveUp (m : Threads T) (me : T) (p : Point) : Threads T :=
  let m := if m.state me = .running then m.setState me .runnable else m
  { m.goTo me p with current := none }

/-- A step of the thread that runs. -/
def move (m : Threads T) (me : T) : Act T → Option (Threads T)
  | .clone t => if m.point me = .run ∧ t ∉ m.threads then some (m.clone me t) else none
  | .exit => if m.point me = .run then some (m.exit me) else none
  | .setMask w => if m.point me = .run then some (m.setMask me (w &&& ~~~KILL_MASK)) else none
  | .sigaction signo handler =>
      if m.point me = .run ∧ 1 ≤ signo ∧ signo ≤ 64 ∧ signo ≠ SIGKILL ∧ signo ≠ SIGSTOP then
        some (m.sigaction signo handler)
      else none
  | .dequeue => if m.point me = .run then (m.dequeue me).map (m.take me) else none
  | .takeWanted want => if m.point me = .run then (m.wanted me want).map (m.take me) else none
  | .wait i => if m.point me = .run then some (m.goTo me (.waiting i)) else none
  | .leave =>
      match m.point me with
      | .waiting _ => some (m.goTo me .run)
      | .checked _ => some (m.goTo me .run)
      | _ => none
  | .check =>
      match m.point me with
      | .waiting i =>
          some (m.goTo me (if i = true ∧ m.pendingUnblocked me ≠ 0 then .run else .checked i))
      | _ => none
  | .declare =>
      match m.point me with
      | .checked i => some (((m.setState me .blocked).setInterruptible me i).goTo me .declared)
      | _ => none
  | .clearInterruptible =>
      match m.point me with
      | .resumed => some ((m.setInterruptible me false).goTo me .run)
      | .canceling => some ((m.setInterruptible me false).goTo me .run)
      | _ => none
  | .prepare =>
      if m.point me = .run then some ((m.setState me .blocked).goTo me .preparing) else none
  | .setInterruptible =>
      match m.point me with
      | .preparing => some ((m.setInterruptible me true).goTo me .prepared)
      | _ => none
  | .cancel =>
      match m.point me with
      | .prepared => some ((m.setState me .running).goTo me .canceling)
      | _ => none
  | .block =>
      match m.point me with
      | .prepared =>
          some (if m.pendingUnblocked me ≠ 0 then (m.setState me .running).goTo me .canceling
            else m.goTo me .declared)
      | _ => none
  | .yieldNow =>
      if m.point me = .run then some ((m.setState me .runnable).giveUp me .run) else none
  | .schedule =>
      match m.point me with
      | .declared => some (m.giveUp me .away)
      | _ => none
  | _ => none

/-- One step. -/
def step (m : Threads T) : Act T → Option (Threads T)
  | .send signo => some (m.send signo)
  | .sendToTask t signo => some (m.sendToTask t signo)
  | .postSignal t signo => some (m.postSignal t signo)
  | .wake t => some (m.wake t)
  | .dispatch t =>
      if m.current = none ∧ t ∈ m.threads ∧ m.state t = .runnable then
        let m := { m.setState t .running with current := some t }
        some (if m.point t = .away then m.goTo t .resumed else m)
      else none
  | a => m.current.bind fun me => m.move me a

end Threads

end MindOS.Kernel.Signal
