import Mathlib.Data.List.Forall2
import Mathlib.Logic.Function.Basic
import MindOS.Kernel.Poll.Ttys
import MindOS.Transition

/-!
# Waiting for files

## Tasks that wait for files

`poll`, `select` and `epoll_wait` put their task on the wait queues of the files they watch,
look once at all of them and block if nothing is ready. Tasks take turns only where they
block, so a turn is one step: from a call or a wakeup to the next time the task blocks or
the call returns.
-/

namespace MindOS.Kernel.Poll

/-! ### Files and their queues -/

/-- A file that can be watched. -/
inductive File where
  | eventfd (i : Nat)
  | pipeReader (i : Nat)
  | pipeWriter (i : Nat)
  | pipeDuplex (i : Nat)
  | tty (i : Nat)
  | ptyMaster (i : Nat)
  | epoll (e : Nat)
  deriving DecidableEq

inductive Queue where
  | eventfd (i : Nat)
  | pipe (i : Nat)
  | read (i : Nat)
  | write (i : Nat)
  | master (i : Nat)
  | epoll (e : Nat)
  deriving DecidableEq

/-- The one queue a file offers. -/
def File.pollWait : File → Queue
  | .eventfd i => .eventfd i
  | .pipeReader i => .pipe i
  | .pipeWriter i => .pipe i
  | .pipeDuplex i => .pipe i
  | .tty i => .read i
  | .ptyMaster i => .master i
  | .epoll e => .epoll e

def EPOLLET : Mask := 1 <<< 31
def EPOLLONESHOT : Mask := 1 <<< 30

/-- What an epoll instance watches: a descriptor with the open file behind it. -/
structure Interest where
  fd : Int
  openFile : Nat
  file : File
  events : Mask
  data : BitVec 64
  deriving DecidableEq

namespace Interest

/-- The events that are asked for. -/
def want (i : Interest) : Mask := i.events &&& ~~~(EPOLLET ||| EPOLLONESHOT)

def oneShot (i : Interest) : Bool := i.events &&& EPOLLONESHOT != 0

/-- The interest as it is after a one-shot report. -/
def disabled (i : Interest) : Interest :=
  { i with events := i.events &&& (EPOLLET ||| EPOLLONESHOT) }

/-- The interest after a report of an instance that has found this ready. -/
def afterReport (found : List (Mask × BitVec 64)) (i : Interest) : Interest :=
  if i.oneShot && found.any (fun r => r.2 == i.data) then i.disabled else i

end Interest

/-- What an instance finds ready, in its order. -/
def ready (poll : File → Mask) (interests : List Interest) : List (Mask × BitVec 64) :=
  interests.filterMap fun i =>
    if poll i.file &&& i.want = 0 then none else some (poll i.file &&& i.want, i.data)

structure Objects where
  eventfds : Nat → EventFd
  pipes : Nat → Pipe
  ttys : Nat → Tty
  epolls : Nat → List Interest

/-- An instance gets other interests. -/
def Objects.setEpoll (o : Objects) (e : Nat) (interests : List Interest) : Objects :=
  { o with epolls := Function.update o.epolls e interests }

/-- The events a file has. Instances look into instances, to some depth: where they watch
each other in a circle, the kernel never comes back from looking. -/
def Objects.poll (o : Objects) : Nat → File → Mask
  | _, .eventfd i => (o.eventfds i).poll
  | _, .pipeReader i => (o.pipes i).pollRead
  | _, .pipeWriter i => (o.pipes i).pollWrite
  | _, .pipeDuplex i => (o.pipes i).pollRead ||| (o.pipes i).pollWrite
  | _, .tty i => (o.ttys i).poll
  | _, .ptyMaster i => (o.ttys i).masterPoll
  | 0, .epoll _ => 0
  | depth + 1, .epoll e => event (!(ready (o.poll depth) (o.epolls e)).isEmpty) POLLIN

/-! ### Operations on files -/

/-- A turn of an operation on a file. -/
inductive Op where
  | eventfdRead (i len : Nat)
  | eventfdWrite (i len v : Nat)
  | pipeRead (i len : Nat)
  | pipeWrite (i : Nat) (buf : List UInt8) (done : Nat)
  | pipeRelease (i : Nat) (reader writer : Bool)
  /-- Keys, or a write to the master. -/
  | input (i : Nat) (data : List UInt8)
  | ttyRead (i len : Nat)
  | ttyWrite (i : Nat) (buf : List UInt8) (off : Nat)
  | setTermios (i : Nat) (termios : Termios) (flush : Bool)
  | flushInput (i : Nat)
  | hangup (i : Nat)
  | ttyRelease (i : Nat)
  | masterRead (i len : Nat)
  | masterRelease (i : Nat)

namespace Objects

def setEventFd (o : Objects) (i : Nat) (r : EventFd × Outcome × Bool) : Objects × List Queue :=
  ({ o with eventfds := Function.update o.eventfds i r.1 },
    if r.2.2 then [.eventfd i] else [])

def setPipe (o : Objects) (i : Nat) (p : Pipe) (woken : Bool) : Objects × List Queue :=
  ({ o with pipes := Function.update o.pipes i p }, if woken then [.pipe i] else [])

def setTty (o : Objects) (i : Nat) (t : Tty) (w : Wakes) : Objects × List Queue :=
  ({ o with ttys := Function.update o.ttys i t },
    (if w.read then [.read i] else []) ++ (if w.write then [.write i] else []) ++
      if w.master then [.master i] else [])

/-- The objects after a turn, and the queues that are woken. -/
def apply (o : Objects) : Op → Objects × List Queue
  | .eventfdRead i len => o.setEventFd i ((o.eventfds i).read len)
  | .eventfdWrite i len v => o.setEventFd i ((o.eventfds i).write len v)
  | .pipeRead i len =>
      let r := (o.pipes i).read len
      o.setPipe i r.1 r.2.2
  | .pipeWrite i buf done =>
      let r := (o.pipes i).write buf done
      o.setPipe i r.1 r.2.2
  | .pipeRelease i reader writer => o.setPipe i ((o.pipes i).release reader writer) true
  | .input i data =>
      let f := (o.ttys i).inputBytes data
      o.setTty i f.tty { read := f.read, master := f.master }
  | .ttyRead i len =>
      let r := (o.ttys i).read len
      o.setTty i r.1 r.2.2
  | .ttyWrite i buf off =>
      let r := (o.ttys i).write buf off
      o.setTty i r.1 r.2.2
  | .setTermios i termios flush =>
      let r := (o.ttys i).setTermios termios flush
      o.setTty i r.1 r.2
  | .flushInput i => o.setTty i (o.ttys i).flushInput {}
  | .hangup i =>
      let r := (o.ttys i).doHangup
      o.setTty i r.1 r.2
  | .ttyRelease i => o.setTty i (o.ttys i).release {}
  | .masterRead i len =>
      let r := (o.ttys i).masterRead len
      o.setTty i r.1 r.2.2
  | .masterRelease i =>
      let r := (o.ttys i).masterRelease
      o.setTty i r.1 r.2

end Objects

/-! ### Calls -/

/-- An entry of `poll`, with the file its descriptor was for when the call began. -/
structure PollFd where
  fd : Int
  events : BitVec 16
  file : Option File

namespace PollFd

/-- The events that are asked for, and those that are always reported. -/
def want (p : PollFd) : Mask := p.events.zeroExtend 32 ||| POLLERR ||| POLLHUP

def revents (poll : File → Mask) (p : PollFd) : Mask :=
  if p.fd < 0 then 0
  else
    match p.file with
    | none => POLLNVAL
    | some f => poll f &&& p.want

/-- The file the entry watches, if it watches one. -/
def watched (p : PollFd) : Option (File × Mask) :=
  if p.fd < 0 then none else p.file.map fun f => (f, p.want)

end PollFd

/-- The entries a `select` makes of its three sets. -/
def selectFds (table : Nat → Option File) (n : Nat) (rs ws es : Nat → Bool) : List PollFd :=
  (List.range n).filterMap fun fd =>
    let events : BitVec 16 :=
      (if rs fd then 1 else 0) ||| (if ws fd then 4 else 0) ||| (if es fd then 2 else 0)
    if events = 0 then none else some ⟨fd, events, table fd⟩

inductive Call where
  | poll (fds : List PollFd)
  | epollWait (e maxevents : Nat)

namespace Call

/-- The files a call watches, with the events it asks for. -/
def watched (o : Objects) : Call → List (File × Mask)
  | .poll fds => fds.filterMap PollFd.watched
  | .epollWait e _ => (o.epolls e).map fun i => (i.file, i.want)

/-- The queues a call goes on. -/
def queues (o : Objects) : Call → List Queue
  | .poll fds => (fds.filterMap PollFd.watched).map fun w => w.1.pollWait
  | .epollWait e _ => .epoll e :: (o.epolls e).map fun i => i.file.pollWait

/-- Something is there to be reported. -/
def anyReady (poll : File → Mask) (o : Objects) : Call → Bool
  | .poll fds => fds.any fun p => p.revents poll != 0
  | .epollWait e _ => !(ready poll (o.epolls e)).isEmpty

end Call

/-! ### The machine -/

/-- A task in a call: the queues its table has, and whether it has been woken. -/
structure Waiting where
  call : Call
  queues : List Queue
  runnable : Bool

structure Machine where
  objects : Objects
  waiters : Queue → List Nat
  tasks : Nat → Option Waiting

namespace Machine

def wakeAll (m : Machine) (q : Queue) : Machine :=
  { m with
    waiters := Function.update m.waiters q []
    tasks := fun t =>
      if t ∈ m.waiters q then (m.tasks t).map fun w => { w with runnable := true }
      else m.tasks t }

def addWaiter (m : Machine) (t : Nat) (q : Queue) : Machine :=
  if t ∈ m.waiters q then m
  else { m with waiters := Function.update m.waiters q (m.waiters q ++ [t]) }

/-- `PollTable::clear` -/
def clear (m : Machine) (t : Nat) (queues : List Queue) : Machine :=
  { m with
    waiters := fun q => if q ∈ queues then (m.waiters q).filter (· != t) else m.waiters q }

/-- The call returns. -/
def leave (m : Machine) (t : Nat) (queues : List Queue) : Machine :=
  { m.clear t queues with tasks := Function.update m.tasks t none }

/-- What is ready is reported, and one-shot interests are disabled. -/
def report (m : Machine) (poll : File → Mask) : Call → Machine
  | .poll _ => m
  | .epollWait e _ =>
      let interests := m.objects.epolls e
      let found := ready poll interests
      { m with objects := m.objects.setEpoll e (interests.map (·.afterReport found)) }

/-- A look at all files: the call returns, or the task blocks. -/
def round (depth : Nat) (m : Machine) (t : Nat) (c : Call) (queues : List Queue) (wait : Bool) :
    Machine :=
  let poll := m.objects.poll depth
  if c.anyReady poll m.objects then (m.leave t queues).report poll c
  else if wait then { m with tasks := Function.update m.tasks t (some ⟨c, queues, false⟩) }
  else m.leave t queues

/-- The task goes on the queues, and looks. -/
def enter (depth : Nat) (m : Machine) (t : Nat) (c : Call) (wait : Bool) : Machine :=
  let queues := c.queues m.objects
  (queues.foldl (fun m q => m.addWaiter t q) m).round depth t c queues wait

end Machine

/-- What `epoll_ctl` does to the interests of an instance. -/
inductive Ctl where
  | add (i : Interest)
  | mod (i : Interest)
  | del (fd : Int) (openFile : Nat)

inductive CtlError where
  | EEXIST
  | EINVAL
  | ENOENT

def epollCtl (e : Nat) (interests : List Interest) : Ctl → Except CtlError (List Interest)
  | .add i =>
      if interests.any fun j => j.fd = i.fd ∧ j.openFile = i.openFile then .error .EEXIST
      else if i.file = .epoll e then .error .EINVAL
      else .ok (interests ++ [{ i with events := i.events ||| POLLERR ||| POLLHUP }])
  | .mod i =>
      match interests.findIdx? fun j => j.fd = i.fd ∧ j.openFile = i.openFile with
      | none => .error .ENOENT
      | some k =>
          .ok (interests.modify k fun j =>
            { j with events := i.events ||| POLLERR ||| POLLHUP, data := i.data })
  | .del fd openFile =>
      match interests.findIdx? fun j => j.fd = fd ∧ j.openFile = openFile with
      | none => .error .ENOENT
      | some k => .ok (interests.eraseIdx k)

inductive Action where
  /-- A task makes a call, which waits or only looks. -/
  | call (t : Nat) (c : Call) (wait : Bool)
  | select (t : Nat) (table : Nat → Option File) (n : Nat) (rs ws es : Nat → Bool) (wait : Bool)
  /-- A task that was woken looks again. -/
  | resume (t : Nat)
  /-- A call ends by its deadline or by a signal. -/
  | giveUp (t : Nat)
  | ctl (e : Nat) (c : Ctl)
  | op (o : Op)

namespace Machine

def step (depth : Nat) (m : Machine) : Action → Option Machine
  | .call t c wait => if (m.tasks t).isNone then some (m.enter depth t c wait) else none
  | .select t table n rs ws es wait =>
      if (m.tasks t).isNone then
        some (m.enter depth t (.poll (selectFds table n rs ws es)) wait)
      else none
  | .resume t =>
      match m.tasks t with
      | some ⟨c, queues, true⟩ =>
          match c with
          -- the queues were entered in the first round
          | .poll _ => some (m.round depth t c queues true)
          | .epollWait _ _ => some ((m.clear t queues).enter depth t c true)
      | _ => none
  | .giveUp t => (m.tasks t).map fun w => m.leave t w.queues
  | .ctl e c =>
      match epollCtl e (m.objects.epolls e) c with
      | .error _ => some m
      | .ok interests =>
          some ({ m with objects := m.objects.setEpoll e interests }.wakeAll (.epoll e))
  | .op o =>
      let (objects, queues) := m.objects.apply o
      some (queues.foldl wakeAll { m with objects := objects })

end Machine

/-!
## Which operations wake whom

An operation that makes a file ready for something wakes the queue the file offers, with
one exception: a read of the master makes room for the writers of the terminal, and wakes
the queue of those that wait in `write`, which no file offers.
-/

/-- The file is not an epoll instance. -/
def File.isPlain : File → Bool
  | .epoll _ => false
  | _ => true

/-- The operation makes room for the writers of a terminal. -/
def Op.makesRoom (o : Objects) : Op → Nat → Bool
  | .masterRead i len, j => i == j && (o.ttys i).makesRoom len
  | _, _ => false

namespace Objects

variable {o : Objects} {i : Nat} {room : Nat → Bool}

/-- A plain file whose queue is not woken gets no event it did not have, a terminal that
gets room apart. -/
def Tells (o o' : Objects) (queues : List Queue) (room : Nat → Bool) : Prop :=
  ∀ depth f want, f.isPlain = true → f.pollWait ∉ queues →
    (∀ i, f = .tty i → room i = true → POLLOUT &&& want = 0) →
    o.poll depth f &&& want = 0 → o'.poll depth f &&& want = 0

theorem tells_setEventFd (r : EventFd × Outcome × Bool)
    (h : r.2.2 = false → r.1 = o.eventfds i) :
    Tells o (o.setEventFd i r).1 (o.setEventFd i r).2 room := by
  intro depth f want hplain hqueue _
  cases f with
  | eventfd j =>
      by_cases hj : j = i
      · subst hj
        have hwoken : r.2.2 = false := by
          by_contra hno
          simp [setEventFd, File.pollWait, hno] at hqueue
        simp [setEventFd, poll, h hwoken]
      · simp [setEventFd, poll, Function.update_of_ne hj]
  | epoll e => cases hplain
  | _ => simp [setEventFd, poll]

theorem tells_setPipe {p : Pipe} {woken : Bool} (h : woken = false → p = o.pipes i) :
    Tells o (o.setPipe i p woken).1 (o.setPipe i p woken).2 room := by
  have hpipe : ∀ j, Queue.pipe j ∉ (o.setPipe i p woken).2 →
      (o.setPipe i p woken).1.pipes j = o.pipes j := by
    intro j hqueue
    by_cases hj : j = i
    · subst hj
      have hwoken : woken = false := by
        by_contra hno
        simp [setPipe, hno] at hqueue
      rw [setPipe, h hwoken, Function.update_eq_self]
    · exact Function.update_of_ne hj _ _
  intro depth f want hplain hqueue _
  cases f with
  | pipeReader j => rw [poll, poll, hpipe j hqueue]; exact id
  | pipeWriter j => rw [poll, poll, hpipe j hqueue]; exact id
  | pipeDuplex j => rw [poll, poll, hpipe j hqueue]; exact id
  | epoll e => cases hplain
  | _ => simp [setPipe, poll]

theorem tells_setTty {t : Tty} {w : Wakes}
    (hread : w.read = false → ∀ want, (room i = true → POLLOUT &&& want = 0) →
      (o.ttys i).poll &&& want = 0 → t.poll &&& want = 0)
    (hmaster : w.master = false → Quiet (o.ttys i).masterPoll t.masterPoll) :
    Tells o (o.setTty i t w).1 (o.setTty i t w).2 room := by
  intro depth f want hplain hqueue hroom
  cases f with
  | tty j =>
      by_cases hj : j = i
      · subst hj
        have hwoken : w.read = false := by
          by_contra hno
          simp [setTty, File.pollWait, hno] at hqueue
        simpa [setTty, poll] using hread hwoken want (hroom j rfl)
      · simp [setTty, poll, Function.update_of_ne hj]
  | ptyMaster j =>
      by_cases hj : j = i
      · subst hj
        have hwoken : w.master = false := by
          by_contra hno
          simp [setTty, File.pollWait, hno] at hqueue
        simpa [setTty, poll] using hmaster hwoken want
      · simp [setTty, poll, Function.update_of_ne hj]
  | epoll e => cases hplain
  | _ => simp [setTty, poll]

theorem tells_apply (o : Objects) (op : Op) :
    Tells o (o.apply op).1 (o.apply op).2 (op.makesRoom o) := by
  cases op with
  | eventfdRead i len => exact tells_setEventFd _ EventFd.read_of_not_woken
  | eventfdWrite i len v => exact tells_setEventFd _ EventFd.write_of_not_woken
  | pipeRead i len => exact tells_setPipe Pipe.read_of_not_woken
  | pipeWrite i buf done => exact tells_setPipe Pipe.write_of_not_woken
  | pipeRelease i reader writer => exact tells_setPipe nofun
  | input i data =>
      apply tells_setTty
      · exact fun hread want _ => Tty.inputBytes_quiet data hread want
      · intro hmaster
        rw [Tty.masterPoll_congr (((o.ttys i).keeps_inputBytes data).output hmaster)]
        exact .refl _
  | ttyRead i len =>
      apply tells_setTty
      · exact fun _ want _ => Tty.read_quiet len want
      · intro _
        rw [Tty.masterPoll_congr (Tty.read_toMaster len)]
        exact .refl _
  | ttyWrite i buf off =>
      have hsinks := Tty.write_sinks buf off (t := o.ttys i)
      apply tells_setTty
      · exact fun _ want _ => hsinks.quiet want
      · intro hmaster
        rw [Tty.masterPoll_congr (hsinks.output hmaster)]
        exact .refl _
  | setTermios i termios flush =>
      apply tells_setTty
      · intro hread
        cases hread
      · intro _
        rw [Tty.masterPoll_congr]
        · exact .refl _
        · simp only [Tty.setTermios]
          split
          · rfl
          split <;> rfl
  | flushInput i =>
      apply tells_setTty
      · exact fun _ want _ => Tty.flushInput_quiet want
      · exact fun _ => .refl _
  | hangup i =>
      apply tells_setTty
      · intro hread
        cases hread
      · exact fun _ => .refl _
  | ttyRelease i =>
      apply tells_setTty
      · intro _ want _
        have hroom : (o.ttys i).release.sinkHasRoom = (o.ttys i).sinkHasRoom :=
          Tty.sinkHasRoom_congr rfl
        have hquiet : Quiet (o.ttys i).poll (o.ttys i).release.poll :=
          Tty.quiet_poll id hroom.symm.trans id
        exact hquiet want
      · exact fun _ => .refl _
  | masterRead i len =>
      apply tells_setTty
      · intro _ want hroom
        exact Tty.masterRead_poll (by simpa [Op.makesRoom] using hroom)
      · exact fun _ => Tty.masterRead_toMaster len
  | masterRelease i =>
      apply tells_setTty
      · intro hread
        cases hread
      · intro _
        apply Tty.quiet_masterPoll
        intro q hq
        cases hq

theorem room_apply {op : Op} {j : Nat} (h : op.makesRoom o j = true) :
    ((o.apply op).1.ttys j).sinkHasRoom = true := by
  cases op with
  | masterRead i len =>
      simp only [Op.makesRoom, Tty.makesRoom, Bool.and_eq_true, beq_iff_eq] at h
      obtain ⟨rfl, -, hroom⟩ := h
      simpa [apply, setTty] using hroom
  | _ => cases h

theorem apply_epolls (o : Objects) (op : Op) : (o.apply op).1.epolls = o.epolls := by
  cases op <;> rfl

end Objects

end MindOS.Kernel.Poll
