import Mathlib.Data.List.Nodup
import Mathlib.Logic.Function.Basic
import MindOS.Transition

/-!
# Processes and their children

## Processes and their children

What the kernel keeps of each process for `fork`, `exit` and `wait`, and what these do
between two points at which a task can block. A process whose last thread is in `task_exit`
is leaving; releasing its files can block, so what follows is a step of its own.
-/

namespace MindOS.Kernel.Proc

inductive ProcState where
  | running
  | stopped
  | zombie
  deriving DecidableEq

def SIG_IGN : Nat := 1
def SA_NOCLDWAIT : Nat := 2

def WNOHANG : Nat := 1
def WUNTRACED : Nat := 2
def WCONTINUED : Nat := 8
def WNOWAIT : Nat := 0x01000000

/-- What a process does on SIGCHLD. -/
structure SigAction where
  handler : Nat := 0
  flags : Nat := 0

/-- The parent does not want to wait for its children. -/
def SigAction.AutoReaps (a : SigAction) : Prop :=
  a.handler = SIG_IGN ∨ a.flags &&& SA_NOCLDWAIT ≠ 0

instance (a : SigAction) : Decidable a.AutoReaps := inferInstanceAs (Decidable (_ ∨ _))

/-- The records of all processes, and the table of pids. -/
structure Procs (P : Type) where
  born : P → Bool
  pid : P → Nat
  parent : P → Option P
  children : P → List P
  threads : P → Nat
  leaving : P → Bool
  state : P → ProcState
  exitCode : P → Int
  pgid : P → Nat
  groupExit : P → Bool
  stopSignal : P → Int
  stoppedReported : P → Bool
  continuedReported : P → Bool
  action : P → SigAction
  table : Nat → Option P

/-- What `wait` tells of a child. -/
inductive Report where
  | exited
  | stopped
  | continued
  deriving DecidableEq

/-- What a round of `wait` comes to: a child with its status, ECHILD, no child with WNOHANG,
or a sleep until a child changes. -/
inductive Answer (P : Type) where
  | report (c : P) (r : Report) (status : Int)
  | noChild
  | nothing
  | sleeps

inductive Act (P : Type) where
  /-- `do_clone` by a thread of a process, with CLONE_PARENT or without; a child that is not
  started stays for ever. -/
  | fork (p c : P) (pid : Nat) (viaParent starts : Bool)
  /-- The address space could not be copied. -/
  | forkFails (p c : P) (pid : Nat)
  | addThread (p : P)
  | exitGroup (p : P) (code : Int)
  | exitGroupSignal (p : P) (signo : Int)
  | taskExit (p : P) (code : Int)
  | processExit (p : P)
  | setAction (p : P) (a : SigAction)
  | setPgid (p : P) (g : Nat)
  /-- A thread takes a stop signal. -/
  | doStop (p : P) (signo : Int)
  | sendCont (p : P)
  | wait (p : P) (which : Int) (options : Nat)

namespace Procs

variable {P : Type} [DecidableEq P]

def unregister (s : Procs P) (pid : Nat) : Procs P :=
  { s with table := Function.update s.table pid none }

def setState (s : Procs P) (p : P) (st : ProcState) : Procs P :=
  { s with state := Function.update s.state p st }

def setChildren (s : Procs P) (p : P) (cs : List P) : Procs P :=
  { s with children := Function.update s.children p cs }

@[simp] theorem setChildren_self (s : Procs P) (p : P) (cs : List P) :
    (s.setChildren p cs).children p = cs := Function.update_self ..

theorem setChildren_of_ne (s : Procs P) {p q : P} (h : q ≠ p) (cs : List P) :
    (s.setChildren p cs).children q = s.children q := Function.update_of_ne h ..

def addChild (s : Procs P) (p c : P) : Procs P :=
  { s.setChildren p (s.children p ++ [c]) with parent := Function.update s.parent c (some p) }

/-- The parent, if it has not been freed. -/
def parentOf (s : Procs P) (p : P) : Option P :=
  (s.parent p).filter fun q => s.table (s.pid q) = some q

/-- `Process::new`: a process with a pid that is not registered. -/
def new (s : Procs P) (c : P) (pid : Nat) : Procs P :=
  { s with
    born := Function.update s.born c true
    pid := Function.update s.pid c pid
    parent := Function.update s.parent c none
    children := Function.update s.children c []
    threads := Function.update s.threads c 0
    leaving := Function.update s.leaving c false
    state := Function.update s.state c .running
    exitCode := Function.update s.exitCode c 0
    pgid := Function.update s.pgid c pid
    groupExit := Function.update s.groupExit c false
    stopSignal := Function.update s.stopSignal c 0
    stoppedReported := Function.update s.stoppedReported c false
    continuedReported := Function.update s.continuedReported c false
    action := Function.update s.action c {}
    table := Function.update s.table pid (some c) }

/-- `do_clone` without CLONE_THREAD. -/
def fork (s : Procs P) (p c : P) (pid : Nat) (viaParent starts : Bool) : Procs P :=
  let s := s.new c pid
  let s := { s with
    action := Function.update s.action c (s.action p)
    pgid := Function.update s.pgid c (s.pgid p) }
  let s := s.addChild (if viaParent then (s.parentOf p).getD p else p) c
  { s with threads := Function.update s.threads c (if starts then 1 else 0) }

/-- The children of a process go to init, if there is one. -/
def reparent (s : Procs P) (p : P) : Procs P :=
  let cs := s.children p
  let s := s.setChildren p []
  if cs = [] then s
  else
    match s.table 1 with
    | some i => cs.foldl (fun s c => s.addChild i c) s
    | none => s

/-- A process whose last thread is gone. -/
def processExit (s : Procs P) (p : P) : Procs P :=
  let s := (s.reparent p).setState p .zombie
  match s.parentOf p with
  | some q =>
      if (s.action q).AutoReaps then
        (s.setChildren q ((s.children q).filter fun c => s.pid c ≠ s.pid p)).unregister (s.pid p)
      else s
  | none => s.unregister (s.pid p)

/-- `exit_group`: the first to call it sets the status. -/
def exitWith (s : Procs P) (p : P) (status : Int) : Procs P :=
  { s with
    exitCode := if s.groupExit p then s.exitCode else Function.update s.exitCode p status
    groupExit := Function.update s.groupExit p true }

/-- `task_exit`, up to where releasing the files can block. -/
def taskExit (s : Procs P) (p : P) (code : Int) : Procs P :=
  let s := { s with threads := Function.update s.threads p (s.threads p - 1) }
  if 0 < s.threads p then s
  else
    { s with
      leaving := Function.update s.leaving p true
      exitCode := if s.groupExit p then s.exitCode
        else Function.update s.exitCode p (code % 256 * 256) }

def doStop (s : Procs P) (p : P) (signo : Int) : Procs P :=
  { s.setState p .stopped with
    stopSignal := Function.update s.stopSignal p signo
    stoppedReported := Function.update s.stoppedReported p false }

/-- What SIGCONT does to the process it is sent to. -/
def sendCont (s : Procs P) (p : P) : Procs P :=
  if s.state p = .stopped then
    { s.setState p .running with
      continuedReported := Function.update s.continuedReported p false }
  else s

/-- Whether `wait` asks for a child. -/
def Matches (s : Procs P) (which : Int) (me c : P) : Prop :=
  if which = -1 then True
  else if 0 < which then (s.pid c : Int) = which % 4294967296
  else if which = 0 then s.pgid c = s.pgid me
  else (s.pgid c : Int) = -which % 4294967296

instance (s : Procs P) (which : Int) (me c : P) : Decidable (s.Matches which me c) := by
  unfold Matches
  infer_instance

/-- What `wait` with these options finds of a child. -/
def found (s : Procs P) (options : Nat) (c : P) : Option Report :=
  if s.state c = .zombie then some .exited
  else if options &&& WUNTRACED ≠ 0 ∧ s.state c = .stopped ∧ s.stoppedReported c = false then
    some .stopped
  else if options &&& WCONTINUED ≠ 0 ∧ s.state c = .running ∧ s.stoppedReported c = true ∧
      s.continuedReported c = false then
    some .continued
  else none

def status (s : Procs P) (c : P) : Report → Int
  | .exited => s.exitCode c
  | .stopped => 0x7f + s.stopSignal c * 256
  | .continued => 0xffff

/-- The children that a `wait` asks for, in order. -/
def asked (s : Procs P) (me : P) (which : Int) : List P :=
  (s.children me).filter fun c => s.Matches which me c

/-- A round of `wait`. -/
def answer (s : Procs P) (me : P) (which : Int) (options : Nat) : Answer P :=
  match (s.asked me which).findSome? fun c => (s.found options c).map fun r => (c, r) with
  | some (c, r) => .report c r (s.status c r)
  | none =>
      if s.asked me which = [] then .noChild
      else if options &&& WNOHANG ≠ 0 then .nothing
      else .sleeps

/-- What `wait` does to the child it reports. -/
def told (s : Procs P) (me : P) (options : Nat) (c : P) : Report → Procs P
  | .exited =>
      if options &&& WNOWAIT = 0 then
        (s.setChildren me ((s.children me).filter fun x => s.pid x ≠ s.pid c)).unregister (s.pid c)
      else s
  | .stopped => { s with stoppedReported := Function.update s.stoppedReported c true }
  | .continued =>
      { s with
        continuedReported := Function.update s.continuedReported c true
        stoppedReported := Function.update s.stoppedReported c false }

def wait (s : Procs P) (me : P) (which : Int) (options : Nat) : Procs P :=
  match s.answer me which options with
  | .report c r _ => s.told me options c r
  | _ => s

/-- A process that has a thread. -/
def Lives (s : Procs P) (p : P) : Prop := s.born p = true ∧ 0 < s.threads p

instance (s : Procs P) (p : P) : Decidable (s.Lives p) := inferInstanceAs (Decidable (_ ∧ _))

/-- A process that does not exist yet, and a pid that is free. -/
def Free (s : Procs P) (c : P) (pid : Nat) : Prop :=
  s.born c = false ∧ 1 < pid ∧ s.table pid = none

instance (s : Procs P) (c : P) (pid : Nat) : Decidable (s.Free c pid) :=
  inferInstanceAs (Decidable (_ ∧ _))

/-- One step. -/
def step (s : Procs P) : Act P → Option (Procs P)
  | .fork p c pid viaParent starts =>
      if s.Lives p ∧ s.Free c pid then some (s.fork p c pid viaParent starts) else none
  | .forkFails p c pid => if s.Lives p ∧ s.Free c pid then some (s.new c pid) else none
  | .addThread p =>
      if s.Lives p then some { s with threads := Function.update s.threads p (s.threads p + 1) }
      else none
  | .exitGroup p code => if s.Lives p then some (s.exitWith p (code % 256 * 256)) else none
  | .exitGroupSignal p signo => if s.Lives p then some (s.exitWith p (signo % 128)) else none
  | .taskExit p code => if s.Lives p then some (s.taskExit p code) else none
  | .processExit p =>
      if s.born p ∧ s.leaving p ∧ s.state p ≠ .zombie then some (s.processExit p) else none
  | .setAction p a =>
      if s.Lives p then some { s with action := Function.update s.action p a } else none
  | .setPgid p g => if s.born p then some { s with pgid := Function.update s.pgid p g } else none
  | .doStop p signo => if s.Lives p then some (s.doStop p signo) else none
  | .sendCont p => if s.born p then some (s.sendCont p) else none
  | .wait p which options => if s.Lives p then some (s.wait p which options) else none

end Procs

/-!
## What happened to each child

The history that `wait` is to tell, kept apart from the flags of the kernel: whose child each
process is, how far its life has gone, and whether its last stop or continue is still to be
reported. Answers of `wait` are judged by it.
-/

open Transition

/-- The life of a process. One that is `gone` has been reaped. -/
inductive Stage where
  | unborn
  | running
  | stopped
  | zombie
  | gone
  deriving DecidableEq

/-- The process has not exited. -/
def Stage.Alive (g : Stage) : Prop := g = .running ∨ g = .stopped

/-- The process has not been reaped. -/
def Stage.Unreaped (g : Stage) : Prop := g.Alive ∨ g = .zombie

instance : DecidablePred Stage.Alive := fun _ => inferInstanceAs (Decidable (_ ∨ _))

instance : DecidablePred Stage.Unreaped := fun _ => inferInstanceAs (Decidable (_ ∨ _))

/-- `owed` is the last stop or continue of a process, when no wait has reported it. -/
structure Family (P : Type) where
  parent : P → Option P
  stage : P → Stage
  owed : P → Bool

namespace Family

variable {P : Type} [DecidableEq P]

def setStage (f : Family P) (p : P) (g : Stage) : Family P :=
  { f with stage := Function.update f.stage p g }

def setOwed (f : Family P) (p : P) (b : Bool) : Family P :=
  { f with owed := Function.update f.owed p b }

def born (f : Family P) (c : P) (parent : Option P) : Family P :=
  { (f.setStage c .running).setOwed c false with
    parent := Function.update f.parent c parent }

/-- A process exits: its children are init's now. If somebody is to wait for it, it stays. -/
def exited (f : Family P) (init p : P) (waitedFor : Bool) : Family P :=
  { f.setStage p (if waitedFor then .zombie else .gone) with
    parent := fun c =>
      if f.parent c = some p ∧ (f.stage c).Unreaped then some init else f.parent c }

/-- What a step does to the history, with the answer that `wait` gives in it. -/
def next (f : Family P) (init : P) (s : Procs P) : Act P → Family P
  | .fork p c _ viaParent _ => f.born c (some (if viaParent then (f.parent p).getD p else p))
  | .forkFails _ c _ => f.born c none
  | .processExit p =>
      f.exited init p ((f.parent p).any fun q => ¬(s.action q).AutoReaps)
  | .doStop p _ => (f.setStage p .stopped).setOwed p true
  | .sendCont p =>
      if f.stage p = .stopped then (f.setStage p .running).setOwed p true else f
  | .wait p which options =>
      match s.answer p which options with
      | .report c .exited _ => if options &&& WNOWAIT = 0 then f.setStage c .gone else f
      | .report c _ _ => f.setOwed c false
      | _ => f
  | _ => f

/-- What a `wait` with these options is to be told of a child. -/
def Due (f : Family P) (options : Nat) (c : P) : Report → Prop
  | .exited => f.stage c = .zombie
  | .stopped => options &&& WUNTRACED ≠ 0 ∧ f.stage c = .stopped ∧ f.owed c = true
  | .continued => options &&& WCONTINUED ≠ 0 ∧ f.stage c = .running ∧ f.owed c = true

/-- The children that a `wait` asks for. -/
def Asked (f : Family P) (s : Procs P) (me : P) (which : Int) (c : P) : Prop :=
  f.parent c = some me ∧ s.Matches which me c

/-- The answers that `wait` may give. -/
def Allows (f : Family P) (s : Procs P) (me : P) (which : Int) (options : Nat) :
    Answer P → Prop
  | .report c r _ => f.Asked s me which c ∧ f.Due options c r
  | .noChild => ∀ c, f.Asked s me which c → ¬(f.stage c).Unreaped
  | _ => ∀ c, f.Asked s me which c → ∀ r, ¬f.Due options c r

end Family

/-- The kernel and the history. -/
structure World (P : Type) where
  procs : Procs P
  family : Family P

namespace World

variable {P : Type} [DecidableEq P]

def step (init : P) (w : World P) (a : Act P) : Option (World P) :=
  (w.procs.step a).map fun s => ⟨s, w.family.next init w.procs a⟩

/-- A process is registered until it is reaped, and someone is there to reap it. -/
structure Kept (w : World P) : Prop where
  registered : ∀ p, (w.family.stage p).Unreaped ↔ w.procs.table (w.procs.pid p) = some p
  parentAlive : ∀ c q, (w.family.stage c).Unreaped → w.family.parent c = some q →
    (w.family.stage q).Alive
  zombie : ∀ c, w.family.stage c = .zombie → ∃ q, w.family.parent c = some q

/-- The step answers a `wait` as it may, keeps the table of pids and undoes no exit. -/
structure Good (w : World P) (a : Act P) (w' : World P) : Prop where
  kept : w'.Kept
  allows : ∀ me which options, a = .wait me which options →
    w.family.Allows w.procs me which options (w.procs.answer me which options)
  exited : ∀ p, w.family.stage p = .zombie →
    w'.family.stage p = .zombie ∨ w'.family.stage p = .gone
  reaped : ∀ p, w.family.stage p = .gone → w'.family.stage p = .gone

/-- A child that was continued after a stop that no `wait` had reported. -/
def Missed (w : World P) (c : P) : Prop :=
  w.family.stage c = .running ∧ w.family.owed c = true ∧ w.procs.stoppedReported c = false

/-- A `wait` that asks for a child continued after an unreported stop has another one to
report; and a process that exits leaves its children to an init that is alive. -/
def Sound (init : P) (w : World P) : Act P → Prop
  | .wait me which options =>
      options &&& WCONTINUED ≠ 0 → ∀ c, w.family.Asked w.procs me which c → w.Missed c →
        ∃ d, w.family.Asked w.procs me which d ∧ ¬w.Missed d ∧ ∃ r, w.family.Due options d r
  | .processExit p =>
      ∀ c, w.family.parent c = some p → (w.family.stage c).Unreaped →
        p ≠ init ∧ (w.family.stage init).Alive
  | _ => True

/-- Only init exists: it has one thread, no parent and no children. -/
def boot (init : P) : World P where
  procs := {
    born := Function.update (fun _ => false) init true
    pid := fun _ => 1
    parent := fun _ => none
    children := fun _ => []
    threads := fun _ => 1
    leaving := fun _ => false
    state := fun _ => .running
    exitCode := fun _ => 0
    pgid := fun _ => 1
    groupExit := fun _ => false
    stopSignal := fun _ => 0
    stoppedReported := fun _ => false
    continuedReported := fun _ => false
    action := fun _ => {}
    table := Function.update (fun _ => none) 1 (some init) }
  family := {
    parent := fun _ => none
    stage := Function.update (fun _ => .unborn) init .running
    owed := fun _ => false }

end World

end MindOS.Kernel.Proc
