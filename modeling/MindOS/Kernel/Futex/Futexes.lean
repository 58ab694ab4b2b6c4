import MindOS.Firsts
import MindOS.Kernel.Mm.Words
import MindOS.Kernel.Sched.Cpu

/-!
# Futexes

## Keys and waiters

A wait and a wake meet by their keys. The key of a private call is the address in its address
space; that of another is made of the physical address, which the kernel takes when the call is
made. A waiter is listed until its own thread takes it off.
-/

namespace MindOS.Kernel.Futex

open Mm Mm.Machine Firsts
open Tmpfs (pageSize)

inductive Errno where
  | memory (e : Mm.Errno)
  | EAGAIN
  | ETIMEDOUT
  | ERESTARTSYS
  deriving DecidableEq

/-- The root of an address space is a frame, and not the first one: keys of the two kinds differ. -/
inductive Key where
  | space (p addr : Nat)
  | physical (pa : Nat)
  deriving DecidableEq

/-- The word at an address of a process. -/
structure Word where
  space : Nat
  addr : Nat
  deriving DecidableEq

def keyFor (m : Machine) (p uaddr : Nat) (isPrivate : Bool) (picks : Nat → Picks) :
    Machine × Except Errno Key :=
  if uaddr % 4 ≠ 0 then (m, .error (.memory .EINVAL))
  else if (m.spaces p).isNone then (m, .error (.memory .EFAULT))
  else if isPrivate then (m, .ok (.space p uaddr))
  else
    match m.populateRange p uaddr 4 picks with
    | (m, .error e) => (m, .error (.memory e))
    | (m, .ok _) =>
        match m.translate p uaddr with
        | none => (m, .error (.memory .EFAULT))
        -- the address has the offset in the page already
        | some pa => (m, .ok (.physical (pa + uaddr % pageSize)))

structure Waiter (T : Type) where
  key : Key
  task : T
  bitset : BitVec 32
  woken : Bool

namespace Waiter

variable {T : Type}

/-- The waiter is one that a wake with this key and this bitset selects. -/
def selected (key : Key) (bitset : BitVec 32) (w : Waiter T) : Bool :=
  w.key = key ∧ w.woken = false ∧ w.bitset &&& bitset ≠ 0

def wake (w : Waiter T) : Waiter T := { w with woken := true }

/-- The waiter is one that a requeue moves. -/
def movable (key : Key) (w : Waiter T) : Bool := w.key = key ∧ w.woken = false

def move (key : Key) (w : Waiter T) : Waiter T := { w with key := key }

end Waiter

variable {T : Type}

/-- Wakes the first `n` waiters. The second list is the tasks to wake. -/
def wakeKey (key : Key) (n : Nat) (bitset : BitVec 32) (ws : List (Waiter T)) :
    List (Waiter T) × List T :=
  let r := change (Waiter.selected key bitset) Waiter.wake n ws
  (r.1, r.2.map Waiter.task)

/-- The second part of `requeue`. The second list is the tasks moved, of which it returns the
number. -/
def moveKey (k1 k2 : Key) (n : Nat) (ws : List (Waiter T)) : List (Waiter T) × List T :=
  let r := change (Waiter.movable k1) (Waiter.move k2) n ws
  (r.1, r.2.map Waiter.task)

/-- Takes the entries of a task off the list; says whether one of them was woken. -/
def removeWaiter [DecidableEq T] (t : T) (ws : List (Waiter T)) : List (Waiter T) × Bool :=
  (ws.filter fun w => w.task ≠ t, ws.any fun w => w.task = t ∧ w.woken = true)

/-! ### The same memory -/

/-- The pages of two words are mapped shared, and are one. -/
def SharedPage (m : Machine) (v w : Word) : Prop :=
  (∃ r, m.regionAt v.space (v.addr / pageSize * pageSize) = some r ∧ r.shared = true) ∧
    (∃ r, m.regionAt w.space (w.addr / pageSize * pageSize) = some r ∧ r.shared = true) ∧
    ∃ e e', m.pte v.space (v.addr / pageSize) = some e ∧
      m.pte w.space (w.addr / pageSize) = some e' ∧ e.frame = e'.frame

/-- Two words are one: the same address in one address space or, if the calls are not private,
the same place of a shared page. -/
def SameMemory (m : Machine) (isPrivate : Bool) (v w : Word) : Prop :=
  v = w ∨ isPrivate = false ∧ v.addr % pageSize = w.addr % pageSize ∧ SharedPage m v w

/-- The frame of a word. -/
def frameOf (m : Machine) (w : Word) : Option Nat :=
  (m.pte w.space (w.addr / pageSize)).map Pte.frame

/-- The key is that of the word now. -/
def Fits (m : Machine) (isPrivate : Bool) (w : Word) (key : Key) : Prop :=
  if isPrivate then key = .space w.space w.addr
  else ∃ f, frameOf m w = some f ∧
    key = .physical (f * pageSize + w.addr % pageSize + w.addr % pageSize)

/-- Two words lie apart: their frames are not neighbours with the words half a page off, and
they are not at one place of a frame, unless they are the same memory. -/
structure Clear (m : Machine) (v w : Word) : Prop where
  half : ∀ f f', frameOf m v = some f → frameOf m w = some f' →
    ¬(f' = f + 1 ∧ v.addr % pageSize = w.addr % pageSize + pageSize / 2) ∧
      ¬(f = f' + 1 ∧ w.addr % pageSize = v.addr % pageSize + pageSize / 2)
  copied : ∀ f, frameOf m v = some f → frameOf m w = some f →
    v.addr % pageSize = w.addr % pageSize → SameMemory m false v w

variable {m t : Machine} {p uaddr n : Nat} {isPrivate : Bool} {picks : Nat → Picks} {v w : Word}
  {key : Key} {bitset : BitVec 32}

theorem frameOf_grown (h : Grown m t) {f : Nat} (hf : frameOf m w = some f) :
    frameOf t w = some f := by
  obtain ⟨e, he, rfl⟩ := Option.map_eq_some_iff.mp hf
  rw [frameOf, h.pte _ _ e he]
  rfl

theorem Fits.grown (h : Fits m isPrivate w key) (hgrown : Grown m t) : Fits t isPrivate w key := by
  rw [Fits] at h ⊢
  split at h
  next hp => rw [if_pos hp, h]
  next hp =>
    rw [if_neg hp]
    obtain ⟨f, hf, hkey⟩ := h
    exact ⟨f, frameOf_grown hgrown hf, hkey⟩

theorem Fits.of_frame (h : Fits m isPrivate w key)
    (hframe : isPrivate = false → frameOf t w = frameOf m w) : Fits t isPrivate w key := by
  rw [Fits] at h ⊢
  split at h
  next hp => rw [if_pos hp, h]
  next hp =>
    rw [if_neg hp, hframe (Bool.eq_false_of_not_eq_true hp)]
    exact h

theorem Fits.flag_eq {isPrivate' : Bool} (h : Fits m isPrivate v key)
    (h' : Fits t isPrivate' w key) : isPrivate = isPrivate' := by
  rw [Fits] at h h'
  cases isPrivate <;> cases isPrivate'
  · rfl
  · obtain ⟨f, -, hkey⟩ := h
    cases hkey.symm.trans h'
  · obtain ⟨f, -, hkey⟩ := h'
    cases hkey.symm.trans h
  · rfl

theorem SharedPage.grown (h : SharedPage m v w) (hgrown : Grown m t) : SharedPage t v w := by
  obtain ⟨⟨r, hr, hrs⟩, ⟨r', hr', hrs'⟩, e, e', he, he', hframe⟩ := h
  exact ⟨⟨r, (hgrown.region _ _).trans hr, hrs⟩, ⟨r', (hgrown.region _ _).trans hr', hrs'⟩,
    e, e', hgrown.pte _ _ e he, hgrown.pte _ _ e' he', hframe⟩

theorem SameMemory.grown (h : SameMemory m isPrivate v w) (hgrown : Grown m t) :
    SameMemory t isPrivate v w :=
  h.imp id fun ⟨hp, hoffset, hshared⟩ => ⟨hp, hoffset, hshared.grown hgrown⟩

theorem Clear.grown {k k' : Key} (h : Clear m v w) (hgrown : Grown m t) (hv : Fits m false v k)
    (hw : Fits m false w k') : Clear t v w := by
  obtain ⟨f, hf, -⟩ := (if_neg Bool.false_ne_true).mp hv
  obtain ⟨f', hf', -⟩ := (if_neg Bool.false_ne_true).mp hw
  have hft : frameOf t v = some f := frameOf_grown hgrown hf
  have hft' : frameOf t w = some f' := frameOf_grown hgrown hf'
  refine ⟨fun g g' hg hg' => ?_, fun g hg hg' hoffset => ?_⟩
  · exact h.half g g' (hf.trans (hft.symm.trans hg)) (hf'.trans (hft'.symm.trans hg'))
  · exact (h.copied g (hf.trans (hft.symm.trans hg)) (hf'.trans (hft'.symm.trans hg'))
      hoffset).grown hgrown

theorem SameMemory.key_eq {k k' : Key} (h : SameMemory m isPrivate v w) (hv : Fits m isPrivate v k)
    (hw : Fits m isPrivate w k') : k = k' := by
  rw [Fits] at hv hw
  split at hv
  next hp =>
    rw [if_pos hp] at hw
    rcases h with rfl | ⟨hn, -⟩
    · exact hv.trans hw.symm
    · rw [hn] at hp
      cases hp
  next hp =>
    rw [if_neg hp] at hw
    obtain ⟨f, hf, rfl⟩ := hv
    obtain ⟨f', hf', rfl⟩ := hw
    rcases h with rfl | ⟨-, hoffset, -, -, e, e', he, he', hframe⟩
    · rw [Option.some.inj (hf.symm.trans hf')]
    · rw [frameOf, he] at hf
      rw [frameOf, he'] at hf'
      rw [← Option.some.inj hf, ← Option.some.inj hf', hframe, hoffset]

theorem Clear.same (h : isPrivate = false → Clear m v w) (hv : Fits m isPrivate v key)
    (hw : Fits m isPrivate w key) : SameMemory m isPrivate v w := by
  rw [Fits] at hv hw
  split at hv
  next hp =>
    rw [if_pos hp, hv] at hw
    obtain ⟨hspace, haddr⟩ := Key.space.inj hw
    obtain ⟨vspace, vaddr⟩ := v
    obtain ⟨wspace, waddr⟩ := w
    exact .inl (congrArg₂ Word.mk hspace haddr)
  next hp =>
    rw [if_neg hp] at hw
    have hn : isPrivate = false := Bool.eq_false_of_not_eq_true hp
    obtain ⟨f, hf, rfl⟩ := hv
    obtain ⟨f', hf', hkey⟩ := hw
    have hsum := Key.physical.inj hkey
    have hvlt : v.addr % pageSize < pageSize := Nat.mod_lt _ (by decide)
    have hwlt : w.addr % pageSize < pageSize := Nat.mod_lt _ (by decide)
    have hhalf := (h hn).half f f' hf hf'
    have hsame := (h hn).copied f hf
    rw [hn]
    generalize v.addr % pageSize = o at *
    generalize w.addr % pageSize = o' at *
    simp only [pageSize_eq] at *
    obtain ⟨rfl, rfl⟩ : f = f' ∧ o = o' := by omega
    exact hsame hf' rfl

/-! ### Keys of calls -/

theorem keyFor_ok (h : keyFor m p uaddr isPrivate picks = (t, .ok key)) :
    Grown m t ∧ Fits t isPrivate ⟨p, uaddr⟩ key := by
  rw [keyFor] at h
  split at h
  next => cases h
  next =>
    split at h
    next => cases h
    next =>
      split at h
      next hp =>
        cases h
        exact ⟨.refl, (if_pos hp).mpr rfl⟩
      next hp =>
        have hgrown := @populateRange_grown p m uaddr 4 picks
        split at h
        next => cases h
        next u _ hpop =>
          rw [hpop] at hgrown
          split at h
          next => cases h
          next pa hpa =>
            cases h
            obtain ⟨e, he, rfl⟩ := Option.map_eq_some_iff.mp hpa
            refine ⟨hgrown, (if_neg hp).mpr ⟨e.frame, ?_, rfl⟩⟩
            rw [frameOf, he]
            rfl

theorem keyFor_fst (h : keyFor m p uaddr false picks = (t, .ok key)) :
    uaddr % 4 = 0 ∧ t = (m.populateRange p uaddr 4 picks).1 := by
  rw [keyFor] at h
  split at h
  next => cases h
  next haligned =>
    refine ⟨Decidable.not_not.mp haligned, ?_⟩
    split at h
    next => cases h
    next =>
      rw [if_neg Bool.false_ne_true] at h
      split at h
      next => cases h
      next hpop =>
        rw [hpop]
        split at h
        next => cases h
        next => exact (Prod.mk.inj h).1.symm

theorem keyFor_grown : Grown m (keyFor m p uaddr isPrivate picks).1 := by
  have hgrown := @populateRange_grown p m uaddr 4 picks
  rw [keyFor]
  split
  · exact .refl
  · split
    · exact .refl
    · split
      · exact .refl
      · split
        next hpop =>
          rw [hpop] at hgrown
          exact hgrown
        next hpop =>
          rw [hpop] at hgrown
          split <;> exact hgrown

end MindOS.Kernel.Futex

/-!
## Futex calls

Threads of any number of processes wait on words and wake each other. The kernel does not
preempt itself: a call runs until it gives up the CPU, which only a wait does, after it has put
itself on the list and looked at the word; signals and timers come at any time.
-/

namespace MindOS.Kernel.Futex

open Mm Sched

/-- A wait: the word, the value it must have, the bitset, and whether there is a deadline. -/
structure WaitCall where
  uaddr : UInt64
  val : UInt32
  bitset : BitVec 32
  timed : Bool
  isPrivate : Bool

/-- A call that does not wait. -/
inductive Op where
  | wake (uaddr : UInt64) (n : Nat)
  | wakeBitset (uaddr : UInt64) (n : Nat) (bitset : BitVec 32)
  | requeue (uaddr uaddr2 : UInt64) (nwake nrequeue : Nat)
  | cmpRequeue (uaddr uaddr2 : UInt64) (nwake nrequeue : Nat) (val : UInt32)

namespace Op

/-- The word of the call. -/
def uaddr : Op → UInt64
  | wake a _ => a
  | wakeBitset a _ _ => a
  | requeue a _ _ _ => a
  | cmpRequeue a _ _ _ _ => a

/-- The word that waiters are moved to, if it moves any. -/
def uaddr2 : Op → UInt64
  | wake a _ => a
  | wakeBitset a _ _ => a
  | requeue _ a _ _ => a
  | cmpRequeue _ a _ _ _ => a

def nwake : Op → Nat
  | wake _ n => n
  | wakeBitset _ n _ => n
  | requeue _ _ n _ => n
  | cmpRequeue _ _ n _ _ => n

def nrequeue : Op → Nat
  | wake _ _ => 0
  | wakeBitset _ _ _ => 0
  | requeue _ _ _ n => n
  | cmpRequeue _ _ _ n _ => n

def bitset : Op → BitVec 32
  | wakeBitset _ _ b => b
  | _ => BitVec.allOnes 32

end Op

/-- Where a thread is: in user mode; in `wait`, on the list but before it has looked at the word;
or in `wait` without the CPU, or with it again. -/
inductive Point where
  | user
  | registered (call : WaitCall)
  | asleep (call : WaitCall)

namespace Point

def call : Point → Option WaitCall
  | user => none
  | registered c => some c
  | asleep c => some c

end Point

/-- The waiters, and what the kernel keeps of the threads and their memory. -/
structure Futexes (T : Type) where
  mem : Machine
  waiters : List (Waiter T)
  space : T → Nat
  state : T → TaskState
  interruptible : T → Bool
  timedOut : T → Bool
  /-- A timer is set for the thread. -/
  armed : T → Bool
  signal : T → Bool
  point : T → Point
  /-- What the last call returned. -/
  result : T → Except Errno Nat
  current : Option T

/-- What a call that does not wait did: the tasks it woke and those it moved, and what it
returns. -/
structure Report (T : Type) where
  woken : List T
  moved : List T
  result : Except Errno Nat

inductive Act (T : Type) where
  /-- A thread or a fault does something with the memory. -/
  | memory (a : Mm.Act)
  /-- `wait`, in three parts. -/
  | wait (call : WaitCall) (picks : Nat → Picks)
  | check (picks : Nat → Picks)
  | resume
  | call (op : Op) (isPrivate : Bool) (picks : Nat → Picks)
  | takeSignal
  | yieldNow
  | dispatch (t : T)
  /-- What comes at any time: a signal, the timer, or a wake for another reason. -/
  | signal (t : T)
  | expire (t : T)
  | rouse (t : T)

namespace Futexes

variable {T : Type} [DecidableEq T] (s : Futexes T)

def setState (t : T) (st : TaskState) : Futexes T :=
  { s with state := Function.update s.state t st }

def setInterruptible (t : T) (b : Bool) : Futexes T :=
  { s with interruptible := Function.update s.interruptible t b }

def goTo (t : T) (p : Point) : Futexes T := { s with point := Function.update s.point t p }

/-- A thread is back in user mode with a result. -/
def ret (t : T) (r : Except Errno Nat) : Futexes T :=
  { s.goTo t .user with result := Function.update s.result t r }

def wake (s : Futexes T) (t : T) : Futexes T :=
  if s.state t = .zombie then s else s.setState t .runnable

/-- `wait` up to where the task is on the list. -/
def register (t : T) (call : WaitCall) (picks : Nat → Picks) : Futexes T :=
  match keyFor s.mem (s.space t) call.uaddr.toNat call.isPrivate picks with
  | (m, .error e) => { s with mem := m }.ret t (.error e)
  | (m, .ok key) =>
      let s := ({ s with mem := m }.setState t .blocked).setInterruptible t true
      let w : Waiter T := ⟨key, t, call.bitset, false⟩
      { s with waiters := s.waiters ++ [w] }.goTo t (.registered call)

/-- `futex` for a wait. The bitset of a plain wait is all ones. -/
def enter (t : T) (call : WaitCall) (picks : Nat → Picks) : Futexes T :=
  if call.bitset = 0 then s.ret t (.error (.memory .EINVAL)) else s.register t call picks

/-- `wait` ends before it has slept. -/
def giveUp (t : T) (e : Errno) : Futexes T :=
  (({ s with waiters := (removeWaiter t s.waiters).1 }.setState t .running).setInterruptible t
    false).ret t (.error e)

/-- The thread gives up the CPU, and is to run again if it is not blocked. -/
def schedule (t : T) : Futexes T :=
  { (if s.state t = .running then s.setState t .runnable else s) with current := none }

def arm (t : T) : Futexes T :=
  { s with
    timedOut := Function.update s.timedOut t false
    armed := Function.update s.armed t true }

def disarm (t : T) : Futexes T := { s with armed := Function.update s.armed t false }

/-- `wait` sets its timer, if there is a deadline, and gives up the CPU. -/
def sleep (t : T) (call : WaitCall) : Futexes T :=
  ((if call.timed then s.arm t else s).goTo t (.asleep call)).schedule t

/-- `wait` from the look at the word to where it gives up the CPU. -/
def look (t : T) (call : WaitCall) (picks : Nat → Picks) : Futexes T :=
  match s.mem.readUser (s.space t) call.uaddr.toNat picks with
  | (m, .error e) => { s with mem := m }.giveUp t (.memory e)
  | (m, .ok cur) =>
      let s := { s with mem := m }
      if cur ≠ call.val.toNat then s.giveUp t .EAGAIN
      else if s.signal t then s.giveUp t .ERESTARTSYS
      else s.sleep t call

/-- What `wait` returns when it has slept. -/
def outcome (t : T) (call : WaitCall) : Except Errno Nat :=
  if (removeWaiter t s.waiters).2 then .ok 0
  else if call.timed && s.timedOut t then .error .ETIMEDOUT
  else if s.signal t then .error .ERESTARTSYS
  else .ok 0

/-- The rest of `wait`. The mark of the timer is taken unless the thread was woken. -/
def finish (t : T) (call : WaitCall) : Futexes T :=
  let woken := (removeWaiter t s.waiters).2
  let u := (if call.timed then s.disarm t else s).setInterruptible t false
  { u with
    waiters := (removeWaiter t s.waiters).1
    timedOut := if !woken && call.timed then Function.update u.timedOut t false else u.timedOut
    }.ret t (s.outcome t call)

def wakeAll (ts : List T) : Futexes T := ts.foldl wake s

/-- Nothing is woken, and an error is returned. -/
def fail (e : Errno) : Futexes T × Report T := (s, ⟨[], [], .error e⟩)

def futexWake (t : T) (uaddr : UInt64) (n : Nat) (bitset : BitVec 32) (isPrivate : Bool)
    (picks : Nat → Picks) : Futexes T × Report T :=
  match keyFor s.mem (s.space t) uaddr.toNat isPrivate picks with
  | (m, .error e) => { s with mem := m }.fail e
  | (m, .ok key) =>
      let r := wakeKey key n bitset s.waiters
      ({ s with mem := m, waiters := r.1 }.wakeAll r.2, ⟨r.2, [], .ok r.2.length⟩)

def requeue (t : T) (uaddr uaddr2 : UInt64) (nwake nrequeue : Nat) (isPrivate : Bool)
    (picks : Nat → Picks) : Futexes T × Report T :=
  match keyFor s.mem (s.space t) uaddr.toNat isPrivate picks with
  | (m, .error e) => { s with mem := m }.fail e
  | (m, .ok k1) =>
      match keyFor m (s.space t) uaddr2.toNat isPrivate picks with
      | (m, .error e) => { s with mem := m }.fail e
      | (m, .ok k2) =>
          let r := wakeKey k1 nwake (BitVec.allOnes 32) s.waiters
          let s := { s with mem := m, waiters := r.1 }.wakeAll r.2
          let q := moveKey k1 k2 nrequeue s.waiters
          ({ s with waiters := q.1 }, ⟨r.2, q.2, .ok (r.2.length + q.2.length)⟩)

/-- `futex` for a call that does not wait. -/
def futex (t : T) (op : Op) (isPrivate : Bool) (picks : Nat → Picks) : Futexes T × Report T :=
  match op with
  | .wake uaddr n => s.futexWake t uaddr n (BitVec.allOnes 32) isPrivate picks
  | .wakeBitset uaddr n bitset =>
      if bitset = 0 then s.fail (.memory .EINVAL)
      else s.futexWake t uaddr n bitset isPrivate picks
  | .requeue uaddr uaddr2 nwake nrequeue => s.requeue t uaddr uaddr2 nwake nrequeue isPrivate picks
  | .cmpRequeue uaddr uaddr2 nwake nrequeue val =>
      match s.mem.readUser (s.space t) uaddr.toNat picks with
      | (m, .error e) => { s with mem := m }.fail (.memory e)
      | (m, .ok cur) =>
          if cur ≠ val.toNat then { s with mem := m }.fail .EAGAIN
          else { s with mem := m }.requeue t uaddr uaddr2 nwake nrequeue isPrivate picks

/-- The thread that runs, if it is in user mode. -/
def running : Option T :=
  s.current.bind fun t =>
    match s.point t with
    | .user => some t
    | _ => none

def step (s : Futexes T) : Act T → Option (Futexes T)
  | .memory a => s.running.bind fun _ => (s.mem.step a).map fun m => { s with mem := m }
  | .wait call picks => s.running.map fun t => s.enter t call picks
  | .check picks =>
      s.current.bind fun t =>
        match s.point t with
        | .registered call => some (s.look t call picks)
        | _ => none
  | .resume =>
      s.current.bind fun t =>
        match s.point t with
        | .asleep call => some (s.finish t call)
        | _ => none
  | .call op isPrivate picks =>
      s.running.map fun t =>
        let r := s.futex t op isPrivate picks
        r.1.ret t r.2.result
  | .takeSignal => s.running.map fun t => { s with signal := Function.update s.signal t false }
  | .yieldNow => s.running.map fun t => s.schedule t
  | .dispatch t =>
      if s.current = none ∧ s.state t = .runnable then
        some { s.setState t .running with current := some t }
      else none
  | .signal t =>
      let u := { s with signal := Function.update s.signal t true }
      some (if u.state t = .blocked ∧ u.interruptible t = true then u.wake t else u)
  | .expire t =>
      if s.armed t then
        some ({ s with
          timedOut := Function.update s.timedOut t true
          armed := Function.update s.armed t false }.wake t)
      else none
  | .rouse t => some (s.wake t)

end Futexes

end MindOS.Kernel.Futex
