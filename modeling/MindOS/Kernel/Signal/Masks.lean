import MindOS.Kernel.Signal.Threads

/-!
# Temporary signal masks

`rt_sigsuspend`, `ppoll` and `pselect6` wait under a mask of their own. The mask from before the
call is kept aside, for the delivery of signals on the way back to put it in force again. It does so
after it has set up the frame of a handler, when it is too late for the frame and too early for the
handler.
-/

namespace MindOS.Kernel.Signal

def SA_NODEFER : BitVec 64 := 0x40000000
def SA_RESETHAND : BitVec 64 := 0x80000000

/-- A mask of a thread; it never blocks SIGKILL and SIGSTOP. -/
def Mask : Type := { m : BitVec 64 // m &&& KILL_MASK = 0 }

namespace Mask

instance : DecidableEq Mask := inferInstanceAs (DecidableEq { _m : BitVec 64 // _ })

theorem and_not_and (m k : BitVec 64) : m &&& ~~~k &&& k = 0 := by
  refine BitVec.eq_of_getElem_eq fun i hi => ?_
  simp

/-- `m & !KILL_MASK` -/
def of (m : BitVec 64) : Mask := ⟨m &&& ~~~KILL_MASK, and_not_and m KILL_MASK⟩

theorem of_val (m : Mask) : of m.val = m := by
  refine Subtype.ext (BitVec.eq_of_getElem_eq fun i hi => ?_)
  have hbit : (m.val &&& KILL_MASK)[i] = (0#64)[i] := by
    rw [m.property]
    rfl
  rw [BitVec.getElem_and, BitVec.getElem_zero] at hbit
  simp only [of, BitVec.getElem_and, BitVec.getElem_not]
  cases hk : KILL_MASK[i] with
  | false => simp
  | true =>
      rw [hk, Bool.and_true] at hbit
      simp [hbit]

end Mask

structure SigAction where
  handler : Nat
  flags : BitVec 64
  mask : BitVec 64
  deriving DecidableEq

def SigAction.DEFAULT : SigAction := ⟨SIG_DFL, 0, 0⟩

inductive Default where
  | terminate | core | ignore | stop | continue
  deriving DecidableEq

def defaultAction (signo : Int) : Default :=
  if ignoredByDefault signo then .ignore
  else if isStop signo then .stop
  else if signo = SIGCONT then .continue
  else if signo = 3 ∨ signo = 4 ∨ signo = 5 ∨ signo = 6 ∨ signo = 7 ∨ signo = 8 ∨ signo = 11 ∨
    signo = 31 ∨ signo = 24 ∨ signo = 25 then .core
  else .terminate

/-- What others change while a thread is in the kernel: signals are sent to it and to its process,
other threads take some, and set the actions. -/
structure Shared where
  pending : BitVec 64
  sharedPending : BitVec 64
  action : Int → SigAction

abbrev Noise := Shared → Shared

/-- What a thread has of masks. -/
structure Masked where
  mask : Mask
  /-- The mask kept aside; `u64::MAX`, which is no mask of a thread, stands for none. -/
  savedMask : Option Mask
  shared : Shared

/-- A handler that was set up: the mask in its frame, and the mask that it runs with. -/
structure Handling where
  signo : Int
  action : SigAction
  ucSigmask : BitVec 64
  mask : Mask

/-- How the loop of a delivery ends: without more signals, with the end of the process, or at a
signal with a handler. -/
inductive Ending where
  | quiet
  | killed
  | handler (signo : Int) (action : SigAction)

/-- What one call of `deliver_pending` meets: the process was stopped before; what goes on before
each look for signals; the frame fits on the stack; another thread is to run after it. -/
structure Pass where
  stopped : Bool
  noise : List Noise
  room : Bool
  needResched : Bool

inductive Delivered where
  | killed
  | back (t : Masked) (did : Bool) (handling : Option Handling)

inductive Outcome where
  | killed
  | user (t : Masked) (handlings : List Handling)

def Outcome.after (h : Option Handling) : Outcome → Outcome
  | killed => killed
  | user t hs => user t (h.toList ++ hs)

/-- A system call with a mask of its own; `ppoll` stands for `pselect6` too. -/
inductive MaskCall where
  | rtSigsuspend (mask : BitVec 64)
  | ppoll (sigmask : Option (BitVec 64))

namespace Masked

def meet (t : Masked) (n : Noise) : Masked := { t with shared := n t.shared }

def pendingUnblocked (t : Masked) : BitVec 64 :=
  (t.shared.pending ||| t.shared.sharedPending) &&& ~~~t.mask.val

/-- The next signal to deliver, taken off the set that it is in. -/
def dequeue (t : Masked) : Option (Int × Masked) :=
  let own := t.shared.pending &&& ~~~t.mask.val
  let shared := t.shared.sharedPending &&& ~~~t.mask.val
  if own ≠ 0 then
    some (choose own,
      t.meet fun s => { s with pending := s.pending &&& ~~~sigBit (choose own) })
  else if shared ≠ 0 then
    some (choose shared,
      t.meet fun s => { s with sharedPending := s.sharedPending &&& ~~~sigBit (choose shared) })
  else none

/-- The loop of `deliver_pending`, up to the first signal with a handler; nothing if it goes on
beyond what is given. -/
def deliverLoop : Bool → Masked → List Noise → Option (Masked × Bool × Ending)
  | _, _, [] => none
  | did, t, n :: ns =>
      match (t.meet n).dequeue with
      | none => some (t.meet n, did, .quiet)
      | some (signo, u) =>
          let action := u.shared.action signo
          if action.handler = SIG_IGN ∧ signo ≠ SIGKILL ∧ signo ≠ SIGSTOP then deliverLoop true u ns
          else if action.handler = SIG_DFL ∨ signo = SIGKILL ∨ signo = SIGSTOP then
            match defaultAction signo with
            | .ignore | .continue | .stop => deliverLoop true u ns
            | .terminate | .core => some (u, true, .killed)
          else some (u, true, .handler signo action)

/-- The signals that the handler of a signal is to block. -/
def blocked (signo : Int) (action : SigAction) : BitVec 64 :=
  action.mask ||| if action.flags &&& SA_NODEFER = 0 then sigBit signo else 0

/-- The mask as `setup_frame` leaves it. -/
def setupFrame (t : Masked) (signo : Int) (action : SigAction) : Masked :=
  { t with mask := .of (t.mask.val ||| blocked signo action) }

def resetHand (t : Masked) (signo : Int) (action : SigAction) : Masked :=
  if action.flags &&& SA_RESETHAND ≠ 0 then
    t.meet fun s => { s with action := Function.update s.action signo .DEFAULT }
  else t

/-- Puts the mask that was kept aside in force. -/
def restore (t : Masked) : Masked :=
  match t.savedMask with
  | none => t
  | some saved => { t with mask := saved, savedMask := none }

def deliverPending (t : Masked) (p : Pass) : Option Delivered :=
  match deliverLoop p.stopped t p.noise with
  | none => none
  | some (_, _, .killed) => some .killed
  | some (u, did, .quiet) => some (.back (if did then u.restore else u) did none)
  | some (u, _, .handler signo action) =>
      if p.room then
        let w := ((u.setupFrame signo action).resetHand signo action).restore
        some (.back w true (some ⟨signo, action, u.mask.val, w.mask⟩))
      else some .killed

/-- The way back to user mode; nothing if it goes on beyond what is given. -/
def returnToUser : Masked → List Pass → Option Outcome
  | _, [] => none
  | t, p :: ps =>
      match t.deliverPending p with
      | none => none
      | some .killed => some .killed
      | some (.back u did h) =>
          if did || p.needResched then (returnToUser u ps).map (Outcome.after h)
          else some (.user u [])

/-- The mask after `rt_sigreturn` from a frame. -/
def sigreturn (t : Masked) (ucSigmask : BitVec 64) : Masked := { t with mask := .of ucSigmask }

/-- `set_temp_sigmask` -/
def setTempSigmask (t : Masked) (sigmask : BitVec 64) : Masked := { t with mask := .of sigmask }

/-- `restore_sigmask` -/
def restoreSigmask (t : Masked) (saved : Mask) : Masked :=
  if t.pendingUnblocked ≠ 0 then { t with savedMask := some saved } else { t with mask := saved }

/-- A call up to its return; what goes on while it waits is given. -/
def call (t : Masked) (n : Noise) : MaskCall → Masked
  | .rtSigsuspend mask => meet { t with mask := .of mask, savedMask := some t.mask } n
  | .ppoll none => t.meet n
  | .ppoll (some sigmask) => ((t.setTempSigmask sigmask).meet n).restoreSigmask t.mask

/-! ### The masks of handlers -/

/-- From the mask before a call to the mask after it: every handler blocks what it is to block, and
its return puts in force what was in force before; without one the mask is the same. -/
def Right (old : Mask) : List Handling → Mask → Prop
  | [], m => m = old
  | h :: hs, m => blocked h.signo h.action &&& ~~~KILL_MASK &&& ~~~h.mask.val = 0 ∧
      (∀ t : Masked, (t.sigreturn h.ucSigmask).mask = old) ∧ Right h.mask hs m

/-! ### The way back -/

/-- How the first pass ends that takes a signal or was stopped before; nothing if none does. -/
def firstEnding : Masked → List Pass → Option Ending
  | _, [] => none
  | t, p :: ps =>
      match deliverLoop p.stopped t p.noise with
      | none => none
      | some (u, did, ending) =>
          if did then some ending else if p.needResched then firstEnding u ps else none

/-- What has to hold on the way back, so that the masks come out right. -/
def Safe (old : Mask) (t : Masked) (ps : List Pass) : Prop :=
  match t.savedMask with
  | none => t.mask = old
  | some saved =>
      match t.firstEnding ps with
      | none => t.mask = old
      | some .quiet => saved = old
      | some .killed => True
      | some (.handler signo action) =>
          t.mask = old ∧ blocked signo action &&& ~~~KILL_MASK &&& ~~~saved.val = 0

variable {t u : Masked} {old : Mask}

theorem deliverLoop_masks {did did' : Bool} {ns : List Noise} {e : Ending}
    (h : deliverLoop did t ns = some (u, did', e)) :
    u.mask = t.mask ∧ u.savedMask = t.savedMask ∧
      (did' = false → e = .quiet) ∧ (did = true → did' = true) := by
  induction ns generalizing t did with
  | nil => cases h
  | cons n ns ih =>
      have htaken : ∀ signo w, (t.meet n).dequeue = some (signo, w) →
          w.mask = t.mask ∧ w.savedMask = t.savedMask := fun signo w hw => by
        rw [dequeue] at hw
        split at hw
        · cases hw
          exact ⟨rfl, rfl⟩
        split at hw
        · cases hw
          exact ⟨rfl, rfl⟩
        · cases hw
      rw [deliverLoop] at h
      split at h
      · cases h
        exact ⟨rfl, rfl, fun _ => rfl, id⟩
      · rename_i signo w hw
        obtain ⟨hmask, hsaved⟩ := htaken signo w hw
        have hrest : deliverLoop true w ns = some (u, did', e) → u.mask = t.mask ∧
            u.savedMask = t.savedMask ∧ (did' = false → e = .quiet) ∧
              (did = true → did' = true) := fun h => by
          obtain ⟨hm, hs, hquiet, hdid⟩ := ih h
          exact ⟨hm.trans hmask, hs.trans hsaved, hquiet, fun _ => hdid rfl⟩
        dsimp only at h
        split at h
        · exact hrest h
        split at h
        · split at h
          · exact hrest h
          · exact hrest h
          · exact hrest h
          · cases h
            exact ⟨hmask, hsaved, fun hd => Bool.noConfusion hd, fun _ => rfl⟩
          · cases h
            exact ⟨hmask, hsaved, fun hd => Bool.noConfusion hd, fun _ => rfl⟩
        · cases h
          exact ⟨hmask, hsaved, fun hd => Bool.noConfusion hd, fun _ => rfl⟩

theorem restore_eq (t : Masked) :
    t.restore.mask = t.savedMask.getD t.mask ∧ t.restore.savedMask = none := by
  rw [restore]
  cases hsaved : t.savedMask with
  | none => exact ⟨rfl, hsaved⟩
  | some saved => exact ⟨rfl, rfl⟩

theorem deliverPending_spec {p : Pass} {w : Masked} {did : Bool} {handling : Option Handling}
    (h : t.deliverPending p = some (.back w did handling)) :
    ∃ v e, deliverLoop p.stopped t p.noise = some (v, did, e) ∧
      w.savedMask = (if did then none else t.savedMask) ∧ (did = false → w = v) ∧
      match e with
      | .killed => False
      | .quiet => handling = none ∧ w.mask = if did then t.savedMask.getD t.mask else t.mask
      | .handler signo action => did = true ∧
          w.mask = t.savedMask.getD (.of (t.mask.val ||| blocked signo action)) ∧
          handling = some ⟨signo, action, t.mask.val, w.mask⟩ := by
  rw [deliverPending] at h
  cases hloop : deliverLoop p.stopped t p.noise with
  | none =>
      rw [hloop] at h
      cases h
  | some res =>
      obtain ⟨v, did', e⟩ := res
      obtain ⟨hmask, hsaved, hquiet, -⟩ := deliverLoop_masks hloop
      rw [hloop] at h
      cases e with
      | killed => cases h
      | quiet =>
          cases h
          refine ⟨v, .quiet, rfl, ?_⟩
          cases did with
          | false => exact ⟨hsaved, fun _ => rfl, rfl, hmask⟩
          | true =>
              obtain ⟨hm, hs⟩ := restore_eq v
              exact ⟨hs, fun hd => Bool.noConfusion hd, rfl, by rw [hsaved, hmask] at hm; exact hm⟩
      | handler signo action =>
          have hdid : did' = true := by
            cases did' with
            | true => rfl
            | false => cases hquiet rfl
          dsimp only at h
          split at h
          · cases h
            have hreset : ∀ x : Masked, (x.resetHand signo action).mask = x.mask ∧
                (x.resetHand signo action).savedMask = x.savedMask := fun x => by
              rw [resetHand]
              split <;> exact ⟨rfl, rfl⟩
            obtain ⟨hm, hs⟩ := restore_eq ((v.setupFrame signo action).resetHand signo action)
            rw [(hreset _).1, (hreset _).2] at hm
            refine ⟨v, .handler signo action, by rw [hdid], hs, fun hd => Bool.noConfusion hd, rfl,
              ?_, ?_⟩
            · rw [hm, setupFrame, hsaved, hmask]
            · rw [hmask]
          · cases h

theorem blocked_of (m b : BitVec 64) : b &&& ~~~KILL_MASK &&& ~~~(Mask.of (m ||| b)).val = 0 := by
  refine BitVec.eq_of_getElem_eq fun i hi => ?_
  simp only [Mask.of, BitVec.getElem_and, BitVec.getElem_not, BitVec.getElem_or]
  cases b[i] <;> cases KILL_MASK[i] <;> simp

theorem returnToUser_cons {p : Pass} {ps : List Pass} {hs : List Handling}
    (h : t.returnToUser (p :: ps) = some (.user u hs)) :
    ∃ w did handling, t.deliverPending p = some (.back w did handling) ∧
      ((did || p.needResched) = true ∧
          (∃ rest, w.returnToUser ps = some (.user u rest) ∧ hs = handling.toList ++ rest) ∨
        (did || p.needResched) = false ∧ u = w ∧ hs = []) := by
  rw [returnToUser] at h
  split at h
  · cases h
  · cases h
  · rename_i w did handling hpass
    refine ⟨w, did, handling, hpass, ?_⟩
    split at h
    · rename_i hmore
      obtain ⟨o, ho, hafter⟩ := Option.map_eq_some_iff.mp h
      cases o with
      | killed => cases hafter
      | user v rest =>
          cases hafter
          exact .inl ⟨hmore, rest, ho, rfl⟩
    · rename_i hdone
      cases h
      exact .inr ⟨Bool.eq_false_iff.mpr hdone, rfl, rfl⟩

theorem right_of_none {ps : List Pass} {hs : List Handling} (hsaved : t.savedMask = none)
    (h : t.returnToUser ps = some (.user u hs)) : Right old hs u.mask ↔ t.mask = old := by
  induction ps generalizing t old hs with
  | nil => cases h
  | cons p ps ih =>
      obtain ⟨w, did, handling, hpass, hrest⟩ := returnToUser_cons h
      obtain ⟨v, e, -, hwsaved, -, hend⟩ := deliverPending_spec hpass
      have hnone : w.savedMask = none := by
        rw [hwsaved, hsaved]
        exact ite_self _
      rw [hsaved] at hend
      cases e with
      | killed => exact hend.elim
      | quiet =>
          obtain ⟨rfl, hmask⟩ := hend
          have hmask : w.mask = t.mask := hmask.trans (ite_self _)
          obtain ⟨-, rest, hrest, rfl⟩ | ⟨-, rfl, rfl⟩ := hrest
          · exact (ih hnone hrest).trans (by rw [hmask])
          · rw [Right, hmask]
      | handler signo action =>
          obtain ⟨rfl, hmask, rfl⟩ := hend
          obtain ⟨-, rest, hrest, rfl⟩ | ⟨hfalse, -⟩ := hrest
          · have hchain := (@ih w w.mask rest hnone hrest).mpr rfl
            constructor
            · intro hright
              rw [← hright.2.1 t]
              exact (Mask.of_val _).symm
            · rintro rfl
              refine ⟨?_, fun _ => Mask.of_val _, hchain⟩
              rw [hmask]
              exact blocked_of _ _
          · cases hfalse

theorem right_of_some {ps : List Pass} {hs : List Handling} {saved : Mask}
    (hsaved : t.savedMask = some saved) (h : t.returnToUser ps = some (.user u hs)) :
    Right old hs u.mask ↔ Safe old t ps := by
  induction ps generalizing t with
  | nil => cases h
  | cons p ps ih =>
      obtain ⟨w, did, handling, hpass, hrest⟩ := returnToUser_cons h
      obtain ⟨v, e, hloop, hwsaved, hwv, hend⟩ := deliverPending_spec hpass
      obtain ⟨hmask, hvsaved, hquiet, -⟩ := deliverLoop_masks hloop
      rw [Safe, hsaved]
      dsimp only
      rw [firstEnding, hloop]
      rw [hsaved] at hend
      cases did with
      | false =>
          obtain rfl := hquiet rfl
          obtain rfl := hwv rfl
          obtain ⟨rfl, -⟩ := hend
          obtain ⟨hmore, rest, hrest, rfl⟩ | ⟨hdone, rfl, rfl⟩ := hrest
          · have hmore : p.needResched = true := hmore
            have hih := ih (hvsaved.trans hsaved) hrest
            rw [Safe, hvsaved, hsaved, hmask] at hih
            simpa [hmore] using hih
          · have hdone : p.needResched = false := hdone
            simp [hdone, Right, hmask]
      | true =>
          have hnone : w.savedMask = none := hwsaved
          obtain ⟨-, rest, hrest, rfl⟩ | ⟨hfalse, -⟩ := hrest
          · cases e with
            | killed => exact hend.elim
            | quiet =>
                obtain ⟨rfl, hwmask⟩ := hend
                exact (right_of_none hnone hrest).trans (by rw [hwmask]; rfl)
            | handler signo action =>
                obtain ⟨-, hwmask, rfl⟩ := hend
                have hwmask : w.mask = saved := hwmask
                have hchain := (@right_of_none w u w.mask ps rest hnone hrest).mpr rfl
                constructor
                · rintro ⟨hblocks, huc, -⟩
                  refine ⟨(Mask.of_val _).symm.trans (huc t), ?_⟩
                  rwa [hwmask] at hblocks
                · rintro ⟨rfl, hblocks⟩
                  refine ⟨?_, fun _ => Mask.of_val _, hchain⟩
                  rwa [hwmask]
          · cases hfalse

/-- After a call with a mask of its own the masks of handlers and of the thread are right exactly if
none is kept aside or the first signal taken has no handler, or one that makes no difference. -/
theorem call_right_iff (t : Masked) (n : Noise) (c : MaskCall) {ps : List Pass} {u : Masked}
    {hs : List Handling} (h : (t.call n c).returnToUser ps = some (.user u hs)) :
    Right t.mask hs u.mask ↔ Safe t.mask (t.call n c) ps := by
  cases hsaved : (t.call n c).savedMask with
  | none =>
      rw [Safe, hsaved]
      exact right_of_none hsaved h
  | some saved => exact right_of_some hsaved h

/-- A thread that blocks nothing, with SIGUSR1 pending, whose handler does not block it. -/
def unblocking : Masked :=
  ⟨.of 0, none, ⟨sigBit 10, 0, fun _ => ⟨0x1000, SA_NODEFER, 0⟩⟩⟩

theorem call_right_iff_ppoll :
    ∃ u h, (unblocking.call id (.ppoll (some 0))).returnToUser
        [⟨false, [id], true, false⟩, ⟨false, [id], true, false⟩] = some (.user u [h]) ∧
      (unblocking.call id (.ppoll (some 0))).savedMask = some (.of 0) ∧
      Right unblocking.mask [h] u.mask := by
  have hsafe : Safe unblocking.mask (unblocking.call id (.ppoll (some 0)))
      [⟨false, [id], true, false⟩, ⟨false, [id], true, false⟩] := And.intro rfl (by decide)
  exact ⟨_, _, rfl, rfl, (call_right_iff _ _ _ rfl).mpr hsafe⟩

/-- A thread that blocks SIGUSR1, which has a handler and is pending. -/
def blocking : Masked :=
  ⟨.of (sigBit 10), none, ⟨sigBit 10, 0, fun _ => ⟨0x1000, 0, 0⟩⟩⟩

/-- A handler that ends `rt_sigsuspend` returns to the mask of the call. -/
theorem not_call_right :
    ∃ u h, (blocking.call id (.rtSigsuspend 0)).returnToUser
        [⟨false, [id], true, false⟩, ⟨false, [id], true, false⟩] = some (.user u [h]) ∧
      (u.sigreturn h.ucSigmask).mask = .of 0 ∧ blocking.mask ≠ .of 0 ∧
      ¬Right blocking.mask [h] u.mask := by
  refine ⟨_, _, rfl, by decide, by decide, fun hright => ?_⟩
  exact absurd (hright.2.1 blocking) (by decide)

end Masked

end MindOS.Kernel.Signal
