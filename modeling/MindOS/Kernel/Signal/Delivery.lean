import MindOS.Kernel.Signal.Attention

/-!
# Signals are taken once and not slept through

A signal of the process stays pending until a thread takes it or it is discarded. A thread
that does not block it is awake, as long as the last such thread does not fall asleep, block
the signal or exit while another one sleeps.
-/

namespace MindOS.Kernel.Signal

open Bits Sched Transition

namespace Threads

/-! ### One step -/

section Steps

variable [DecidableEq T] {m m' : Threads T} {me t : T} {a : Act T}

omit [DecidableEq T] in
/-- What `dequeue` and `rt_sigtimedwait` take of the signals of the process is pending there. -/
theorem dequeue_shared {signo : Int} (h : m.dequeue me = some (signo, true)) :
    Has m.sharedPending (place signo) ∧ 1 ≤ signo ∧ signo ≤ 64 := by
  rw [dequeue] at h
  split at h
  case isTrue => cases h
  case isFalse =>
    split at h
    case isTrue hshared =>
      cases h
      obtain ⟨hhas, hrange⟩ := has_choose hshared
      exact ⟨(has_and_not.mp hhas).1, hrange⟩
    case isFalse => cases h

omit [DecidableEq T] in
theorem wanted_shared {signo : Int} {want : BitVec 64}
    (h : m.wanted me want = some (signo, true)) :
    Has m.sharedPending (place signo) ∧ 1 ≤ signo ∧ signo ≤ 64 := by
  rw [wanted] at h
  dsimp only at h
  split at h
  case isTrue havail =>
    have hhas := has_trailingZeros havail
    have hlt := hhas.lt
    simp only [Option.some.injEq, Prod.mk.injEq, decide_eq_true_eq] at h
    obtain ⟨hsigno, hown⟩ := h
    rw [hsigno, and_sigBit_eq_zero, ← hsigno, place_succ] at hown
    rw [← hsigno, place_succ]
    exact ⟨((has_or.mp (has_and.mp hhas).1).resolve_left hown), by omega, by omega⟩
  case isFalse => cases h

/-- A signal that is taken was pending, and no longer is. -/
theorem taken_spec (hstep : m.step a = some m') {signo : Int} (h : m.taken a = some signo) :
    Has m.sharedPending (place signo) ∧ ¬Has m'.sharedPending (place signo) := by
  obtain ⟨me, hme, h⟩ := Option.bind_eq_some_iff.mp h
  have htake : ∀ {o : Option (Int × Bool)}, o.bind (fun x => if x.2 then some x.1 else none) =
      some signo → o = some (signo, true) := fun ho => by
    obtain ⟨⟨n, shared⟩, hx, hn⟩ := Option.bind_eq_some_iff.mp ho
    cases shared <;> cases hn
    exact hx
  have hgone : 1 ≤ signo ∧ signo ≤ 64 →
      ¬Has (m.take me (signo, true)).sharedPending (place signo) := fun hrange hhas =>
    (has_and_not.mp hhas).2 ((has_sigBit hrange).mpr rfl)
  cases a with
  | dequeue =>
      have hdequeue := htake h
      obtain ⟨hhas, hrange⟩ := dequeue_shared hdequeue
      refine ⟨hhas, ?_⟩
      have hmove : m.move me .dequeue = some m' := by
        obtain ⟨me', hme', hmove⟩ := Option.bind_eq_some_iff.mp hstep
        cases hme.symm.trans hme'
        exact hmove
      rw [move, hdequeue] at hmove
      split at hmove <;> cases hmove
      exact hgone hrange
  | takeWanted want =>
      have hwanted := htake h
      obtain ⟨hhas, hrange⟩ := wanted_shared hwanted
      refine ⟨hhas, ?_⟩
      have hmove : m.move me (.takeWanted want) = some m' := by
        obtain ⟨me', hme', hmove⟩ := Option.bind_eq_some_iff.mp hstep
        cases hme.symm.trans hme'
        exact hmove
      rw [move, hwanted] at hmove
      split at hmove <;> cases hmove
      exact hgone hrange
  | _ => cases h

theorem has_send {signo : Int} {n : Nat} (hn : Has m.sharedPending n)
    (hcancel : ¬Has (cancelled signo) n) : Has (m.send signo).sharedPending n := by
  have hleft : Has (m.cancel signo).sharedPending n := has_and_not.mpr ⟨hn, hcancel⟩
  rw [send_eq]
  split
  case isTrue => exact hn
  case isFalse =>
    split
    case isTrue => exact hleft
    case isFalse =>
      rw [raised_shared]
      exact has_or.mpr (.inl hleft)

/-- A signal that is not ignored is pending when it has been sent. -/
theorem has_sent {signo : Int} (hrange : 1 ≤ signo ∧ signo ≤ 64) (hzombie : m.zombie = false)
    (hignored : ignored (m.handler signo) signo = false) :
    Has (m.send signo).sharedPending (place signo) := by
  have hnot : ¬(signo ≤ 0 ∨ 64 < signo ∨ m.zombie = true) := by
    rw [hzombie]
    rintro (h | h | h)
    · omega
    · omega
    · cases h
  rw [send_eq, if_neg hnot, if_neg (by simp [hignored]), raised_shared]
  exact has_or.mpr (.inr ((has_sigBit hrange).mpr rfl))

theorem has_take {x : Int × Bool} {n : Nat} (hn : Has m.sharedPending n) :
    Has (m.take me x).sharedPending n ∨ x.2 = true ∧ Has (sigBit x.1) n := by
  obtain ⟨signo, shared⟩ := x
  cases shared with
  | true =>
      by_cases hbit : Has (sigBit signo) n
      · exact .inr ⟨rfl, hbit⟩
      · exact .inl (has_and_not.mpr ⟨hn, hbit⟩)
  | false => exact .inl hn

/-- A pending signal goes only when it is taken or discarded. -/
theorem kept_move (hme : m.current = some me) (hmove : m.move me a = some m') {n : Nat}
    (hn : Has m.sharedPending n) :
    Has m'.sharedPending n ∨ (∃ signo, m.taken a = some signo ∧ place signo = n) ∨
      Discards a n := by
  cases a with
  | dequeue =>
      rw [move] at hmove
      split at hmove
      case isTrue =>
        obtain ⟨⟨signo, shared⟩, hx, rfl⟩ := Option.map_eq_some_iff.mp hmove
        refine (has_take hn).imp_right fun hbit => .inl ⟨signo, ?_, ?_⟩
        · rw [taken, hme, Option.bind_some]
          dsimp only
          rw [hx, Option.bind_some, if_pos hbit.1]
        · obtain rfl : shared = true := hbit.1
          exact ((has_sigBit (dequeue_shared hx).2).mp hbit.2).symm
      case isFalse => cases hmove
  | takeWanted want =>
      rw [move] at hmove
      split at hmove
      case isTrue =>
        obtain ⟨⟨signo, shared⟩, hx, rfl⟩ := Option.map_eq_some_iff.mp hmove
        refine (has_take hn).imp_right fun hbit => .inl ⟨signo, ?_, ?_⟩
        · rw [taken, hme, Option.bind_some]
          dsimp only
          rw [hx, Option.bind_some, if_pos hbit.1]
        · obtain rfl : shared = true := hbit.1
          exact ((has_sigBit (wanted_shared hx).2).mp hbit.2).symm
      case isFalse => cases hmove
  | sigaction signo handler =>
      rw [move] at hmove
      split at hmove <;> cases hmove
      rw [sigaction]
      dsimp only
      split
      case isTrue hignore =>
        by_cases hbit : Has (sigBit signo) n
        · exact .inr (.inr ⟨hignore, hbit⟩)
        · exact .inl (has_and_not.mpr ⟨hn, hbit⟩)
      case isFalse => exact .inl hn
  | block =>
      rw [move] at hmove
      split at hmove <;> cases hmove
      split <;> exact .inl hn
  | check =>
      rw [move] at hmove
      split at hmove <;> cases hmove
      exact .inl hn
  | schedule =>
      rw [move] at hmove
      split at hmove <;> cases hmove
      rw [giveUp]
      split <;> exact .inl hn
  | yieldNow =>
      rw [move] at hmove
      split at hmove <;> cases hmove
      rw [giveUp]
      split <;> exact .inl hn
  | send | sendToTask | postSignal | wake | dispatch => cases hmove
  | _ =>
      rw [move] at hmove
      split at hmove <;> cases hmove <;> exact .inl hn

theorem kept_spec (hstep : m.step a = some m') {n : Nat} (hn : Has m.sharedPending n) :
    Has m'.sharedPending n ∨ (∃ signo, m.taken a = some signo ∧ place signo = n) ∨
      Discards a n := by
  cases a with
  | send signo =>
      cases hstep
      by_cases hcancel : Has (cancelled signo) n
      · exact .inr (.inr hcancel)
      · exact .inl (has_send hn hcancel)
  | sendToTask t signo =>
      cases hstep
      left
      rw [sendToTask]
      split
      case isTrue => exact hn
      case isFalse =>
        split
        case isTrue => exact hn
        case isFalse => rwa [postSignal_shared]
  | postSignal t signo =>
      cases hstep
      left
      rwa [postSignal_shared]
  | wake t =>
      cases hstep
      left
      rwa [wake_shared]
  | dispatch t =>
      rw [step] at hstep
      split at hstep <;> cases hstep
      left
      split <;> exact hn
  | _ =>
      obtain ⟨me, hme, hmove⟩ := Option.bind_eq_some_iff.mp hstep
      exact kept_move hme hmove hn

omit [DecidableEq T] in
theorem sound_iff (hme : m.current = some me) :
    m.Sound a ↔ ∀ n, Has m.sharedPending n → m.Takes me n →
      match a with
      | .declare => m.point me = .checked true → m.HandsOver me n
      | .exit => (∃ t, t ≠ me ∧ m.Takes t n) → m.HandsOver me n
      | .setMask w =>
          Has (w &&& ~~~KILL_MASK) n → (∃ t, t ≠ me ∧ m.Takes t n) → m.HandsOver me n
      | _ => True :=
  ⟨fun h => h me hme, fun h _ hu => Option.some.inj (hme.symm.trans hu) ▸ h⟩

/-- A thread gives up the CPU where it does not sleep, or where it was asleep already. -/
theorem Calm.giveUp {p : Point} (hp : p ≠ .declared) (haway : p = .away → m.point me = .declared) :
    m.Calm (m.giveUp me p) := by
  unfold Threads.giveUp
  have hmove : ∀ n : Threads T, n.point = m.point →
      n.Calm { n.goTo me p with current := none } := fun n hn => by
    refine ⟨nofun, rfl, rfl, fun _ hn => hn, fun t ht => ?_⟩
    by_cases htme : t = me
    · rw [htme] at ht ⊢
      have hpoint : ({ n.goTo me p with current := none } : Threads T).point me = p :=
        Function.update_self ..
      rw [Asleep, hpoint] at ht
      obtain hdeclared | hp' := ht.1
      · exact absurd hdeclared hp
      · exact ⟨.inl ((congrFun hn me).trans (haway hp')), ht.2⟩
    · have hpoint : ({ n.goTo me p with current := none } : Threads T).point t = n.point t :=
        Function.update_of_ne htme ..
      rw [Asleep, hpoint] at ht
      exact ht
  split
  case isTrue => exact (Calm.setState (by decide)).trans (hmove _ rfl)
  case isFalse => exact hmove m rfl

/-- What a step leaves of the invariant: signals are attended to exactly when the condition
holds in it, and the thread that runs is one of the process. -/
def Leaves (m : Threads T) (a : Act T) (m' : Threads T) : Prop :=
  (m'.Attended ↔ m.Sound a) ∧ ∀ u, m'.current = some u → u ∈ m'.threads

omit [DecidableEq T] in
theorem Inv.calm (h : m.Inv) (hcalm : m.Calm m') (hsound : m.Sound a) : m.Leaves a m' := by
  refine ⟨iff_of_true (hcalm.attended h.attended) hsound, fun u hu => ?_⟩
  rw [hcalm.threads]
  exact h.current u (hcalm.current u hu)

theorem Inv.move (h : m.Inv) (hme : m.current = some me) (hmove : m.move me a = some m') :
    m.Leaves a m' := by
  have hthread := h.current me hme
  cases a with
  | clone t =>
      rw [Threads.move] at hmove
      split at hmove <;> cases hmove
      next hguard =>
        refine ⟨iff_of_true (h.attended.clone hguard.2) fun _ _ _ _ _ => trivial, fun u hu => ?_⟩
        exact List.mem_append_left _ (h.current u hu)
  | exit =>
      rw [Threads.move] at hmove
      split at hmove <;> cases hmove
      exact ⟨(attended_exit_iff h.attended).trans (sound_iff (a := .exit) hme).symm, nofun⟩
  | setMask w =>
      rw [Threads.move] at hmove
      split at hmove <;> cases hmove
      next hrun =>
        exact ⟨(attended_setMask_iff h.attended hthread hrun _).trans
          (sound_iff (a := .setMask w) hme).symm, h.current⟩
  | declare =>
      rw [Threads.move] at hmove
      split at hmove <;> cases hmove
      next i hpoint =>
        refine ⟨(attended_declare_iff h.attended).trans (Iff.trans ?_ (sound_iff hme).symm),
          h.current⟩
        simp [hpoint]
  | block =>
      rw [Threads.move] at hmove
      split at hmove <;> cases hmove
      split
      case isTrue =>
        exact h.calm (.setState_goTo (by decide) (by decide)) fun _ _ _ _ _ => trivial
      case isFalse hnone =>
        exact ⟨iff_of_true (h.attended.block (not_not.mp hnone)) fun _ _ _ _ _ => trivial,
          h.current⟩
  | sigaction signo handler =>
      rw [Threads.move] at hmove
      split at hmove <;> cases hmove
      exact h.calm (.sigaction m signo handler) fun _ _ _ _ _ => trivial
  | dequeue =>
      rw [Threads.move] at hmove
      split at hmove
      case isTrue =>
        obtain ⟨x, -, rfl⟩ := Option.map_eq_some_iff.mp hmove
        exact h.calm (.take m me x) fun _ _ _ _ _ => trivial
      case isFalse => cases hmove
  | takeWanted want =>
      rw [Threads.move] at hmove
      split at hmove
      case isTrue =>
        obtain ⟨x, -, rfl⟩ := Option.map_eq_some_iff.mp hmove
        exact h.calm (.take m me x) fun _ _ _ _ _ => trivial
      case isFalse => cases hmove
  | check =>
      rw [Threads.move] at hmove
      split at hmove <;> cases hmove
      refine h.calm (.goTo ?_ ?_) fun _ _ _ _ _ => trivial <;>
      · split <;> nofun
  | yieldNow =>
      rw [Threads.move] at hmove
      split at hmove <;> cases hmove
      exact h.calm ((Calm.setState (by decide)).trans (.giveUp (by decide) nofun))
        fun _ _ _ _ _ => trivial
  | schedule =>
      rw [Threads.move] at hmove
      split at hmove <;> cases hmove
      next hpoint =>
        exact h.calm (.giveUp (by decide) fun _ => hpoint) fun _ _ _ _ _ => trivial
  | send | sendToTask | postSignal | wake | dispatch => cases hmove
  | clearInterruptible | setInterruptible =>
      rw [Threads.move] at hmove
      split at hmove <;> cases hmove <;>
      exact h.calm (.setInterruptible_goTo (by decide) (by decide)) fun _ _ _ _ _ => trivial
  | prepare | cancel =>
      rw [Threads.move] at hmove
      split at hmove <;> cases hmove
      exact h.calm (.setState_goTo (by decide) (by decide)) fun _ _ _ _ _ => trivial
  | wait | leave =>
      rw [Threads.move] at hmove
      split at hmove <;> cases hmove <;>
      exact h.calm (.goTo (by simp) (by simp)) fun _ _ _ _ _ => trivial

theorem Inv.dispatch (h : m.Inv) (ht : t ∈ m.threads) :
    m.Leaves (.dispatch t) (let m := { m.setState t .running with current := some t }
      if m.point t = .away then m.goTo t .resumed else m) := by
  have hrunning : (m.setState t .running).Attended :=
    (Calm.setState (by decide)).attended h.attended
  -- Who has the CPU does not matter to who is asleep.
  have hgiven : ({ m.setState t .running with current := some t } : Threads T).Attended := hrunning
  dsimp only
  refine ⟨iff_of_true ?_ fun _ _ _ _ _ => trivial, fun u hu => ?_⟩
  · split
    case isTrue => exact (Calm.goTo (by decide) (by decide)).attended hgiven
    case isFalse => exact hgiven
  · split at hu <;>
    · cases hu
      split <;> exact ht

theorem Inv.step (h : m.Inv) (hstep : m.step a = some m') : m.Leaves a m' := by
  cases a with
  | send signo =>
      cases hstep
      obtain ⟨hthreads, hcurrent⟩ := m.send_threads signo
      refine ⟨iff_of_true (h.attended.send signo) fun _ _ _ _ _ => trivial, fun u hu => ?_⟩
      rw [hthreads]
      exact h.current u (hcurrent u hu)
  | sendToTask t signo =>
      cases hstep
      refine h.calm ?_ fun _ _ _ _ _ => trivial
      rw [sendToTask]
      split
      case isTrue => exact .refl m
      case isFalse =>
        split
        case isTrue => exact .refl m
        case isFalse => exact .postSignal m t signo
  | postSignal t signo =>
      cases hstep
      exact h.calm (.postSignal m t signo) fun _ _ _ _ _ => trivial
  | wake t =>
      cases hstep
      exact h.calm (.wake m t) fun _ _ _ _ _ => trivial
  | dispatch t =>
      rw [Threads.step] at hstep
      split at hstep <;> cases hstep
      next hguard => exact h.dispatch hguard.2.1
  | _ =>
      obtain ⟨me, hme, hmove⟩ := Option.bind_eq_some_iff.mp hstep
      exact h.move hme hmove

/-- A step does as it should exactly when the condition holds in it. -/
theorem Inv.good_iff (h : m.Inv) (hstep : m.step a = some m') : m.Good a m' ↔ m.Sound a := by
  refine ⟨fun hgood => (h.step hstep).1.mp hgood.attended, fun hsound => ⟨fun signo ha hle hge
    hzombie hignored => ?_, fun n hn => kept_spec hstep hn, fun signo => taken_spec hstep,
    (h.step hstep).1.mpr hsound⟩⟩
  rw [ha] at hstep
  cases hstep
  exact has_sent ⟨hle, hge⟩ hzombie hignored

theorem born_inv (t : T) (mask : BitVec 64) : (born t mask).Inv where
  attended := fun _ hn => absurd hn not_has_zero
  current := fun _ hu => Option.some.inj hu ▸ List.mem_singleton.mpr rfl

/-- The signals of a process are taken once, and none is lost or slept through, exactly along
the runs in which the last awake thread that takes a pending signal neither falls asleep nor
leaves it to threads that sleep. -/
theorem signals_attended_iff (t : T) (mask : BitVec 64) (acts : List (Act T)) :
    Along Threads.step Good (born t mask) acts ↔
      Along Threads.step (fun m a _ => m.Sound a) (born t mask) acts :=
  along_iff Inv
    (fun _ _ _ h hstep hgood => ⟨hgood.attended, (h.step hstep).2⟩)
    (fun _ _ _ h hstep => h.good_iff hstep) acts (born_inv t mask)

/-- Thread 1 is asleep, thread 0 is sent SIGUSR1, and blocks it before it takes it. -/
theorem signal_slept_through :
    ¬∀ acts : List (Act Nat), Along Threads.step Good (born 0 0) acts := by
  intro hall
  have hrun := hall [.clone 1, .yieldNow, .dispatch 1, .wait true, .check, .declare, .schedule,
    .dispatch 0, .send 10, .setMask (sigBit 10)]
  have hasleep := ((((((hrun _ rfl).2 _ rfl).2 _ rfl).2 _ rfl).2 _ rfl).2 _ rfl).2 _ rfl
  have hattended := ((hasleep.2 _ rfl).2 _ rfl).2 _ rfl
  obtain ⟨t, ⟨hmem, hmask⟩, hawake⟩ :=
    hattended.1.attended (place 10) (by decide) ⟨1, by decide, by decide⟩
  have ht : t = 0 ∨ t = 1 := by simpa using (show t ∈ [0, 1] from hmem)
  obtain rfl | rfl := ht
  · exact hmask (by decide)
  · exact hawake ⟨.inr rfl, rfl, rfl⟩

end Steps

end Threads

end MindOS.Kernel.Signal
