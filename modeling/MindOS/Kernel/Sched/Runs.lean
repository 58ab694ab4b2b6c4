import MindOS.Kernel.Sched.Machine

/-!
# No task is lost

Only a task that has been started can be in a wait queue, among the sleepers or about to be
woken, and waking it leaves the run queue as it should be. So every step keeps the invariant
of the run queue except the one that gives up the CPU, which keeps it when it does not lose
the task that ran.
-/

namespace MindOS.Kernel.Sched

open Transition

namespace Machine

variable {T Q : Type} [DecidableEq T] [DecidableEq Q]

/-- A task that has been started. -/
def Known (m : Machine T Q) (t : T) : Prop := m.cpu.started t = true ∧ t ≠ m.cpu.idle

/-- The queue is as it should be, and only tasks that have been started can be woken. -/
structure Inv (m : Machine T Q) : Prop where
  cpu : m.cpu.Inv
  waiters : ∀ q, ∀ t ∈ m.waiters q, m.Known t
  sleepers : ∀ e ∈ m.sleepers, m.Known e.2
  waking : ∀ u ts, m.point u = .waking ts → ∀ t ∈ ts, m.Known t

omit [DecidableEq T] [DecidableEq Q] in
theorem Fresh.inv {m : Machine T Q} (h : m.Fresh) : m.Inv := by
  refine ⟨⟨?_, fun t => ?_, ?_, .inl h.current, .inr ⟨h.current, h.idle⟩⟩, ?_, ?_, ?_⟩
  · rw [h.queue]
    exact List.nodup_nil
  · rw [h.queue, Cpu.Ready, h.started]
    simp
  · rw [h.queue]
    simp
  · intro q t ht
    rw [h.waiters] at ht
    cases ht
  · intro e he
    rw [h.sleepers] at he
    cases he
  · intro u ts hu
    rw [h.point] at hu
    cases hu

/-! ### What the statements keep -/

section Statements

variable {m : Machine T Q}

omit [DecidableEq T] [DecidableEq Q] in
/-- The records of the scheduler change, and no task is forgotten. -/
theorem Inv.withCpu (h : m.Inv) {c : Cpu T} (hc : c.Inv) (hidle : c.idle = m.cpu.idle)
    (hstarted : ∀ t, m.cpu.started t = true → c.started t = true) :
    ({ m with cpu := c } : Machine T Q).Inv := by
  have hknown : ∀ {t}, m.Known t → ({ m with cpu := c } : Machine T Q).Known t := fun ht =>
    ⟨hstarted _ ht.1, fun hi => ht.2 (hi.trans hidle)⟩
  exact ⟨hc, fun q t ht => hknown (h.waiters q t ht), fun e he => hknown (h.sleepers e he),
    fun u ts hu t ht => hknown (h.waking u ts hu t ht)⟩

omit [DecidableEq Q] in
theorem Inv.goTo (h : m.Inv) {p : Point T Q} (hp : ∀ ts, p = .waking ts → ∀ t ∈ ts, m.Known t) :
    (m.goTo p).Inv := by
  refine ⟨h.cpu, h.waiters, h.sleepers, fun u ts hu => ?_⟩
  by_cases hcur : u = m.current
  · rw [hcur] at hu
    exact hp ts (by simpa [Machine.goTo] using hu)
  · exact h.waking u ts (by simpa [Machine.goTo, Function.update_of_ne hcur] using hu)

omit [DecidableEq T] in
theorem Inv.setWaiters (h : m.Inv) {q : Q} {ts : List T} (hts : ∀ t ∈ ts, m.Known t) :
    (m.setWaiters q ts).Inv := by
  refine ⟨h.cpu, fun r t ht => ?_, h.sleepers, h.waking⟩
  by_cases hr : r = q
  · rw [hr] at ht
    exact hts t (by simpa [Machine.setWaiters] using ht)
  · exact h.waiters r t (by simpa [Machine.setWaiters, Function.update_of_ne hr] using ht)

omit [DecidableEq Q] in
theorem Inv.wake (h : m.Inv) {t : T} (ht : m.Known t) : (m.wake t).Inv ∧
    (m.wake t).cpu.idle = m.cpu.idle ∧ (m.wake t).cpu.started = m.cpu.started := by
  have hsame : (m.cpu.wake t).idle = m.cpu.idle ∧ (m.cpu.wake t).started = m.cpu.started := by
    unfold Cpu.wake
    split
    · exact ⟨rfl, rfl⟩
    · dsimp only
      split
      · exact ⟨rfl, rfl⟩
      · split <;> exact ⟨rfl, rfl⟩
  refine ⟨h.withCpu (h.cpu.wake ht.1 ht.2) hsame.1 fun u hu => ?_, hsame⟩
  rw [hsame.2]
  exact hu

omit [DecidableEq Q] in
/-- A list of tasks that have been started is woken. -/
theorem Inv.wakeEach (h : m.Inv) {ts : List T} (hts : ∀ t ∈ ts, m.Known t) :
    (m.wakeEach ts).Inv := by
  induction ts generalizing m with
  | nil => exact h
  | cons t ts ih =>
      obtain ⟨hwake, hidle, hstarted⟩ := h.wake (hts t List.mem_cons_self)
      refine ih hwake fun u hu => ?_
      rw [Known, hidle, hstarted]
      exact hts u (List.mem_cons_of_mem t hu)

omit [DecidableEq Q] in
theorem Inv.setState (h : m.Inv) (st : TaskState) (hcur : m.current ≠ m.cpu.idle) :
    (m.setState st).Inv :=
  h.withCpu (h.cpu.setState_current st fun hidle => absurd hidle hcur) rfl fun _ ht => ht

omit [DecidableEq Q] in
theorem Inv.setInterruptible (h : m.Inv) (b : Bool) : (m.setInterruptible b).Inv :=
  ⟨h.cpu, h.waiters, h.sleepers, h.waking⟩

omit [DecidableEq Q] in
theorem Inv.clearTimedOut (h : m.Inv) (d : Nat) : (m.clearTimedOut d).Inv := by
  unfold Machine.clearTimedOut
  split
  · exact h
  · exact ⟨h.cpu, h.waiters, h.sleepers, h.waking⟩

omit [DecidableEq T] [DecidableEq Q] in
/-- Another task than the idle one has been started. -/
theorem Inv.known_current (h : m.Inv) (hcur : m.current ≠ m.cpu.idle) : m.Known m.current :=
  ⟨h.cpu.started.resolve_left hcur, hcur⟩

omit [DecidableEq T] [DecidableEq Q] in
theorem Inv.armTimer (h : m.Inv) (hcur : m.current ≠ m.cpu.idle) (d : Nat) :
    (m.armTimer d).Inv := by
  unfold Machine.armTimer
  split
  · exact h
  · refine ⟨h.cpu, h.waiters, fun e he => ?_, h.waking⟩
    obtain he | he := List.mem_append.mp he
    · exact h.sleepers e he
    · rw [List.mem_singleton.mp he]
      exact h.known_current hcur

omit [DecidableEq Q] in
theorem Inv.disarmTimer (h : m.Inv) (d : Nat) : (m.disarmTimer d).Inv := by
  unfold Machine.disarmTimer
  split
  · exact h
  · exact ⟨h.cpu, h.waiters, fun e he => h.sleepers e (List.mem_filter.mp he).1, h.waking⟩

omit [DecidableEq Q] in
theorem Inv.tick (h : m.Inv) (now : Nat) : (m.tick now).Inv := by
  have hexpired : ∀ t ∈ (m.sleepers.filter fun e => e.1 ≤ now).map Prod.snd, m.Known t := by
    intro t ht
    obtain ⟨e, he, rfl⟩ := List.mem_map.mp ht
    exact h.sleepers e (List.mem_filter.mp he).1
  have hrest : ({ m with sleepers := m.sleepers.filter fun e => ¬e.1 ≤ now } : Machine T Q).Inv :=
    ⟨h.cpu, h.waiters, fun e he => h.sleepers e (List.mem_filter.mp he).1, h.waking⟩
  -- Each wake leaves the others as known as they were.
  have hfold : ∀ (ts : List T) (n : Machine T Q), n.Inv → (∀ t ∈ ts, n.Known t) →
      (ts.foldl (fun n t =>
        Machine.wake { n with timedOut := Function.update n.timedOut t true } t) n).Inv := by
    intro ts
    induction ts with
    | nil => exact fun n hn _ => hn
    | cons t ts ih =>
        intro n hn hts
        have htimed : ({ n with timedOut := Function.update n.timedOut t true } :
            Machine T Q).Inv := ⟨hn.cpu, hn.waiters, hn.sleepers, hn.waking⟩
        obtain ⟨hwake, hidle, hstarted⟩ := htimed.wake (hts t List.mem_cons_self)
        refine ih _ hwake fun u hu => ?_
        rw [Known, hidle, hstarted]
        exact hts u (List.mem_cons_of_mem t hu)
  exact hfold _ _ hrest hexpired

omit [DecidableEq T] [DecidableEq Q] in
theorem mem_waiters_of_popped {q : Q} {t : T} (ht : t ∈ m.popped q) : t ∈ m.waiters q :=
  List.mem_of_getLast? (Option.mem_toList.mp ht)

omit [DecidableEq Q] in
theorem Inv.giveUp (h : m.Inv) {s : Cpu T} (hs : s.Inv) (hidle : s.idle = m.cpu.idle)
    (hstarted : s.started = m.cpu.started) (hkeeps : ¬s.LosesCurrent) :
    ({ m with cpu := s.schedule } : Machine T Q).Inv := by
  have hswitch := (hs.switches_schedule hkeeps).1
  refine h.withCpu (hs.schedule hkeeps) ?_ fun t ht => ?_
  · rw [hswitch.idle, Cpu.settle_idle, hidle]
  · rw [hswitch.started, Cpu.settle_started, hstarted]
    exact ht

omit [DecidableEq T] [DecidableEq Q] in
/-- A point at which no task is still to be woken. -/
theorem not_waking {p : Point T Q} (hp : ∀ ts, p ≠ .waking ts) :
    ∀ ts, p = .waking ts → ∀ t ∈ ts, m.Known t := fun ts h => absurd h (hp ts)

omit [DecidableEq T] [DecidableEq Q] in
theorem Inv.known_popped (h : m.Inv) (q : Q) : ∀ t ∈ m.popped q, m.Known t := fun t ht =>
  h.waiters q t (mem_waiters_of_popped ht)

omit [DecidableEq T] in
theorem Inv.dropLast (h : m.Inv) (q : Q) : (m.setWaiters q (m.waiters q).dropLast).Inv :=
  h.setWaiters fun t ht => h.waiters q t (List.dropLast_subset _ ht)

omit [DecidableEq T] in
theorem Inv.setWaiters_nil (h : m.Inv) (q : Q) : (m.setWaiters q []).Inv :=
  h.setWaiters fun _ ht => absurd ht List.not_mem_nil

theorem Inv.removeWaiter (h : m.Inv) (q : Q) (u : T) :
    (m.setWaiters q ((m.waiters q).filter (· ≠ u))).Inv :=
  h.setWaiters fun t ht => h.waiters q t (List.mem_filter.mp ht).1

omit [DecidableEq T] in
theorem Inv.addWaiter (h : m.Inv) (hcur : m.current ≠ m.cpu.idle) (q : Q) :
    (m.setWaiters q (m.waiters q ++ [m.current])).Inv := by
  refine h.setWaiters fun t ht => ?_
  obtain ht | ht := List.mem_append.mp ht
  · exact h.waiters q t ht
  · rw [List.mem_singleton.mp ht]
    exact h.known_current hcur

omit [DecidableEq Q] in
theorem Inv.start (h : m.Inv) {t : T} (hnew : m.cpu.started t = false) (hidle : t ≠ m.cpu.idle) :
    ({ m with cpu := m.cpu.enqueue t } : Machine T Q).Inv := by
  have hnot : ∀ {u}, m.cpu.started u = true → t ≠ u := fun hu htu => by
    rw [← htu, hnew] at hu
    cases hu
  have hcur : t ≠ m.cpu.current := by
    obtain hc | hc := h.cpu.started
    · rw [hc]
      exact hidle
    · exact hnot hc
  have hmem : t ∉ m.cpu.queue := fun ht => hnot (h.cpu.started_of_mem ht) rfl
  refine h.withCpu (h.cpu.enqueue hcur hidle hmem) rfl fun u hu => ?_
  exact (Function.update_of_ne (hnot hu).symm ..).trans hu

omit [DecidableEq T] [DecidableEq Q] in
theorem Inv.withTable {table : T → List Q} (h : m.Inv) :
    ({ m with table := table } : Machine T Q).Inv := ⟨h.cpu, h.waiters, h.sleepers, h.waking⟩

end Statements

variable {m m' : Machine T Q} {a : Act T Q}

/-- A statement of the running task or a handler keeps the invariant, unless it gives up the
CPU and loses the task. -/
theorem Inv.move (h : m.Inv) (hidle : m.current = m.cpu.idle → a.whileIdle = true)
    (hkeeps : m.Sound a) (hmove : m.move a = some m') : m'.Inv := by
  have hcur : a.whileIdle = false → m.current ≠ m.cpu.idle := fun ha hc => by
    rw [hidle hc] at ha
    cases ha
  cases a with
  | tick now =>
      cases hmove
      exact h.tick now
  | irqWakeOne q =>
      cases hmove
      exact (h.dropLast q).wakeEach (h.known_popped q)
  | irqWakeAll q =>
      cases hmove
      exact (h.setWaiters_nil q).wakeEach (h.waiters q)
  | irqSignal t =>
      cases hmove
      split
      case isTrue hasleep => exact (h.wake ⟨hasleep.1, hasleep.2.1⟩).1
      case isFalse => exact h
  | start t =>
      rw [Machine.move] at hmove
      split at hmove
      case isTrue hnew =>
        cases hmove
        exact h.start hnew.1 hnew.2
      case isFalse => cases hmove
  | takeOne q =>
      rw [Machine.move] at hmove
      split at hmove
      next =>
        cases hmove
        refine (h.dropLast q).goTo fun ts hts => ?_
        cases hts
        exact h.known_popped q
      next => cases hmove
  | takeAll q =>
      rw [Machine.move] at hmove
      split at hmove
      next =>
        cases hmove
        refine (h.setWaiters_nil q).goTo fun ts hts => ?_
        cases hts
        exact h.waiters q
      next => cases hmove
  | takeSignal t =>
      rw [Machine.move] at hmove
      split at hmove
      next =>
        cases hmove
        split
        case isTrue hasleep =>
          refine h.goTo fun ts hts u hu => ?_
          cases hts
          rw [List.mem_singleton.mp hu]
          exact ⟨hasleep.1, hasleep.2.1⟩
        case isFalse => exact h
      next => cases hmove
  | wakeNext =>
      rw [Machine.move] at hmove
      split at hmove
      next =>
        cases hmove
        exact h.goTo (not_waking nofun)
      next t ts hhere =>
        cases hmove
        have hts := h.waking _ _ hhere
        have hrest : (m.goTo (.waking ts)).Inv := h.goTo fun us hus u hu => by
          cases hus
          exact hts u (List.mem_cons_of_mem t hu)
        exact (hrest.wake (hts t List.mem_cons_self)).1
      next => cases hmove
  | waitInner w =>
      rw [Machine.move] at hmove
      split at hmove
      next =>
        cases hmove
        exact h.goTo (not_waking nofun)
      next => cases hmove
  | leave =>
      rw [Machine.move] at hmove
      split at hmove
      next =>
        cases hmove
        exact h.goTo (not_waking nofun)
      next => cases hmove
  | declare =>
      rw [Machine.move] at hmove
      split at hmove
      next w _ =>
        cases hmove
        have hblocked := (h.setState .blocked (hcur rfl)).setInterruptible w.interruptible
        exact (hblocked.addWaiter (hcur rfl) w.queue).goTo (not_waking nofun)
      next => cases hmove
  | arm =>
      rw [Machine.move] at hmove
      split at hmove
      next w _ =>
        cases hmove
        exact (h.armTimer (hcur rfl) w.deadline).goTo (not_waking nofun)
      next d _ =>
        cases hmove
        exact (h.armTimer (hcur rfl) d).goTo (not_waking nofun)
      next => cases hmove
  | disarm =>
      rw [Machine.move] at hmove
      split at hmove
      next w _ =>
        cases hmove
        exact (h.disarmTimer w.deadline).goTo (not_waking nofun)
      next d _ =>
        cases hmove
        exact (h.disarmTimer d).goTo (not_waking nofun)
      next => cases hmove
  | clearInterruptible =>
      rw [Machine.move] at hmove
      split at hmove
      next =>
        cases hmove
        exact (h.setInterruptible false).goTo (not_waking nofun)
      next =>
        cases hmove
        exact (h.setInterruptible false).goTo (not_waking nofun)
      next =>
        cases hmove
        exact (h.setInterruptible false).goTo (not_waking nofun)
      next => cases hmove
  | unregister =>
      rw [Machine.move] at hmove
      split at hmove
      next w _ =>
        cases hmove
        exact (h.removeWaiter w.queue m.current).goTo (not_waking nofun)
      next => cases hmove
  | add q =>
      rw [Machine.move] at hmove
      split at hmove
      next =>
        cases hmove
        refine Inv.withTable ?_
        split
        case isTrue => exact h.setWaiters (h.waiters q)
        case isFalse => exact h.addWaiter (hcur rfl) q
      next => cases hmove
  | prepare =>
      rw [Machine.move] at hmove
      split at hmove
      next =>
        cases hmove
        exact (h.setState _ (hcur rfl)).goTo (not_waking nofun)
      next => cases hmove
  | setInterruptible =>
      rw [Machine.move] at hmove
      split at hmove
      next =>
        cases hmove
        exact (h.setInterruptible true).goTo (not_waking nofun)
      next => cases hmove
  | cancel =>
      rw [Machine.move] at hmove
      split at hmove
      next =>
        cases hmove
        exact (h.setState _ (hcur rfl)).goTo (not_waking nofun)
      next => cases hmove
  | block d =>
      rw [Machine.move] at hmove
      split at hmove
      next =>
        cases hmove
        exact (h.clearTimedOut d).goTo (not_waking nofun)
      next => cases hmove
  | takeTimedOut =>
      rw [Machine.move] at hmove
      split at hmove
      next d _ =>
        cases hmove
        exact (h.clearTimedOut d).goTo (not_waking nofun)
      next => cases hmove
  | clear =>
      rw [Machine.move] at hmove
      split at hmove
      next q _ _ _ =>
        cases hmove
        exact (h.removeWaiter q m.current).withTable
      next => cases hmove
  | yieldNow =>
      rw [Machine.move] at hmove
      split at hmove
      next =>
        cases hmove
        have hyields := h.cpu.setState_current .runnable fun _ => .inl rfl
        exact (h.withCpu hyields rfl fun _ ht => ht).goTo (not_waking nofun)
      next => cases hmove
  | schedule =>
      have hgives : ∀ p : Point T Q, (∀ ts, p ≠ .waking ts) →
          ({ m.goTo p with cpu := m.cpu.schedule } : Machine T Q).Inv := fun p hp =>
        (h.goTo (not_waking hp)).giveUp h.cpu rfl rfl (hkeeps _ rfl)
      rw [Machine.move] at hmove
      split at hmove
      next =>
        cases hmove
        exact hgives _ nofun
      next =>
        cases hmove
        exact hgives _ nofun
      next =>
        cases hmove
        exact hgives _ nofun
      next => cases hmove
  | exit =>
      rw [Machine.move] at hmove
      split at hmove
      next =>
        cases hmove
        have hzombie := (h.setState .zombie (hcur rfl)).cpu
        exact h.giveUp hzombie rfl rfl (hkeeps _ rfl)
      next => cases hmove

theorem Inv.step (h : m.Inv) (hkeeps : m.Sound a) (hstep : m.step a = some m') : m'.Inv := by
  rw [Machine.step] at hstep
  split at hstep
  case isTrue => cases hstep
  case isFalse hidle =>
    refine h.move (fun hc => ?_) hkeeps hstep
    rw [not_and, Bool.not_eq_false] at hidle
    exact hidle hc

/-- Where a step leaves the records with which the task gave up the CPU. -/
theorem Inv.cpu_of_givesUp (h : m.Inv) (hstep : m.step a = some m') {s : Cpu T}
    (hs : m.givesUp a = some s) : s.Inv ∧ m'.cpu = s.schedule := by
  rw [Machine.step] at hstep
  split at hstep
  case isTrue => cases hstep
  case isFalse hidle =>
    cases a with
    | schedule =>
        cases hs
        refine ⟨h.cpu, ?_⟩
        rw [Machine.move] at hstep
        split at hstep <;> cases hstep <;> rfl
    | exit =>
        cases hs
        refine ⟨(h.setState .zombie fun hc => hidle ⟨hc, rfl⟩).cpu, ?_⟩
        rw [Machine.move] at hstep
        split at hstep <;> cases hstep
        rfl
    | _ => cases hs

/-- A step loses no task exactly when the one that gives up the CPU is not lost. -/
theorem Inv.good_iff (h : m.Inv) (hstep : m.step a = some m') : m.Good a m' ↔ m.Sound a := by
  constructor
  · intro hgood s hs hloses
    obtain ⟨hInv, hcpu⟩ := h.cpu_of_givesUp hstep hs
    refine hInv.not_kept_schedule hloses ?_
    rw [← hcpu]
    exact (hgood s hs).1
  · intro hkeeps s hs
    obtain ⟨hInv, hcpu⟩ := h.cpu_of_givesUp hstep hs
    rw [hcpu]
    exact ⟨(hInv.schedule (hkeeps s hs)).kept, (hInv.switches_schedule (hkeeps s hs)).2⟩

/-- No run loses a task or runs one that is not runnable, exactly when no task gives up the CPU
after it has been woken, to run again behind another. -/
theorem no_task_lost_iff {m : Machine T Q} (hfresh : m.Fresh) (acts : List (Act T Q)) :
    Along step Good m acts ↔ Along step (fun m a _ => m.Sound a) m acts :=
  along_iff Inv (fun _ _ _ hInv hstep hgood => hInv.step ((hInv.good_iff hstep).mp hgood) hstep)
    (fun _ _ _ hInv hstep => hInv.good_iff hstep) acts hfresh.inv

theorem no_task_lost_iff_boot :
    Along step Good (boot 0 : Machine Nat Nat) [.start 1, .yieldNow, .schedule] ↔
      Along step (fun m a _ => m.Sound a) (boot 0 : Machine Nat Nat)
        [.start 1, .yieldNow, .schedule] :=
  no_task_lost_iff (boot_fresh 0) _

/-- Task 1 declares itself blocked, and an interrupt wakes it before it gives up the CPU. -/
theorem task_lost : ¬∀ (m : Machine Nat Nat) (acts : List (Act Nat Nat)), m.Fresh →
    Along step Good m acts := by
  intro hall
  have hrun := hall (boot 0) [.start 1, .start 2, .yieldNow, .schedule,
    .waitInner ⟨0, true, 0⟩, .declare, .irqWakeOne 0, .arm, .schedule] (boot_fresh 0)
  have hwoken := (((((((hrun _ rfl).2 _ rfl).2 _ rfl).2 _ rfl).2 _ rfl).2 _ rfl).2 _ rfl).2 _ rfl
  have hkept := ((hwoken.2 _ rfl).1 _ rfl).1 1
  exact absurd (hkept ⟨rfl, rfl, by decide, by decide⟩) (by decide)

end Machine

end MindOS.Kernel.Sched
