import MindOS.Kernel.Poll.Machine

/-!
# Blocked tasks and what is ready

A task that blocks is on the queue of every file it watches and has found none of them
ready. What other tasks do keeps it so, or wakes it.
-/

namespace MindOS.Kernel.Poll

/-! ### Interests that ask for less -/

/-- The same files and the same interests, which may ask for less. -/
structure Objects.Lighter (o o' : Objects) : Prop where
  eventfds : o'.eventfds = o.eventfds
  pipes : o'.pipes = o.pipes
  ttys : o'.ttys = o.ttys
  epolls : ∀ e, ∃ less : Interest → Interest, o'.epolls e = (o.epolls e).map less ∧
    ∀ i, (less i).file = i.file ∧ Quiet i.want (less i).want

theorem ready_eq_nil_iff {poll : File → Mask} {interests : List Interest} :
    ready poll interests = [] ↔ ∀ i ∈ interests, poll i.file &&& i.want = 0 := by
  simp [ready, List.filterMap_eq_nil_iff]

theorem and_eq_zero_of_quiet {m m' want want' : Mask} (hm : Quiet m m') (hwant : Quiet want want')
    (h : m &&& want = 0) : m' &&& want' = 0 := by
  have hwant' := hwant m' (by rw [BitVec.and_comm]; exact hm want h)
  rwa [BitVec.and_comm] at hwant'

namespace Objects.Lighter

variable {o o' : Objects}

theorem refl (o : Objects) : Lighter o o :=
  ⟨rfl, rfl, rfl, fun _ => ⟨id, (List.map_id _).symm, fun _ => ⟨rfl, .refl _⟩⟩⟩

theorem trans {o'' : Objects} (h : Lighter o o') (h' : Lighter o' o'') : Lighter o o'' := by
  refine ⟨h'.eventfds.trans h.eventfds, h'.pipes.trans h.pipes, h'.ttys.trans h.ttys, fun e => ?_⟩
  obtain ⟨less, hless, hsame⟩ := h.epolls e
  obtain ⟨less', hless', hsame'⟩ := h'.epolls e
  refine ⟨less' ∘ less, by rw [hless', hless, List.map_map], fun i => ⟨?_, fun want hwant => ?_⟩⟩
  · exact (hsame' (less i)).1.trans (hsame i).1
  · exact (hsame' (less i)).2 want ((hsame i).2 want hwant)

theorem poll (h : Lighter o o') (depth : Nat) (f : File) :
    Quiet (o.poll depth f) (o'.poll depth f) := by
  induction depth generalizing f with
  | zero =>
      cases f with
      | epoll e => exact .refl _
      | _ => simp only [Objects.poll, h.eventfds, h.pipes, h.ttys]; exact .refl _
  | succ depth ih =>
      cases f with
      | epoll e =>
          apply quiet_event
          simp only [Bool.not_eq_true', List.isEmpty_eq_false_iff]
          refine mt fun hready => ?_
          obtain ⟨less, hless, hsame⟩ := h.epolls e
          rw [hless, ready_eq_nil_iff]
          intro i' hi'
          obtain ⟨i, hi, rfl⟩ := List.mem_map.mp hi'
          obtain ⟨hfile, hwant⟩ := hsame i
          rw [hfile]
          exact and_eq_zero_of_quiet (ih i.file) hwant (ready_eq_nil_iff.mp hready i hi)
      | _ => simp only [Objects.poll, h.eventfds, h.pipes, h.ttys]; exact .refl _

theorem queues (h : Lighter o o') (c : Call) : c.queues o' = c.queues o := by
  cases c with
  | poll fds => rfl
  | epollWait e _ =>
      obtain ⟨less, hless, hsame⟩ := h.epolls e
      rw [Call.queues, Call.queues, hless, List.map_map]
      congr 1
      apply List.map_congr_left
      intro i _
      rw [Function.comp_apply, (hsame i).1]

theorem quiet (h : Lighter o o') {depth : Nat} {c : Call}
    (hquiet : ∀ f want, (f, want) ∈ c.watched o → o.poll depth f &&& want = 0) :
    ∀ f want, (f, want) ∈ c.watched o' → o'.poll depth f &&& want = 0 := by
  cases c with
  | poll fds => exact fun f want hmem => h.poll depth f want (hquiet f want hmem)
  | epollWait e _ =>
      obtain ⟨less, hless, hsame⟩ := h.epolls e
      intro f want hmem
      rw [Call.watched, hless, List.map_map] at hmem
      obtain ⟨i, hi, heq⟩ := List.mem_map.mp hmem
      cases heq
      obtain ⟨hfile, hwant⟩ := hsame i
      rw [hfile]
      exact and_eq_zero_of_quiet (h.poll depth i.file) hwant
        (hquiet i.file i.want (List.mem_map.mpr ⟨i, hi, rfl⟩))

end Objects.Lighter

theorem Interest.want_disabled (i : Interest) : i.disabled.want = 0 := by
  simp [want, disabled, BitVec.and_assoc]

theorem Interest.quiet_disabled (i : Interest) : Quiet i.want i.disabled.want := by
  rw [i.want_disabled]
  exact quiet_zero _

namespace Machine

variable {depth t : Nat} {m m' : Machine} {c : Call} {w : Waiting} {queues : List Queue}

theorem lighter_report (m : Machine) (poll : File → Mask) (c : Call) :
    m.objects.Lighter (m.report poll c).objects := by
  cases c with
  | poll fds => exact .refl _
  | epollWait e _ =>
      refine ⟨rfl, rfl, rfl, fun e' => ?_⟩
      by_cases he : e' = e
      · subst he
        refine ⟨_, Function.update_self .., fun i => ?_⟩
        rw [Interest.afterReport]
        split
        · exact ⟨rfl, i.quiet_disabled⟩
        · exact ⟨rfl, .refl _⟩
      · exact ⟨id, (Function.update_of_ne he _ _).trans (List.map_id _).symm,
          fun i => ⟨rfl, .refl _⟩⟩

/-! ### Blocked tasks -/

/-- The task is in a call and has not been made runnable. -/
def Blocked (m : Machine) (t : Nat) (w : Waiting) : Prop :=
  m.tasks t = some w ∧ w.runnable = false

/-- The call is on all its queues, and has found nothing ready. -/
structure Settled (depth : Nat) (m : Machine) (t : Nat) (c : Call) : Prop where
  queued : ∀ q ∈ c.queues m.objects, t ∈ m.waiters q
  quiet : ∀ f want, (f, want) ∈ c.watched m.objects → m.objects.poll depth f &&& want = 0

/-- A turn of another task leaves the task where it is, and no file has more events. -/
structure Spares (t : Nat) (m m' : Machine) : Prop where
  tasks : m'.tasks t = m.tasks t
  waiters : ∀ q, t ∈ m.waiters q → t ∈ m'.waiters q
  objects : m.objects.Lighter m'.objects

theorem Spares.settled (h : Spares t m m') (hs : Settled depth m t c) : Settled depth m' t c where
  queued q hq := h.waiters q (hs.queued q (h.objects.queues c ▸ hq))
  quiet := h.objects.quiet hs.quiet

theorem Settled.mem_of_watched (h : Settled depth m t c) {f : File} {want : Mask}
    (hf : (f, want) ∈ c.watched m.objects) : t ∈ m.waiters f.pollWait := by
  apply h.queued
  cases c with
  | poll fds => exact List.mem_map.mpr ⟨(f, want), hf, rfl⟩
  | epollWait e _ =>
      obtain ⟨i, hi, heq⟩ := List.mem_map.mp hf
      cases heq
      exact List.mem_cons_of_mem _ (List.mem_map.mpr ⟨i, hi, rfl⟩)

/-! ### Turns of other tasks -/

namespace Spares

variable {u : Nat}

theorem refl (u : Nat) (m : Machine) : Spares u m m := ⟨rfl, fun _ => id, .refl _⟩

theorem trans {m'' : Machine} (h : Spares u m m') (h' : Spares u m' m'') : Spares u m m'' :=
  ⟨h'.tasks.trans h.tasks, fun q hq => h'.waiters q (h.waiters q hq), h.objects.trans h'.objects⟩

theorem blocked_iff (h : Spares u m m') : Blocked m' u w ↔ Blocked m u w := by
  rw [Blocked, Blocked, h.tasks]

theorem report (u : Nat) (m : Machine) (poll : File → Mask) (c : Call) :
    Spares u m (m.report poll c) := by
  refine ⟨?_, ?_, lighter_report m poll c⟩
  · cases c <;> rfl
  · cases c <;> exact fun _ => id

theorem addWaiter (u : Nat) (m : Machine) (t : Nat) (q : Queue) : Spares u m (m.addWaiter t q) := by
  rw [Machine.addWaiter]
  split
  case isTrue => exact .refl u m
  case isFalse =>
    refine ⟨rfl, fun q' hq' => ?_, .refl _⟩
    by_cases hq : q' = q
    · subst hq
      simp [hq']
    · simpa [hq] using hq'

theorem addWaiters (u : Nat) (m : Machine) (t : Nat) (queues : List Queue) :
    Spares u m (queues.foldl (fun m q => m.addWaiter t q) m) := by
  induction queues generalizing m with
  | nil => exact .refl u m
  | cons q queues ih => exact (addWaiter u m t q).trans (ih _)

theorem clear (hu : u ≠ t) (m : Machine) (queues : List Queue) : Spares u m (m.clear t queues) := by
  refine ⟨rfl, fun q hq => ?_, .refl _⟩
  simp only [Machine.clear]
  split
  · exact List.mem_filter.mpr ⟨hq, by simpa using hu⟩
  · exact hq

theorem leave (hu : u ≠ t) (m : Machine) (queues : List Queue) : Spares u m (m.leave t queues) := by
  obtain ⟨-, hwaiters, hobjects⟩ := clear hu m queues
  exact ⟨Function.update_of_ne hu _ _, hwaiters, hobjects⟩

theorem round (hu : u ≠ t) (m : Machine) (c : Call) (queues : List Queue) (wait : Bool) :
    Spares u m (m.round depth t c queues wait) := by
  rw [Machine.round]
  split
  · exact (leave hu m queues).trans (report u _ _ c)
  split
  · exact ⟨Function.update_of_ne hu _ _, fun _ => id, .refl _⟩
  · exact leave hu m queues

theorem enter (hu : u ≠ t) (m : Machine) (c : Call) (wait : Bool) :
    Spares u m (m.enter depth t c wait) :=
  (addWaiters u m t _).trans (round hu _ c _ wait)

end Spares

/-! ### A task that blocks -/

theorem mem_addWaiter (m : Machine) (t : Nat) (q : Queue) : t ∈ (m.addWaiter t q).waiters q := by
  rw [addWaiter]
  split
  case isTrue h => exact h
  case isFalse => simp

theorem mem_addWaiters {q : Queue} (hq : q ∈ queues) (m : Machine) (t : Nat) :
    t ∈ (queues.foldl (fun m q => m.addWaiter t q) m).waiters q := by
  induction queues generalizing m with
  | nil => cases hq
  | cons q' queues ih =>
      obtain rfl | hq := List.mem_cons.mp hq
      · exact (Spares.addWaiters t _ t queues).waiters q (mem_addWaiter m t q)
      · exact ih hq _

theorem addWaiters_objects (m : Machine) (t : Nat) (queues : List Queue) :
    (queues.foldl (fun m q => m.addWaiter t q) m).objects = m.objects := by
  induction queues generalizing m with
  | nil => rfl
  | cons q queues ih =>
      rw [List.foldl_cons, ih, addWaiter]
      split <;> rfl

theorem quiet_of_not_anyReady {o : Objects} (h : c.anyReady (o.poll depth) o = false) :
    ∀ f want, (f, want) ∈ c.watched o → o.poll depth f &&& want = 0 := by
  intro f want hmem
  cases c with
  | poll fds =>
      obtain ⟨p, hp, hwatched⟩ := List.mem_filterMap.mp hmem
      have hnone := List.any_eq_false.mp h p hp
      rw [bne_iff_ne, not_not] at hnone
      rw [PollFd.watched] at hwatched
      split at hwatched
      · cases hwatched
      case isFalse hfd =>
        obtain ⟨f', hf', heq⟩ := Option.map_eq_some_iff.mp hwatched
        cases heq
        rwa [PollFd.revents, if_neg hfd, hf'] at hnone
  | epollWait e _ =>
      obtain ⟨i, hi, heq⟩ := List.mem_map.mp hmem
      cases heq
      have hempty : ready (o.poll depth) (o.epolls e) = [] := by
        simpa [Call.anyReady] using h
      exact ready_eq_nil_iff.mp hempty i hi

theorem leave_tasks (m : Machine) (t : Nat) (queues : List Queue) :
    (m.leave t queues).tasks t = none := Function.update_self ..

/-- A task that blocks in a round, having gone on all its queues, is settled. -/
theorem settled_round {wait : Bool} (hqueued : ∀ q ∈ c.queues m.objects, t ∈ m.waiters q)
    (h : Blocked (m.round depth t c queues wait) t w) :
    Settled depth (m.round depth t c queues wait) t w.call := by
  obtain ⟨htask, -⟩ := h
  rw [round] at htask ⊢
  split
  case isTrue hready =>
    have hleft : (((m.leave t queues).report (m.objects.poll depth) c).tasks t) = none := by
      rw [(Spares.report t _ _ c).tasks, leave_tasks]
    rw [if_pos hready, hleft] at htask
    cases htask
  case isFalse hready =>
    rw [if_neg hready] at htask
    split
    case isTrue hwait =>
      rw [if_pos hwait] at htask
      dsimp only at htask
      rw [Function.update_self] at htask
      obtain rfl := Option.some.inj htask
      exact ⟨hqueued, quiet_of_not_anyReady (Bool.not_eq_true _ ▸ hready)⟩
    case isFalse hwait =>
      rw [if_neg hwait, leave_tasks] at htask
      cases htask

theorem settled_enter {wait : Bool} (h : Blocked (m.enter depth t c wait) t w) :
    Settled depth (m.enter depth t c wait) t w.call := by
  apply settled_round _ h
  intro q hq
  rw [addWaiters_objects] at hq
  exact mem_addWaiters hq m t

/-! ### Wakeups -/

theorem wakeAlls_objects (m : Machine) (queues : List Queue) :
    (queues.foldl wakeAll m).objects = m.objects := by
  induction queues generalizing m with
  | nil => rfl
  | cons q queues ih => exact ih _

theorem blocked_wakeAll {q : Queue} :
    Blocked (m.wakeAll q) t w ↔ Blocked m t w ∧ t ∉ m.waiters q := by
  rw [Blocked, Blocked, wakeAll]
  by_cases ht : t ∈ m.waiters q
  · refine iff_of_false ?_ fun h => h.2 ht
    rintro ⟨htask, hrunnable⟩
    dsimp only at htask
    rw [if_pos ht] at htask
    obtain ⟨w', -, rfl⟩ := Option.map_eq_some_iff.mp htask
    cases hrunnable
  · simp [ht]

/-- What is still blocked was on none of the queues. -/
theorem blocked_wakeAlls :
    Blocked (queues.foldl wakeAll m) t w ↔ Blocked m t w ∧ ∀ q ∈ queues, t ∉ m.waiters q := by
  induction queues generalizing m with
  | nil => simp
  | cons q queues ih =>
      rw [List.foldl_cons, ih, blocked_wakeAll, List.forall_mem_cons]
      constructor
      · rintro ⟨⟨hblocked, hq⟩, hrest⟩
        refine ⟨hblocked, hq, fun q' hq' hmem => hrest q' hq' ?_⟩
        by_cases heq : q' = q
        · exact absurd (heq ▸ hmem) hq
        · simpa [wakeAll, heq] using hmem
      · rintro ⟨hblocked, hq, hrest⟩
        refine ⟨⟨hblocked, hq⟩, fun q' hq' hmem => hrest q' hq' ?_⟩
        by_cases heq : q' = q
        · simp [wakeAll, heq] at hmem
        · simpa [wakeAll, heq] using hmem

theorem wakeAll_waiters {q q' : Queue} (h : q ≠ q') : (m.wakeAll q').waiters q = m.waiters q :=
  Function.update_of_ne h _ _

theorem mem_waiters_wakeAlls {q : Queue} (hq : q ∉ queues) :
    t ∈ (queues.foldl wakeAll m).waiters q ↔ t ∈ m.waiters q := by
  induction queues generalizing m with
  | nil => exact Iff.rfl
  | cons q' queues ih =>
      obtain ⟨hne, hrest⟩ := not_or.mp (mt List.mem_cons.mpr hq)
      rw [List.foldl_cons, ih hrest, wakeAll_waiters hne]

end Machine

end MindOS.Kernel.Poll
