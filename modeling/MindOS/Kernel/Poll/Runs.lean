import MindOS.Kernel.Poll.Readiness

/-!
# Readiness along a run

## One-shot interests

What `epoll_wait` reports, and which one-shot interests it disables: it reports the first
ready interests up to the number the caller has room for, and disables each one-shot
interest whose data word is that of a ready one.
-/

namespace MindOS.Kernel.Poll

/-- The interest at a position is reported: it is ready, and among the first. -/
def Reported (poll : File → Mask) (interests : List Interest) (maxevents k : Nat) (i : Interest) :
    Prop :=
  poll i.file &&& i.want ≠ 0 ∧ (ready poll (interests.take k)).length < maxevents

/-- An interest is disabled exactly when it should be: a ready one is among those that are
reported, and one that is not ready has the data word of none that is. -/
def Distinguished (poll : File → Mask) (interests : List Interest) (maxevents k : Nat)
    (i : Interest) : Prop :=
  (poll i.file &&& i.want ≠ 0 → (ready poll (interests.take k)).length < maxevents) ∧
    (poll i.file &&& i.want = 0 → ∀ r ∈ ready poll interests, r.2 ≠ i.data)

instance (poll : File → Mask) (interests : List Interest) (maxevents k : Nat) (i : Interest) :
    Decidable (Reported poll interests maxevents k i) :=
  inferInstanceAs (Decidable (_ ∧ _))

section Lists

variable {poll : File → Mask} {interests : List Interest} {maxevents k : Nat} {i : Interest}

theorem distinguished_singleton (hroom : 0 < maxevents) :
    Distinguished poll [i] maxevents 0 i := by
  refine ⟨fun _ => hroom, fun hquiet r hr => ?_⟩
  have hnone : ready poll [i] = [] := List.filterMap_cons_none (if_pos hquiet)
  rw [hnone] at hr
  cases hr

theorem want_afterReport (hshot : i.oneShot = true) (hwant : i.want ≠ 0)
    {found : List (Mask × BitVec 64)} :
    (i.afterReport found).want = 0 ↔ ∃ r ∈ found, r.2 = i.data := by
  rw [Interest.afterReport, hshot, Bool.true_and]
  split
  case isTrue hany =>
    refine iff_of_true i.want_disabled ?_
    simpa using hany
  case isFalse hany =>
    refine iff_of_false hwant ?_
    simpa using hany

theorem afterReport_iff (hk : interests[k]? = some i) (hshot : i.oneShot = true)
    (hwant : i.want ≠ 0) :
    ((i.afterReport (ready poll interests)).want = 0 ↔ Reported poll interests maxevents k i) ↔
      Distinguished poll interests maxevents k i := by
  rw [want_afterReport hshot hwant, Reported, Distinguished]
  by_cases hready : poll i.file &&& i.want = 0
  · simp only [hready, ne_eq, not_true, false_and, iff_false, not_exists, not_and,
      false_implies, true_implies, true_and]
  · have hmem : ∃ r ∈ ready poll interests, r.2 = i.data :=
      ⟨_, List.mem_filterMap.mpr ⟨i, List.mem_of_getElem? hk, if_neg hready⟩, rfl⟩
    simp only [hready, ne_eq, not_false_iff, true_and, true_implies, false_implies, and_true,
      iff_true_left hmem]

end Lists

/-!
## Runs in which no readiness is lost

A blocked task is made runnable when something it watches becomes ready, in every run in
which tasks are not woken for nothing, no epoll instance that is watched becomes ready by
itself, and the master makes no room for a terminal that is watched for it.
-/

open Transition

namespace Machine

variable {depth : Nat} {m m' : Machine} {a : Action} {t : Nat} {c : Call} {w : Waiting}

/-! ### What should hold -/

/-- No file that a blocked task watches is ready for what the task asks for. -/
def NothingLost (depth : Nat) (m : Machine) : Prop :=
  ∀ t w, m.Blocked t w → ∀ f want, (f, want) ∈ w.call.watched m.objects →
    m.objects.poll depth f &&& want = 0

/-- The instance an `epoll_wait` looks at in this step, and the room the caller has. -/
def looks (m : Machine) : Action → Option (Nat × Nat)
  | .call _ (.epollWait e n) _ => some (e, n)
  | .resume t =>
      match m.tasks t with
      | some ⟨.epollWait e n, _, true⟩ => some (e, n)
      | _ => none
  | _ => none

/-- `P` of every enabled one-shot interest of the instance that is looked at. -/
def EachOneShot (m : Machine) (a : Action) (P : Nat → Nat → Nat → Interest → Prop) : Prop :=
  ∀ e n, m.looks a = some (e, n) → ∀ k i, (m.objects.epolls e)[k]? = some i →
    i.oneShot = true → i.want ≠ 0 → P e n k i

/-- A call disables the one-shot interests that it reports, and no other. -/
def DisablesReported (depth : Nat) (m : Machine) (a : Action) (m' : Machine) : Prop :=
  m.EachOneShot a fun e n k i => ∃ i', (m'.objects.epolls e)[k]? = some i' ∧
    (i'.want = 0 ↔ Reported (m.objects.poll depth) (m.objects.epolls e) n k i)

/-! ### When it holds -/

/-- A task that stays blocked when these queues are woken watches the file, and asks for
the events. -/
def Watches (m : Machine) (queues : List Queue) (f : File) (want : Mask) : Prop :=
  ∃ t w, m.Blocked t w ∧ (∀ q ∈ queues, t ∉ m.waiters q) ∧ (f, want) ∈ w.call.watched m.objects

/-- The step makes no instance ready that is watched as a file. -/
def NoNested (depth : Nat) (m : Machine) (objects : Objects) (queues : List Queue) : Prop :=
  ∀ e want, m.Watches queues (.epoll e) want → objects.poll depth (.epoll e) &&& want = 0

/-- The operation makes no room that is waited for. -/
def NoRoom (m : Machine) (o : Op) : Prop :=
  ∀ i want, o.makesRoom m.objects i = true → m.Watches (m.objects.apply o).2 (.tty i) want →
    POLLOUT &&& want = 0

/-- The task is not woken for nothing, the instance is not nested, the terminal is not
watched for room, and one-shot interests can be told apart. -/
def Meets (depth : Nat) (m : Machine) (a : Action) : Prop :=
  m.EachOneShot a (fun e n k i =>
    Distinguished (m.objects.poll depth) (m.objects.epolls e) n k i) ∧
  match a with
  | .resume t => ∀ fds queues, m.tasks t = some ⟨.poll fds, queues, true⟩ →
      (Call.poll fds).anyReady (m.objects.poll depth) m.objects = true
  | .ctl e c => ∀ interests, epollCtl e (m.objects.epolls e) c = .ok interests →
      m.NoNested depth (m.objects.setEpoll e interests) [.epoll e]
  | .op o => m.NoNested depth (m.objects.apply o).1 (m.objects.apply o).2 ∧ m.NoRoom o
  | _ => True

/-! ### One-shot interests -/

theorem map_afterReport_nil (interests : List Interest) :
    interests.map (·.afterReport []) = interests := by
  have hid : ∀ i : Interest, i.afterReport [] = i := by simp [Interest.afterReport]
  simp [hid]

theorem round_epolls (m : Machine) (queues : List Queue) (e n : Nat) (wait : Bool) :
    (m.round depth t (.epollWait e n) queues wait).objects.epolls e =
      (m.objects.epolls e).map
        (·.afterReport (ready (m.objects.poll depth) (m.objects.epolls e))) := by
  rw [round]
  split
  case isTrue => exact Function.update_self ..
  case isFalse hready =>
    have hnone : ready (m.objects.poll depth) (m.objects.epolls e) = [] := by
      simpa [Call.anyReady] using hready
    rw [hnone, map_afterReport_nil]
    split <;> rfl

theorem enter_epolls (m : Machine) (e n : Nat) (wait : Bool) :
    (m.enter depth t (.epollWait e n) wait).objects.epolls e =
      (m.objects.epolls e).map
        (·.afterReport (ready (m.objects.poll depth) (m.objects.epolls e))) := by
  rw [enter, round_epolls, addWaiters_objects]

theorem epolls_of_looks {e n : Nat} (hstep : m.step depth a = some m')
    (hlooks : m.looks a = some (e, n)) :
    m'.objects.epolls e = (m.objects.epolls e).map
      (·.afterReport (ready (m.objects.poll depth) (m.objects.epolls e))) := by
  cases a with
  | call t c wait =>
      cases c with
      | poll fds => cases hlooks
      | epollWait e' n' =>
          cases hlooks
          rw [step] at hstep
          split at hstep
          case isTrue =>
            cases hstep
            exact enter_epolls m e n wait
          case isFalse => cases hstep
  | resume t =>
      rw [looks] at hlooks
      split at hlooks
      case h_1 e' n' queues htask =>
        cases hlooks
        rw [step, htask] at hstep
        cases hstep
        exact enter_epolls (m.clear t queues) e n true
      case h_2 => cases hlooks
  | _ => cases hlooks

/-- The one-shot interests can be told apart exactly when the call disables what it
reports. -/
theorem disablesReported_iff (hstep : m.step depth a = some m') :
    m.DisablesReported depth a m' ↔ m.EachOneShot a fun e n k i =>
      Distinguished (m.objects.poll depth) (m.objects.epolls e) n k i := by
  refine forall_congr' fun e => forall_congr' fun n => forall_congr' fun hlooks =>
    forall_congr' fun k => forall_congr' fun i => forall_congr' fun hk =>
      forall_congr' fun hshot => forall_congr' fun hwant => ?_
  dsimp only
  rw [epolls_of_looks hstep hlooks, List.getElem?_map, hk, ← afterReport_iff hk hshot hwant]
  simp

/-! ### Blocked tasks -/

/-- Every blocked task is on all its queues and has found nothing ready. -/
def Watchful (depth : Nat) (m : Machine) : Prop :=
  ∀ t w, m.Blocked t w → m.Settled depth t w.call

theorem Watchful.nothingLost (h : m.Watchful depth) : m.NothingLost depth :=
  fun t w hblocked => (h t w hblocked).quiet

theorem Watchful.of_spares (h : m.Watchful depth) (hspares : ∀ u ≠ t, Spares u m m')
    (hself : ∀ w, m'.Blocked t w → m'.Settled depth t w.call) : m'.Watchful depth := by
  intro u w hblocked
  by_cases hu : u = t
  · subst hu
    exact hself w hblocked
  · exact (hspares u hu).settled (h u w ((hspares u hu).blocked_iff.mp hblocked))

theorem Watchful.enter (h : m.Watchful depth) (t : Nat) (c : Call) (wait : Bool) :
    (m.enter depth t c wait).Watchful depth :=
  h.of_spares (fun _ hu => .enter hu m c wait) fun _ => settled_enter

theorem Watchful.clear_enter (h : m.Watchful depth) (t : Nat) (queues : List Queue) (c : Call)
    (wait : Bool) : ((m.clear t queues).enter depth t c wait).Watchful depth :=
  h.of_spares (fun _ hu => (Spares.clear hu m queues).trans (.enter hu _ c wait))
    fun _ => settled_enter

theorem Watchful.leave (h : m.Watchful depth) (t : Nat) (queues : List Queue) :
    (m.leave t queues).Watchful depth := by
  refine h.of_spares (fun _ hu => .leave hu m queues) fun w hblocked => ?_
  rw [Blocked, leave_tasks] at hblocked
  cases hblocked.1

theorem Watchful.round (h : m.Watchful depth) {queues : List Queue} {wait : Bool}
    (hready : c.anyReady (m.objects.poll depth) m.objects = true) :
    (m.round depth t c queues wait).Watchful depth := by
  refine h.of_spares (fun _ hu => .round hu m c queues wait) fun w hblocked => ?_
  rw [Machine.round, if_pos hready, Blocked, (Spares.report t _ _ c).tasks, leave_tasks]
    at hblocked
  cases hblocked.1

/-! ### Changes of objects -/

/-- Tasks that none of the queues wakes go on watching what they watched. -/
def Undisturbed (m : Machine) (objects : Objects) (queues : List Queue) : Prop :=
  ∀ t w, m.Blocked t w → (∀ q ∈ queues, t ∉ m.waiters q) →
    w.call.queues objects = w.call.queues m.objects ∧
      w.call.watched objects = w.call.watched m.objects

variable {objects : Objects} {queues : List Queue}

theorem nothingLost_wakeAlls_iff (hsame : m.Undisturbed objects queues) :
    (queues.foldl wakeAll { m with objects := objects }).NothingLost depth ↔
      ∀ f want, m.Watches queues f want → objects.poll depth f &&& want = 0 := by
  rw [NothingLost, wakeAlls_objects]
  constructor
  · rintro hlost f want ⟨t, w, hblocked, hnone, hf⟩
    exact hlost t w (blocked_wakeAlls.mpr ⟨hblocked, hnone⟩) f want
      ((hsame t w hblocked hnone).2 ▸ hf)
  · intro hquiet t w hblocked f want hf
    obtain ⟨hbefore, hnone⟩ := blocked_wakeAlls.mp hblocked
    exact hquiet f want ⟨t, w, hbefore, hnone, (hsame t w hbefore hnone).2 ▸ hf⟩

theorem Watchful.wakeAlls (h : m.Watchful depth) (hsame : m.Undisturbed objects queues)
    (hquiet : ∀ f want, m.Watches queues f want → objects.poll depth f &&& want = 0) :
    (queues.foldl wakeAll { m with objects := objects }).Watchful depth := by
  intro t w hblocked
  obtain ⟨hbefore, hnone⟩ := blocked_wakeAlls.mp hblocked
  constructor
  · intro q hq
    rw [wakeAlls_objects, (hsame t w hbefore hnone).1] at hq
    have hmem := (h t w hbefore).queued q hq
    exact (mem_waiters_wakeAlls fun hwoken => hnone q hwoken hmem).mpr hmem
  · exact (nothingLost_wakeAlls_iff hsame).mpr hquiet t w hblocked

theorem undisturbed_apply (m : Machine) (o : Op) :
    m.Undisturbed (m.objects.apply o).1 (m.objects.apply o).2 := by
  intro t w _ _
  have hepolls := m.objects.apply_epolls o
  cases hw : w.call with
  | poll fds => exact ⟨rfl, rfl⟩
  | epollWait e n =>
      constructor
      · rw [Call.queues, Call.queues, hepolls]
      · rw [Call.watched, Call.watched, hepolls]

theorem Watchful.undisturbed_setEpoll (h : m.Watchful depth) (e : Nat)
    (interests : List Interest) :
    m.Undisturbed (m.objects.setEpoll e interests) [.epoll e] := by
  intro t w hblocked hnone
  cases hw : w.call with
  | poll fds => exact ⟨rfl, rfl⟩
  | epollWait e' n =>
      have hsame : (m.objects.setEpoll e interests).epolls e' = m.objects.epolls e' := by
        apply Function.update_of_ne
        rintro rfl
        have hmem := (h t w hblocked).queued (.epoll e') (by rw [hw]; exact List.mem_cons_self)
        exact hnone _ List.mem_cons_self hmem
      constructor
      · rw [Call.queues, Call.queues, hsame]
      · rw [Call.watched, Call.watched, hsame]

/-- An operation leaves a task asleep that should be woken only where it makes ready a
watched instance, or room that is waited for. -/
theorem Watchful.quiet_apply_iff (h : m.Watchful depth) (o : Op) :
    (∀ f want, m.Watches (m.objects.apply o).2 f want →
      (m.objects.apply o).1.poll depth f &&& want = 0) ↔
    m.NoNested depth (m.objects.apply o).1 (m.objects.apply o).2 ∧ m.NoRoom o := by
  constructor
  · intro hquiet
    refine ⟨fun e want => hquiet (.epoll e) want, fun i want hmakes hwatches => ?_⟩
    have hzero := hquiet (.tty i) want hwatches
    rw [Objects.poll, Tty.poll, Objects.room_apply hmakes, or_and_eq_zero, or_and_eq_zero]
      at hzero
    exact hzero.1.2
  · rintro ⟨hnested, hroom⟩ f want hwatches
    cases hplain : f.isPlain with
    | true =>
        obtain ⟨t, w, hblocked, hnone, hf⟩ := hwatches
        have hsettled := h t w hblocked
        apply m.objects.tells_apply o depth f want hplain _ _ (hsettled.quiet f want hf)
        · exact fun hqueue => hnone _ hqueue (hsettled.mem_of_watched hf)
        · rintro i rfl hmakes
          exact hroom i want hmakes ⟨t, w, hblocked, hnone, hf⟩
    | false =>
        cases f with
        | epoll e => exact hnested e want hwatches
        | _ => cases hplain

theorem poll_setEpoll (o : Objects) (e : Nat) (interests : List Interest) {f : File}
    (hplain : f.isPlain = true) : (o.setEpoll e interests).poll depth f = o.poll depth f := by
  cases f with
  | epoll e' => cases hplain
  | _ => simp [Objects.setEpoll, Objects.poll]

theorem Watchful.quiet_setEpoll_iff (h : m.Watchful depth) (e : Nat) (interests : List Interest) :
    (∀ f want, m.Watches [.epoll e] f want →
      (m.objects.setEpoll e interests).poll depth f &&& want = 0) ↔
    m.NoNested depth (m.objects.setEpoll e interests) [.epoll e] := by
  refine ⟨fun hquiet e' want => hquiet (.epoll e') want, fun hnested f want hwatches => ?_⟩
  cases hplain : f.isPlain with
  | true =>
      obtain ⟨t, w, hblocked, -, hf⟩ := hwatches
      rw [poll_setEpoll _ _ _ hplain]
      exact (h t w hblocked).quiet f want hf
  | false =>
      cases f with
      | epoll e' => exact hnested e' want hwatches
      | _ => cases hplain

/-! ### Steps -/

theorem Watchful.step (h : m.Watchful depth) (hstep : m.step depth a = some m')
    (hmeets : m.Meets depth a) : m'.Watchful depth := by
  cases a with
  | call t c wait =>
      rw [Machine.step] at hstep
      split at hstep
      case isTrue =>
        cases hstep
        exact h.enter t c wait
      case isFalse => cases hstep
  | select t table n rs ws es wait =>
      rw [Machine.step] at hstep
      split at hstep
      case isTrue =>
        cases hstep
        exact h.enter t _ wait
      case isFalse => cases hstep
  | resume t =>
      rw [Machine.step] at hstep
      split at hstep
      case h_1 c queues htask =>
        cases c with
        | poll fds =>
            cases hstep
            exact h.round (hmeets.2 fds queues htask)
        | epollWait e n =>
            cases hstep
            exact h.clear_enter t queues _ true
      case h_2 => cases hstep
  | giveUp t =>
      obtain ⟨w, -, rfl⟩ := Option.map_eq_some_iff.mp hstep
      exact h.leave t w.queues
  | ctl e c =>
      rw [Machine.step] at hstep
      split at hstep
      case h_1 =>
        cases hstep
        exact h
      case h_2 interests hctl =>
        cases hstep
        have hquiet := (h.quiet_setEpoll_iff e interests).mpr (hmeets.2 interests hctl)
        have hkept := h.wakeAlls (h.undisturbed_setEpoll e interests) hquiet
        exact hkept
  | op o =>
      cases hstep
      exact h.wakeAlls (m.undisturbed_apply o) ((h.quiet_apply_iff o).mpr hmeets.2)

/-- But for wakeups for nothing, whose loss comes later, a step that does not meet the
condition goes wrong. -/
theorem Watchful.meets_iff (h : m.Watchful depth) (hstep : m.step depth a = some m')
    (hother : ∀ t, a ≠ .resume t) :
    m.Meets depth a ↔ m.DisablesReported depth a m' ∧ m'.NothingLost depth := by
  constructor
  · intro hmeets
    exact ⟨(disablesReported_iff hstep).mpr hmeets.1, (h.step hstep hmeets).nothingLost⟩
  · rintro ⟨hdisables, hlost⟩
    refine ⟨(disablesReported_iff hstep).mp hdisables, ?_⟩
    cases a with
    | resume t => exact absurd rfl (hother t)
    | ctl e c =>
        intro interests hctl
        rw [Machine.step, hctl] at hstep
        cases hstep
        have hquiet := (nothingLost_wakeAlls_iff (h.undisturbed_setEpoll e interests)).mp hlost
        exact (h.quiet_setEpoll_iff e interests).mp hquiet
    | op o =>
        cases hstep
        have hquiet := (nothingLost_wakeAlls_iff (m.undisturbed_apply o)).mp hlost
        exact (h.quiet_apply_iff o).mp hquiet
    | _ => trivial

/-! ### A machine with counters -/

/-- No task waits, and no event has come. -/
def idle : Machine where
  objects :=
    { eventfds := fun _ => ⟨0, false⟩
      pipes := fun _ => ⟨[], 1, 1⟩
      ttys := fun _ => ⟨⟨0, 0, 0, fun _ => 0⟩, [], [], [], false, false, 1, none⟩
      epolls := fun _ => [] }
  waiters := fun _ => []
  tasks := fun _ => none

/-- A one-shot interest in a counter. -/
def onceReady (fd : Nat) : Interest :=
  ⟨fd, fd, .eventfd fd, POLLIN ||| EPOLLONESHOT, BitVec.ofNat 64 fd⟩

/-- A counter counts. -/
def counted (fd : Nat) : Action := .op (.eventfdWrite fd 8 1)

theorem eachOneShot_singleton {P : Nat → Nat → Nat → Interest → Prop} {e n : Nat} {i : Interest}
    (hlooks : m.looks a = some (e, n)) (he : m.objects.epolls e = [i]) (hP : P e n 0 i) :
    m.EachOneShot a P := by
  intro e' n' hlooks' k j hk _ _
  obtain ⟨rfl, rfl⟩ := Prod.mk.inj (Option.some.inj (hlooks.symm.trans hlooks'))
  rw [he] at hk
  cases k with
  | zero =>
      cases hk
      exact hP
  | succ k => cases hk

theorem noNested_of_single {objects : Objects} {queues : List Queue}
    (htasks : m.tasks = Function.update (fun _ => none) t (some w))
    (hplain : (w.call.watched m.objects).all (·.1.isPlain) = true) :
    m.NoNested depth objects queues := by
  rintro e want ⟨u, v, ⟨hu, -⟩, -, hf⟩
  rw [htasks] at hu
  by_cases hut : u = t
  · subst hut
    rw [Function.update_self] at hu
    cases hu
    cases List.all_eq_true.mp hplain _ hf
  · rw [Function.update_of_ne hut] at hu
    cases hu

/-! ### Runs -/

/-- In a run whose steps all meet the condition, no readiness is lost, and the one-shot
interests that are disabled are those that are reported. -/
theorem nothing_lost (depth : Nat) {m : Machine} (hm : ∀ t, m.tasks t = none) {as : List Action}
    (h : Along (step depth) (fun s a _ => s.Meets depth a) m as) :
    Along (step depth) (fun s a s' => s'.NothingLost depth ∧ s.DisablesReported depth a s')
      m as := by
  have hstart : m.Watchful depth := by
    rintro t w ⟨htask, -⟩
    rw [hm t] at htask
    cases htask
  refine Along.imp (Watchful depth) ?_ ?_ hstart h
  · exact fun s a s' hs hstep hmeets => hs.step hstep hmeets
  · intro s a s' hs hstep hmeets
    exact ⟨(hs.step hstep hmeets).nothingLost, (disablesReported_iff hstep).mpr hmeets.1⟩

/-- A task waits for a one-shot interest, and the counter counts. -/
theorem nothing_lost_counted :
    Along (step 1) (fun s a s' => s'.NothingLost 1 ∧ s.DisablesReported 1 a s') idle
      [.ctl 0 (.add (onceReady 3)), .call 0 (.epollWait 0 1) true, counted 3, .resume 0] := by
  refine nothing_lost 1 (fun _ => rfl) ?_
  refine .cons rfl ⟨nofun, ?_⟩ <| .cons rfl ⟨?_, trivial⟩ <| .cons rfl ⟨nofun, ?_, nofun⟩ <|
    .cons rfl ⟨?_, nofun⟩ trivial
  · rintro interests - e want ⟨t, w, ⟨htask, -⟩, -⟩
    cases htask
  · exact eachOneShot_singleton rfl rfl (distinguished_singleton Nat.one_pos)
  · exact noNested_of_single rfl rfl
  · exact eachOneShot_singleton rfl rfl (distinguished_singleton Nat.one_pos)

/-- The counter counts while the task waits for it. -/
theorem meets_iff_counted : ∃ m m' : Machine,
    exec (step 1) idle [.ctl 0 (.add (onceReady 3)), .call 0 (.epollWait 0 1) true] = some m ∧
      (∃ w, m.Blocked 0 w) ∧ m.step 1 (counted 3) = some m' ∧
      (m.Meets 1 (counted 3) ↔ m.DisablesReported 1 (counted 3) m' ∧ m'.NothingLost 1) := by
  have hidle : idle.Watchful 1 := fun _ _ h => by cases h.1
  have hadded := hidle.step (a := .ctl 0 (.add (onceReady 3))) rfl
    ⟨nofun, fun interests _ e want ⟨t, w, ⟨htask, _⟩, _⟩ => by cases htask⟩
  have hwaiting := hadded.step (a := .call 0 (.epollWait 0 1) true) rfl
    ⟨eachOneShot_singleton rfl rfl (distinguished_singleton Nat.one_pos), trivial⟩
  exact ⟨_, _, rfl, ⟨_, rfl, rfl⟩, rfl, hwaiting.meets_iff rfl fun _ h => by cases h⟩

/-- A task is woken for an event that another task has taken, and is not woken for the next
one. -/
theorem not_always_woken : ¬∀ (depth : Nat) (m : Machine), (∀ t, m.tasks t = none) → ∀ as,
    Along (step depth) (fun _ _ s' => s'.NothingLost depth) m as := by
  intro h
  have hrun := h 0 idle (fun _ => rfl)
    [.call 0 (.poll [⟨3, 1, some (.eventfd 3)⟩]) true, counted 3, .op (.eventfdRead 3 8),
      .resume 0, counted 3]
  have hlost := (((((hrun _ rfl).2 _ rfl).2 _ rfl).2 _ rfl).2 _ rfl).1
  have hquiet := hlost 0 ⟨.poll [⟨3, 1, some (.eventfd 3)⟩], [.eventfd 3], false⟩ ⟨rfl, rfl⟩
    (.eventfd 3) (POLLIN ||| POLLERR ||| POLLHUP) (by decide)
  revert hquiet
  decide

theorem not_always_reported : ¬∀ (depth : Nat) (m : Machine), (∀ t, m.tasks t = none) → ∀ as,
    Along (step depth) (fun s a s' => s.DisablesReported depth a s') m as := by
  intro h
  have hrun := h 0 idle (fun _ => rfl)
    [.ctl 0 (.add (onceReady 3)), .ctl 0 (.add (onceReady 4)), counted 3, counted 4,
      .call 0 (.epollWait 0 1) true]
  have hcut := (((((hrun _ rfl).2 _ rfl).2 _ rfl).2 _ rfl).2 _ rfl).1
  obtain ⟨i', hi', hiff⟩ := hcut 0 1 rfl 1 _ rfl (by decide) (by decide)
  cases hi'
  revert hiff
  decide

/-- There are runs in which readiness is lost, and runs in which an interest that is not
reported is disabled. -/
theorem not_always_nothing_lost :
    (¬∀ (depth : Nat) (m : Machine), (∀ t, m.tasks t = none) → ∀ as,
      Along (step depth) (fun _ _ s' => s'.NothingLost depth) m as) ∧
    ¬∀ (depth : Nat) (m : Machine), (∀ t, m.tasks t = none) → ∀ as,
      Along (step depth) (fun s a s' => s.DisablesReported depth a s') m as :=
  ⟨not_always_woken, not_always_reported⟩

end Machine

end MindOS.Kernel.Poll
