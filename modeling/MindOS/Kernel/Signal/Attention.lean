import MindOS.Kernel.Signal.Threads
import MindOS.Transition

/-!
# Signals and sleeping threads

What is asked of the signals of a process, and what the statements of its threads do to those
that are asleep. Sending a signal leaves a thread awake that takes it; a thread that falls
asleep, blocks the signal or exits can be the last such.
-/

namespace MindOS.Kernel.Signal

open Bits Sched Transition

namespace Threads

variable {T : Type}

/-- A thread is asleep in an interruptible wait: it is blocked, and past its last look for
signals. -/
def Asleep (m : Threads T) (t : T) : Prop :=
  (m.point t = .declared ∨ m.point t = .away) ∧ m.state t = .blocked ∧ m.interruptible t = true

/-- A thread that would take the signal at a place of the masks. -/
def Takes (m : Threads T) (t : T) (n : Nat) : Prop := t ∈ m.threads ∧ ¬Has (m.mask t) n

/-- No signal of the process is slept through. -/
def Attended (m : Threads T) : Prop :=
  ∀ n, Has m.sharedPending n → (∃ t, m.Takes t n) → ∃ t, m.Takes t n ∧ ¬m.Asleep t

/-- The signal of the process that a step takes. -/
def taken (m : Threads T) (a : Act T) : Option Int :=
  m.current.bind fun me =>
    match a with
    | .dequeue => (m.dequeue me).bind fun x => if x.2 then some x.1 else none
    | .takeWanted want => (m.wanted me want).bind fun x => if x.2 then some x.1 else none
    | _ => none

/-- The signals that a step discards: SIGCONT or a stop signal is sent, or they are ignored. -/
def Discards (a : Act T) (n : Nat) : Prop :=
  match a with
  | .send signo => Has (cancelled signo) n
  | .sigaction signo handler => handler = SIG_IGN ∧ Has (sigBit signo) n
  | _ => False

/-- Where a signal stands in the masks. -/
def place (signo : Int) : Nat := (signo - 1).toNat

/-- A signal that is sent is pending, unless it is ignored; it stays so until it is taken,
once, or discarded; and it is not slept through. -/
structure Good (m : Threads T) (a : Act T) (m' : Threads T) : Prop where
  sent : ∀ signo, a = .send signo → 1 ≤ signo → signo ≤ 64 → m.zombie = false →
    ignored (m.handler signo) signo = false → Has m'.sharedPending (place signo)
  kept : ∀ n, Has m.sharedPending n → Has m'.sharedPending n ∨
    (∃ signo, m.taken a = some signo ∧ place signo = n) ∨ Discards a n
  taken : ∀ signo, m.taken a = some signo →
    Has m.sharedPending (place signo) ∧ ¬Has m'.sharedPending (place signo)
  attended : m'.Attended

/-- Another thread takes the signal, and is awake. -/
def HandsOver (m : Threads T) (me : T) (n : Nat) : Prop :=
  ∃ t, t ≠ me ∧ m.Takes t n ∧ ¬m.Asleep t

/-- A thread that falls asleep while a signal is pending that it takes, or exits or blocks the
signal while others take it, is not the last of these that is awake. -/
def Sound (m : Threads T) (a : Act T) : Prop :=
  ∀ me, m.current = some me → ∀ n, Has m.sharedPending n → m.Takes me n →
    match a with
    | .declare => m.point me = .checked true → m.HandsOver me n
    | .exit => (∃ t, t ≠ me ∧ m.Takes t n) → m.HandsOver me n
    | .setMask w =>
        Has (w &&& ~~~KILL_MASK) n → (∃ t, t ≠ me ∧ m.Takes t n) → m.HandsOver me n
    | _ => True

/-- The thread that runs is one of the process. -/
structure Inv (m : Threads T) : Prop where
  attended : m.Attended
  current : ∀ me, m.current = some me → me ∈ m.threads

/-- A process with one thread. -/
def born [DecidableEq T] (t : T) (mask : BitVec 64) : Threads T where
  threads := [t]
  zombie := false
  sharedPending := 0
  handler := fun _ => SIG_DFL
  pending := fun _ => 0
  mask := fun _ => mask
  state := fun _ => .running
  interruptible := fun _ => false
  point := fun _ => .run
  current := some t

/-! ### Signals as places -/

theorem has_sigBit {signo : Int} {n : Nat} (h : 1 ≤ signo ∧ signo ≤ 64) :
    Has (sigBit signo) n ↔ n = place signo := by
  have hplace : place signo < 64 := by
    unfold place
    omega
  exact has_bit.trans (and_iff_left hplace)

theorem and_sigBit_eq_zero {w : BitVec 64} {signo : Int} :
    w &&& sigBit signo = 0 ↔ ¬Has w (place signo) := not_not.symm

theorem place_succ (n : Nat) : place ((n : Int) + 1) = n := by
  unfold place
  omega

theorem has_choose {w : BitVec 64} (h : w ≠ 0) :
    Has w (place (choose w)) ∧ 1 ≤ choose w ∧ choose w ≤ 64 := by
  have hlowest : ∀ {v : BitVec 64}, v ≠ 0 → (∀ n, Has v n → Has w n) →
      Has w (place ((trailingZeros v : Int) + 1)) ∧ 1 ≤ (trailingZeros v : Int) + 1 ∧
        (trailingZeros v : Int) + 1 ≤ 64 := fun {v} hv hsub => by
    have hhas := has_trailingZeros hv
    have hlt := hhas.lt
    rw [place_succ]
    exact ⟨hsub _ hhas, by omega, by omega⟩
  unfold choose
  split
  case isTrue hkill => exact ⟨hkill, by decide, by decide⟩
  case isFalse =>
    split
    case isTrue hsync => exact hlowest hsync fun n hn => (has_and.mp hn).1
    case isFalse => exact hlowest h fun _ hn => hn

/-! ### What the statements do to those asleep -/

section Statements

variable {m m' : Threads T} {me t : T}

theorem Attended.mono (h : m.Attended) (hthreads : m'.threads = m.threads)
    (hmask : m'.mask = m.mask) (hshared : ∀ n, Has m'.sharedPending n → Has m.sharedPending n)
    (hasleep : ∀ t ∈ m.threads, m'.Asleep t → m.Asleep t) : m'.Attended := by
  intro n hn htakes
  rw [show m'.Takes = m.Takes by unfold Takes; rw [hthreads, hmask]] at htakes ⊢
  obtain ⟨t, ht, hawake⟩ := h n (hshared n hn) htakes
  exact ⟨t, ht, fun hslept => hawake (hasleep t ht.1 hslept)⟩

/-- Neither the threads nor their masks change, no signal comes, and no thread falls asleep or
gets the CPU. -/
structure Calm (m m' : Threads T) : Prop where
  current : ∀ me, m'.current = some me → m.current = some me
  threads : m'.threads = m.threads
  mask : m'.mask = m.mask
  shared : ∀ n, Has m'.sharedPending n → Has m.sharedPending n
  asleep : ∀ t, m'.Asleep t → m.Asleep t

theorem Calm.refl (m : Threads T) : m.Calm m :=
  ⟨fun _ hu => hu, rfl, rfl, fun _ hn => hn, fun _ ht => ht⟩

theorem Calm.trans {m'' : Threads T} (h : m.Calm m') (h' : m'.Calm m'') : m.Calm m'' :=
  ⟨fun u hu => h.current u (h'.current u hu), h'.threads.trans h.threads,
    h'.mask.trans h.mask, fun n hn => h.shared n (h'.shared n hn),
    fun t ht => h.asleep t (h'.asleep t ht)⟩

theorem Calm.attended (h : m.Calm m') (hm : m.Attended) : m'.Attended :=
  hm.mono h.threads h.mask h.shared fun t _ => h.asleep t

variable [DecidableEq T]

theorem Calm.setState {st : TaskState} (hst : st ≠ .blocked) : m.Calm (m.setState t st) := by
  refine ⟨fun _ hu => hu, rfl, rfl, fun _ hn => hn, fun u hu => ?_⟩
  by_cases hut : u = t
  · have hstate : (m.setState t st).state u = st := by rw [hut]; exact Function.update_self ..
    exact absurd (hstate.symm.trans hu.2.1) hst
  · have hstate : (m.setState t st).state u = m.state u := Function.update_of_ne hut ..
    rw [Asleep, hstate] at hu
    exact hu

theorem Calm.own {n : Threads T} {p : Point} (hcurrent : n.current = m.current)
    (hthreads : n.threads = m.threads) (hmask : n.mask = m.mask)
    (hshared : n.sharedPending = m.sharedPending)
    (hpoint : n.point = m.point)
    (hother : ∀ t, t ≠ me → n.state t = m.state t ∧ n.interruptible t = m.interruptible t)
    (hdeclared : p ≠ .declared) (haway : p ≠ .away) : m.Calm (n.goTo me p) := by
  refine ⟨fun u hu => hcurrent.symm.trans hu, hthreads, hmask, fun k hk => ?_, fun t ht => ?_⟩
  · rw [← hshared]
    exact hk
  · by_cases htme : t = me
    · have hp : (n.goTo me p).point t = p := by rw [htme]; exact Function.update_self ..
      obtain ⟨ht | ht, -⟩ := ht
      · exact absurd (hp.symm.trans ht) hdeclared
      · exact absurd (hp.symm.trans ht) haway
    · obtain ⟨hpt, hstate, hinterruptible⟩ := ht
      have hsame : (n.goTo me p).point t = m.point t :=
        (Function.update_of_ne htme ..).trans (congrFun hpoint t)
      rw [hsame] at hpt
      exact ⟨hpt, (hother t htme).1.symm.trans hstate, (hother t htme).2.symm.trans hinterruptible⟩

theorem Calm.goTo {p : Point} (hdeclared : p ≠ .declared) (haway : p ≠ .away) :
    m.Calm (m.goTo me p) := .own rfl rfl rfl rfl rfl (fun _ _ => ⟨rfl, rfl⟩) hdeclared haway

theorem Calm.setState_goTo {st : TaskState} {p : Point} (hdeclared : p ≠ .declared)
    (haway : p ≠ .away) : m.Calm ((m.setState me st).goTo me p) :=
  .own rfl rfl rfl rfl rfl (fun _ ht => ⟨Function.update_of_ne ht .., rfl⟩) hdeclared haway

theorem Calm.setInterruptible_goTo {i : Bool} {p : Point} (hdeclared : p ≠ .declared)
    (haway : p ≠ .away) : m.Calm ((m.setInterruptible me i).goTo me p) :=
  .own rfl rfl rfl rfl rfl (fun _ ht => ⟨rfl, Function.update_of_ne ht ..⟩) hdeclared haway

theorem Calm.wake (m : Threads T) (t : T) : m.Calm (m.wake t) := by
  unfold Threads.wake
  split
  case isTrue => exact .refl m
  case isFalse => exact .setState (by decide)

theorem Calm.interruptIfSleeping (m : Threads T) (t : T) : m.Calm (m.interruptIfSleeping t) := by
  unfold Threads.interruptIfSleeping
  split
  case isTrue => exact .wake m t
  case isFalse => exact .refl m

theorem not_asleep_interrupt (m : Threads T) (t : T) : ¬(m.interruptIfSleeping t).Asleep t := by
  unfold Threads.interruptIfSleeping
  split
  case isTrue hsleeps =>
    have hwake : m.wake t = m.setState t .runnable := if_neg (by rw [hsleeps.1]; decide)
    rw [hwake]
    intro hslept
    have hstate : (m.setState t .runnable).state t = .runnable := Function.update_self ..
    exact absurd (hstate.symm.trans hslept.2.1) (by decide)
  case isFalse hsleeps => exact fun hslept => hsleeps hslept.2

theorem Calm.interruptEach (ts : List T) (m : Threads T) :
    m.Calm (ts.foldl Threads.interruptIfSleeping m) := by
  induction ts generalizing m with
  | nil => exact .refl m
  | cons t ts ih => exact (Calm.interruptIfSleeping m t).trans (ih _)

omit [DecidableEq T] in
theorem Calm.withPending {pending : T → BitVec 64} : m.Calm { m with pending := pending } :=
  ⟨fun _ hu => hu, rfl, rfl, fun _ hn => hn, fun _ ht => ht⟩

theorem Calm.postSignal (m : Threads T) (t : T) (signo : Int) : m.Calm (m.postSignal t signo) :=
  Calm.withPending.trans (Calm.interruptIfSleeping _ t)

omit [DecidableEq T] in
theorem Calm.withShared {w : BitVec 64} :
    m.Calm { m with sharedPending := m.sharedPending &&& ~~~w } :=
  ⟨fun _ hu => hu, rfl, rfl, fun _ hn => (has_and_not.mp hn).1, fun _ ht => ht⟩

theorem Calm.sigaction (m : Threads T) (signo : Int) (handler : Nat) :
    m.Calm (m.sigaction signo handler) := by
  unfold Threads.sigaction
  dsimp only
  split
  case isTrue =>
    exact ⟨fun _ hu => hu, rfl, rfl, fun _ hn => (has_and_not.mp hn).1, fun _ ht => ht⟩
  case isFalse => exact ⟨fun _ hu => hu, rfl, rfl, fun _ hn => hn, fun _ ht => ht⟩

theorem Calm.take (m : Threads T) (t : T) (x : Int × Bool) : m.Calm (m.take t x) := by
  obtain ⟨signo, shared⟩ := x
  cases shared with
  | true => exact .withShared
  | false => exact .withPending

/-! ### Sending -/

omit [DecidableEq T] in
theorem takes_target {signo : Int} (h : ∃ t, m.Takes t (place signo)) :
    ∃ t, m.target signo = some t ∧ m.Takes t (place signo) := by
  obtain ⟨t, ht, hmask⟩ := h
  have hsome : (m.threads.find? fun t => m.mask t &&& sigBit signo = 0).isSome :=
    List.find?_isSome.mpr ⟨t, ht, decide_eq_true (and_sigBit_eq_zero.mpr hmask)⟩
  obtain ⟨u, hu⟩ := Option.isSome_iff_exists.mp hsome
  have hfree := List.find?_some hu
  rw [decide_eq_true_eq, and_sigBit_eq_zero] at hfree
  refine ⟨u, ?_, List.mem_of_find?_eq_some hu, hfree⟩
  rw [target, hu]
  rfl

/-- The records of the threads when a signal has become pending. -/
def raised (m : Threads T) (signo : Int) : Threads T :=
  match m.target signo with
  | some t =>
      let m := m.interruptIfSleeping t
      if signo = SIGKILL then m.threads.foldl interruptIfSleeping m else m
  | none => m

theorem Calm.raised (m : Threads T) (signo : Int) : m.Calm (m.raised signo) := by
  unfold Threads.raised
  split
  next t _ =>
    dsimp only
    split
    case isTrue => exact (Calm.interruptIfSleeping m t).trans (.interruptEach _ _)
    case isFalse => exact .interruptIfSleeping m t
  next => exact .refl m

theorem not_asleep_raised {signo : Int} (h : m.target signo = some t) :
    ¬(m.raised signo).Asleep t := by
  rw [Threads.raised, h]
  dsimp only
  split
  case isTrue =>
    exact fun hslept => not_asleep_interrupt m t ((Calm.interruptEach _ _).asleep t hslept)
  case isFalse => exact not_asleep_interrupt m t

/-- What is left of the signals when one that it cancels is gone. -/
def cancel (m : Threads T) (signo : Int) : Threads T :=
  { m with sharedPending := m.sharedPending &&& ~~~cancelled signo }

def addShared (m : Threads T) (signo : Int) : Threads T :=
  { m with sharedPending := m.sharedPending ||| sigBit signo }

theorem send_eq (m : Threads T) (signo : Int) :
    m.send signo =
      if signo ≤ 0 ∨ 64 < signo ∨ m.zombie = true then m
      else if ignored (m.handler signo) signo then m.cancel signo
      else ((m.cancel signo).addShared signo).raised signo := by
  rw [send]
  by_cases hrange : signo ≤ 0 ∨ 64 < signo
  · rw [if_pos hrange, if_pos (by rw [← or_assoc]; exact .inl hrange)]
  · by_cases hzombie : m.zombie = true
    · rw [if_neg hrange, if_pos hzombie, if_pos (.inr (.inr hzombie))]
    · have hneither : ¬(signo ≤ 0 ∨ 64 < signo ∨ m.zombie = true) := by
        rw [← or_assoc]
        exact not_or.mpr ⟨hrange, hzombie⟩
      rw [if_neg hrange, if_neg hzombie, if_neg hneither]
      rfl

theorem send_threads (m : Threads T) (signo : Int) :
    (m.send signo).threads = m.threads ∧
      ∀ u, (m.send signo).current = some u → m.current = some u := by
  rw [send_eq]
  split
  case isTrue => exact ⟨rfl, fun _ hu => hu⟩
  case isFalse =>
    split
    case isTrue => exact ⟨rfl, fun _ hu => hu⟩
    case isFalse =>
      have hcalm := Calm.raised ((m.cancel signo).addShared signo) signo
      exact ⟨hcalm.threads, hcalm.current⟩

theorem Attended.send (h : m.Attended) (signo : Int) : (m.send signo).Attended := by
  rw [send_eq]
  split
  case isTrue => exact h
  case isFalse hrange =>
    have hcancel : (m.cancel signo).Attended := Calm.withShared.attended h
    split
    case isTrue => exact hcancel
    case isFalse =>
      intro n hn htakes
      have hcalm := Calm.raised ((m.cancel signo).addShared signo) signo
      have hsame : (((m.cancel signo).addShared signo).raised signo).Takes =
          (m.cancel signo).Takes := by
        unfold Takes
        rw [hcalm.threads, hcalm.mask]
        rfl
      rw [hsame] at htakes ⊢
      obtain hold | hnew := has_or.mp (hcalm.shared n hn)
      · obtain ⟨t, ht, hawake⟩ := hcancel n hold htakes
        exact ⟨t, ht, fun hslept => hawake (hcalm.asleep t hslept)⟩
      · have hplace : n = place signo := (has_sigBit (by omega)).mp hnew
        rw [hplace] at htakes ⊢
        obtain ⟨t, htarget, ht⟩ := takes_target (m := (m.cancel signo).addShared signo) htakes
        exact ⟨t, ht, not_asleep_raised htarget⟩

/-! ### Steps that take a thread away -/

theorem attended_declare_iff (h : m.Attended) {i : Bool} :
    (((m.setState me .blocked).setInterruptible me i).goTo me .declared).Attended ↔
      ∀ n, Has m.sharedPending n → m.Takes me n → i = true → m.HandsOver me n := by
  have hother : ∀ t, t ≠ me →
      ((((m.setState me .blocked).setInterruptible me i).goTo me .declared).Asleep t ↔
        m.Asleep t) := fun t ht => by
    simp [Asleep, goTo, setInterruptible, setState, Function.update_of_ne ht]
  have hme : (((m.setState me .blocked).setInterruptible me i).goTo me .declared).Asleep me ↔
      i = true := by
    simp [Asleep, goTo, setInterruptible, setState]
  constructor
  · intro hnew n hn htakes hi
    obtain ⟨t, ht, hawake⟩ := hnew n hn ⟨me, htakes⟩
    have htme : t ≠ me := fun htme => hawake (by rw [htme]; exact hme.mpr hi)
    exact ⟨t, htme, ht, fun hslept => hawake ((hother t htme).mpr hslept)⟩
  · intro hover n hn htakes
    obtain ⟨t, ht, hawake⟩ := h n hn htakes
    by_cases htme : t = me
    · by_cases hi : i = true
      · obtain ⟨u, hume, hu, huawake⟩ := hover n hn (htme ▸ ht) hi
        exact ⟨u, hu, fun hslept => huawake ((hother u hume).mp hslept)⟩
      · refine ⟨t, ht, fun hslept => hi ?_⟩
        rw [htme] at hslept
        exact hme.mp hslept
    · exact ⟨t, ht, fun hslept => hawake ((hother t htme).mp hslept)⟩

theorem attended_exit_iff (h : m.Attended) :
    (m.exit me).Attended ↔ ∀ n, Has m.sharedPending n → m.Takes me n →
      (∃ t, t ≠ me ∧ m.Takes t n) → m.HandsOver me n := by
  have htakes : ∀ t n, (m.exit me).Takes t n ↔ t ≠ me ∧ m.Takes t n := fun t n => by
    simp only [Takes, Threads.exit, setState, List.mem_filter, decide_eq_true_eq]
    exact ⟨fun ht => ⟨ht.1.2, ht.1.1, ht.2⟩, fun ht => ⟨⟨ht.2.1, ht.1⟩, ht.2.2⟩⟩
  have hother : ∀ t, t ≠ me → ((m.exit me).Asleep t ↔ m.Asleep t) := fun t ht => by
    simp [Asleep, Threads.exit, setState, Function.update_of_ne ht]
  constructor
  · rintro hnew n hn - ⟨t, ht⟩
    obtain ⟨u, hu, hawake⟩ := hnew n hn ⟨t, (htakes t n).mpr ht⟩
    obtain ⟨hume, hu⟩ := (htakes u n).mp hu
    exact ⟨u, hume, hu, fun hslept => hawake ((hother u hume).mpr hslept)⟩
  · rintro hover n hn ⟨t, ht⟩
    have ht := (htakes t n).mp ht
    have hawake : m.HandsOver me n := by
      obtain ⟨u, hu, huawake⟩ := h n hn ⟨t, ht.2⟩
      by_cases hume : u = me
      · exact hover n hn (hume ▸ hu) ⟨t, ht⟩
      · exact ⟨u, hume, hu, huawake⟩
    obtain ⟨u, hume, hu, huawake⟩ := hawake
    exact ⟨u, (htakes u n).mpr ⟨hume, hu⟩, fun hslept => huawake ((hother u hume).mp hslept)⟩

theorem attended_setMask_iff (h : m.Attended) (hthread : me ∈ m.threads)
    (hrun : m.point me = .run) (w : BitVec 64) :
    (m.setMask me w).Attended ↔ ∀ n, Has m.sharedPending n → m.Takes me n → Has w n →
      (∃ t, t ≠ me ∧ m.Takes t n) → m.HandsOver me n := by
  have htakes : ∀ t n, t ≠ me → ((m.setMask me w).Takes t n ↔ m.Takes t n) := fun t n ht => by
    simp [Takes, Threads.setMask, Function.update_of_ne ht]
  have hme : ∀ n, (m.setMask me w).Takes me n ↔ ¬Has w n := fun n => by
    simp [Takes, Threads.setMask, hthread]
  have hawake : ¬m.Asleep me := by
    simp [Asleep, hrun]
  constructor
  · rintro hnew n hn - hblocks ⟨t, ht⟩
    obtain ⟨u, hu, huawake⟩ := hnew n hn ⟨t, (htakes t n ht.1).mpr ht.2⟩
    have hume : u ≠ me := fun hume => (hme n).mp (hume ▸ hu) hblocks
    exact ⟨u, hume, (htakes u n hume).mp hu, huawake⟩
  · rintro hover n hn ⟨t, ht⟩
    by_cases hblocks : Has w n
    · have htme : t ≠ me := fun htme => (hme n).mp (htme ▸ ht) hblocks
      have ht := (htakes t n htme).mp ht
      have hover : m.HandsOver me n := by
        obtain ⟨u, hu, huawake⟩ := h n hn ⟨t, ht⟩
        by_cases hume : u = me
        · exact hover n hn (hume ▸ hu) hblocks ⟨t, htme, ht⟩
        · exact ⟨u, hume, hu, huawake⟩
      obtain ⟨u, hume, hu, huawake⟩ := hover
      exact ⟨u, (htakes u n hume).mpr hu, huawake⟩
    · exact ⟨me, (hme n).mpr hblocks, hawake⟩

theorem Attended.block (h : m.Attended) (hnone : m.pendingUnblocked me = 0) :
    (m.goTo me .declared).Attended := by
  intro n hn htakes
  obtain ⟨t, ht, hawake⟩ := h n hn htakes
  have htme : t ≠ me := fun htme => by
    have hpending : Has (m.pendingUnblocked me) n :=
      has_and_not.mpr ⟨has_or.mpr (.inr hn), htme ▸ ht.2⟩
    rw [hnone] at hpending
    exact not_has_zero hpending
  refine ⟨t, ht, fun hslept => hawake ?_⟩
  have hpoint : (m.goTo me .declared).point t = m.point t := Function.update_of_ne htme ..
  rwa [Asleep, hpoint] at hslept

theorem Attended.clone (h : m.Attended) (ht : t ∉ m.threads) : (m.clone me t).Attended := by
  have hother : ∀ u, u ≠ t → ((m.clone me t).Asleep u ↔ m.Asleep u) ∧
      (m.clone me t).mask u = m.mask u := fun u hu => by
    simp [Asleep, Threads.clone, goTo, setState, setPending, Threads.setMask,
      Function.update_of_ne hu]
  have hself : ¬(m.clone me t).Asleep t := by
    simp [Asleep, Threads.clone, goTo]
  rintro n hn ⟨u, hu, hmask⟩
  by_cases hut : u = t
  · exact ⟨u, ⟨hu, hmask⟩, by rw [hut]; exact hself⟩
  · have hmem : u ∈ m.threads := by
      obtain hu | hu := List.mem_append.mp hu
      · exact hu
      · exact absurd (List.mem_singleton.mp hu) hut
    rw [(hother u hut).2] at hmask
    obtain ⟨v, hv, hawake⟩ := h n hn ⟨u, hmem, hmask⟩
    have hvt : v ≠ t := fun hvt => ht (hvt ▸ hv.1)
    refine ⟨v, ⟨List.mem_append_left _ hv.1, ?_⟩, fun hslept => hawake ((hother v hvt).1.mp hslept)⟩
    rw [(hother v hvt).2]
    exact hv.2

@[simp] theorem wake_shared (m : Threads T) (t : T) :
    (m.wake t).sharedPending = m.sharedPending := by
  unfold Threads.wake
  split <;> rfl

@[simp] theorem interrupt_shared (m : Threads T) (t : T) :
    (m.interruptIfSleeping t).sharedPending = m.sharedPending := by
  unfold Threads.interruptIfSleeping
  split
  case isTrue => exact m.wake_shared t
  case isFalse => rfl

@[simp] theorem interruptEach_shared (ts : List T) (m : Threads T) :
    (ts.foldl interruptIfSleeping m).sharedPending = m.sharedPending := by
  induction ts generalizing m with
  | nil => rfl
  | cons t ts ih => rw [List.foldl_cons, ih, interrupt_shared]

@[simp] theorem raised_shared (m : Threads T) (signo : Int) :
    (m.raised signo).sharedPending = m.sharedPending := by
  unfold Threads.raised
  split
  next t _ =>
    dsimp only
    split
    case isTrue => rw [interruptEach_shared, interrupt_shared]
    case isFalse => exact interrupt_shared m t
  next => rfl

@[simp] theorem postSignal_shared (m : Threads T) (t : T) (signo : Int) :
    (m.postSignal t signo).sharedPending = m.sharedPending := interrupt_shared _ t

end Statements

end Threads

end MindOS.Kernel.Signal
