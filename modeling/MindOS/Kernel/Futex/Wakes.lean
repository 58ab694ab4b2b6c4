import MindOS.Kernel.Futex.Futexes

/-!
# The waiters of a word

## Which word a thread waits on

Beside the kernel's list stands what the calls themselves say: the word on which each thread
waits, which a requeue changes, and whether a wake has counted it. The list agrees with that as
long as the frame of a word that is waited on without the private flag is the same, and such
words lie apart.
-/

namespace MindOS.Kernel.Futex

open Mm Sched Firsts
open Tmpfs (pageSize)

variable {T : Type}

/-- The futexes and what the calls so far say. -/
structure Watched (T : Type) where
  futexes : Futexes T
  word : T → Word
  counted : T → Bool

namespace Watched

section

variable [DecidableEq T]

/-- What the next step adds to the record, if a thread runs. -/
def record (s : Watched T) : Act T → Option T → Watched T
  | .wait call _, some t =>
      { s with
        word := Function.update s.word t ⟨s.futexes.space t, call.uaddr.toNat⟩
        counted := Function.update s.counted t false }
  | .resume, some t => { s with counted := Function.update s.counted t false }
  | .call op isPrivate picks, some t =>
      let r := (s.futexes.futex t op isPrivate picks).2
      { s with
        word := fun u => if u ∈ r.moved then ⟨s.futexes.space t, op.uaddr2.toNat⟩ else s.word u
        counted := fun u => decide (u ∈ r.woken) || s.counted u }
  | _, _ => s

def step (s : Watched T) (a : Act T) : Option (Watched T) :=
  (s.futexes.step a).map fun f => { s.record a s.futexes.current with futexes := f }

end

/-- The thread sleeps in a wait, and no wake has counted it. -/
def Blocked (s : Watched T) (t : T) (call : WaitCall) : Prop :=
  s.futexes.point t = .asleep call ∧ s.counted t = false

/-- The list agrees with the record. -/
structure Inv (s : Watched T) : Prop where
  nodup : (s.futexes.waiters.map Waiter.task).Nodup
  entry : ∀ w ∈ s.futexes.waiters, ∃ call, (s.futexes.point w.task).call = some call ∧
    w.bitset = call.bitset ∧ w.woken = s.counted w.task ∧
      (w.woken = false → Fits s.futexes.mem call.isPrivate (s.word w.task) w.key)
  listed : ∀ t call, (s.futexes.point t).call = some call → ∃ w ∈ s.futexes.waiters, w.task = t
  registered : ∀ t call, s.futexes.point t = .registered call → s.futexes.current = some t
  bitset : ∀ t call, (s.futexes.point t).call = some call → call.bitset ≠ 0
  counted : ∀ t, s.counted t = true →
    (∃ call, s.futexes.point t = .asleep call) ∧ s.futexes.state t ≠ .blocked

variable {s : Watched T} {f : Futexes T} {t u : T} {call : WaitCall}

theorem Inv.congr (h : s.Inv) (hmem : f.mem = s.futexes.mem)
    (hwaiters : f.waiters = s.futexes.waiters) (hpoint : f.point = s.futexes.point)
    (hcurrent : ∀ t call, s.futexes.point t = .registered call → f.current = some t)
    (hstate : ∀ t, f.state t = .blocked → s.futexes.state t = .blocked) :
    Inv { s with futexes := f } where
  nodup := hwaiters ▸ h.nodup
  entry w hw := by
    obtain ⟨call, hcall, hrest⟩ := h.entry w (hwaiters ▸ hw)
    exact ⟨call, hpoint ▸ hcall, hmem.symm ▸ hrest⟩
  listed t call hcall := hwaiters.symm ▸ h.listed t call (hpoint ▸ hcall)
  registered t call hp := hcurrent t call (hpoint ▸ hp)
  bitset t call hcall := h.bitset t call (hpoint ▸ hcall)
  counted t ht :=
    ⟨hpoint.symm ▸ (h.counted t ht).1, fun hb => (h.counted t ht).2 (hstate t hb)⟩

theorem Inv.of_fits (h : s.Inv) {m : Machine}
    (hfits : ∀ t call key, (s.futexes.point t).call = some call → s.counted t = false →
      Fits s.futexes.mem call.isPrivate (s.word t) key → Fits m call.isPrivate (s.word t) key) :
    Inv { s with futexes := { s.futexes with mem := m } } := by
  refine ⟨h.nodup, fun w hw => ?_, h.listed, h.registered, h.bitset, h.counted⟩
  obtain ⟨call, hcall, hbitset, hwoken, hkey⟩ := h.entry w hw
  exact ⟨call, hcall, hbitset, hwoken, fun hnot =>
    hfits _ call _ hcall (hwoken.symm.trans hnot) (hkey hnot)⟩

/-- The memory may change as long as the words that are waited on keep their frames. -/
theorem Inv.of_mem (h : s.Inv) {m : Machine}
    (hframe : ∀ t call, s.Blocked t call → call.isPrivate = false →
      frameOf m (s.word t) = frameOf s.futexes.mem (s.word t))
    (hnone : ∀ t call, s.futexes.point t ≠ .registered call) :
    Inv { s with futexes := { s.futexes with mem := m } } := by
  refine h.of_fits fun t call key hcall hcounted hfits => hfits.of_frame fun hp => ?_
  cases hpoint : s.futexes.point t with
  | user =>
      rw [hpoint] at hcall
      cases hcall
  | registered c => exact absurd hpoint (hnone t c)
  | asleep c =>
      rw [hpoint] at hcall
      cases hcall
      exact hframe t call ⟨hpoint, hcounted⟩ hp

theorem Inv.of_grown (h : s.Inv) {m : Machine} (hgrown : s.futexes.mem.Grown m) :
    Inv { s with futexes := { s.futexes with mem := m } } :=
  h.of_fits fun _ _ _ _ _ hfits => hfits.grown hgrown

/-! ### The list and the threads in a wait -/

theorem Inv.not_listed (h : s.Inv) (hp : s.futexes.point t = .user) :
    t ∉ s.futexes.waiters.map Waiter.task := by
  intro hin
  obtain ⟨w, hw, rfl⟩ := List.mem_map.mp hin
  obtain ⟨call, hcall, -⟩ := h.entry w hw
  rw [hp] at hcall
  cases hcall

/-- As long as the running thread is in user mode, every entry is that of a thread asleep. -/
theorem Inv.asleep (h : s.Inv) (hcurrent : s.futexes.current = some t)
    (hp : s.futexes.point t = .user) (u : T) (call : WaitCall) :
    s.futexes.point u ≠ .registered call := by
  intro hu
  obtain rfl := Option.some.inj (hcurrent.symm.trans (h.registered u call hu))
  rw [hp] at hu
  cases hu

/-- An entry that was not woken is that of a blocked thread. -/
theorem Inv.blocked (h : s.Inv) (hnone : ∀ u call, s.futexes.point u ≠ .registered call)
    {w : Waiter T} (hw : w ∈ s.futexes.waiters) (hwoken : w.woken = false) :
    ∃ call, s.Blocked w.task call ∧ w.bitset = call.bitset ∧
      Fits s.futexes.mem call.isPrivate (s.word w.task) w.key := by
  obtain ⟨call, hcall, hbitset, hcounted, hfits⟩ := h.entry w hw
  cases hp : s.futexes.point w.task with
  | user =>
      rw [hp] at hcall
      cases hcall
  | registered c => exact absurd hp (hnone _ c)
  | asleep c =>
      rw [hp] at hcall
      cases hcall
      exact ⟨call, ⟨hp, hcounted.symm.trans hwoken⟩, hbitset, hfits hwoken⟩

theorem Inv.entry_of_blocked (h : s.Inv) (hb : s.Blocked t call) :
    ∃ w ∈ s.futexes.waiters, w.task = t ∧ w.woken = false ∧ w.bitset = call.bitset ∧
      Fits s.futexes.mem call.isPrivate (s.word t) w.key := by
  have hcall : (s.futexes.point t).call = some call := by rw [hb.1, Point.call]
  obtain ⟨w, hw, rfl⟩ := h.listed t call hcall
  obtain ⟨c, hc, hbitset, hcounted, hfits⟩ := h.entry w hw
  obtain rfl := Option.some.inj (hc.symm.trans hcall)
  have hwoken : w.woken = false := hcounted.trans hb.2
  exact ⟨w, hw, rfl, hwoken, hbitset, hfits hwoken⟩

variable [DecidableEq T]

theorem Inv.registers (h : s.Inv) (hcurrent : s.futexes.current = some t)
    (hp : s.futexes.point t = .user) {key : Key} {word : Word}
    (hfits : Fits s.futexes.mem call.isPrivate word key) (hbitset : call.bitset ≠ 0)
    (hmem : f.mem = s.futexes.mem)
    (hwaiters : f.waiters = s.futexes.waiters ++ [⟨key, t, call.bitset, false⟩])
    (hpoint : f.point = Function.update s.futexes.point t (.registered call))
    (hcur : f.current = some t)
    (hstate : ∀ u, u ≠ t → f.state u = .blocked → s.futexes.state u = .blocked) :
    Inv ⟨f, Function.update s.word t word, Function.update s.counted t false⟩ := by
  have hself : f.point t = .registered call := by rw [hpoint, Function.update_self]
  have hother : ∀ u, u ≠ t → f.point u = s.futexes.point u := fun u hu => by
    rw [hpoint, Function.update_of_ne hu]
  have hnot := h.not_listed hp
  have hne : ∀ w ∈ s.futexes.waiters, w.task ≠ t := fun w hw heq =>
    hnot (heq ▸ List.mem_map_of_mem hw)
  refine ⟨?_, fun w hw => ?_, fun u c hc => ?_, fun u c hu => ?_, fun u c hc => ?_, fun u hu => ?_⟩
  · dsimp only
    rw [hwaiters, List.map_append]
    refine h.nodup.append (List.nodup_singleton _) fun a ha hb => ?_
    obtain rfl : a = t := List.mem_singleton.mp hb
    exact hnot ha
  · dsimp only at hw ⊢
    rw [hwaiters, List.mem_append, List.mem_singleton] at hw
    rcases hw with hw | rfl
    · obtain ⟨c, hc, hrest⟩ := h.entry w hw
      rw [hother _ (hne w hw), Function.update_of_ne (hne w hw), Function.update_of_ne (hne w hw),
        hmem]
      exact ⟨c, hc, hrest⟩
    · dsimp only
      rw [hself, Function.update_self, Function.update_self, hmem]
      exact ⟨call, rfl, rfl, rfl, fun _ => hfits⟩
  · dsimp only at hc ⊢
    rw [hwaiters]
    by_cases hut : u = t
    · exact ⟨_, List.mem_append_right _ (List.mem_singleton.mpr rfl), hut.symm⟩
    · rw [hother u hut] at hc
      obtain ⟨w, hw, heq⟩ := h.listed u c hc
      exact ⟨w, List.mem_append_left _ hw, heq⟩
  · dsimp only at hu ⊢
    by_cases hut : u = t
    · rw [hut, hcur]
    · rw [hother u hut] at hu
      exact absurd hu (h.asleep hcurrent hp u c)
  · dsimp only at hc
    by_cases hut : u = t
    · rw [hut, hself] at hc
      cases hc
      exact hbitset
    · rw [hother u hut] at hc
      exact h.bitset u c hc
  · dsimp only at hu ⊢
    by_cases hut : u = t
    · rw [hut, Function.update_self] at hu
      cases hu
    · rw [Function.update_of_ne hut] at hu
      rw [hother u hut]
      exact ⟨(h.counted u hu).1, fun hb => (h.counted u hu).2 (hstate u hut hb)⟩

theorem Inv.leaves (h : s.Inv) (hmem : f.mem = s.futexes.mem)
    (hwaiters : f.waiters = (removeWaiter t s.futexes.waiters).1)
    (hpoint : f.point = Function.update s.futexes.point t .user)
    (hcurrent : s.futexes.current = some t)
    (hstate : ∀ u, u ≠ t → f.state u = .blocked → s.futexes.state u = .blocked) :
    Inv ⟨f, s.word, Function.update s.counted t false⟩ := by
  have hself : f.point t = .user := by rw [hpoint, Function.update_self]
  have hother : ∀ u, u ≠ t → f.point u = s.futexes.point u := fun u hu => by
    rw [hpoint, Function.update_of_ne hu]
  have hmem' : ∀ w, w ∈ f.waiters ↔ w ∈ s.futexes.waiters ∧ w.task ≠ t := fun w => by
    rw [hwaiters, removeWaiter, List.mem_filter, decide_eq_true_eq]
  refine ⟨?_, fun w hw => ?_, fun u c hc => ?_, fun u c hu => ?_, fun u c hc => ?_, fun u hu => ?_⟩
  · dsimp only
    rw [hwaiters]
    exact h.nodup.sublist (List.filter_sublist.map _)
  · dsimp only at hw ⊢
    obtain ⟨hw, hne⟩ := (hmem' w).mp hw
    rw [hother _ hne, Function.update_of_ne hne, hmem]
    exact h.entry w hw
  · dsimp only at hc ⊢
    by_cases hut : u = t
    · rw [hut, hself] at hc
      cases hc
    · rw [hother u hut] at hc
      obtain ⟨w, hw, rfl⟩ := h.listed u c hc
      exact ⟨w, (hmem' w).mpr ⟨hw, hut⟩, rfl⟩
  · dsimp only at hu ⊢
    by_cases hut : u = t
    · rw [hut, hself] at hu
      cases hu
    · rw [hother u hut] at hu
      exact absurd (Option.some.inj ((h.registered u c hu).symm.trans hcurrent)) hut
  · dsimp only at hc
    by_cases hut : u = t
    · rw [hut, hself] at hc
      cases hc
    · rw [hother u hut] at hc
      exact h.bitset u c hc
  · dsimp only at hu ⊢
    by_cases hut : u = t
    · rw [hut, Function.update_self] at hu
      cases hu
    · rw [Function.update_of_ne hut] at hu
      rw [hother u hut]
      exact ⟨(h.counted u hu).1, fun hb => (h.counted u hu).2 (hstate u hut hb)⟩

/-- A thread that has looked at the word and gives up the CPU. -/
theorem Inv.sleeps (h : s.Inv) (hp : s.futexes.point t = .registered call)
    (hmem : f.mem = s.futexes.mem) (hwaiters : f.waiters = s.futexes.waiters)
    (hpoint : f.point = Function.update s.futexes.point t (.asleep call))
    (hstate : ∀ u, f.state u = .blocked → s.futexes.state u = .blocked) :
    Inv { s with futexes := f } := by
  have hself : f.point t = .asleep call := by rw [hpoint, Function.update_self]
  have hother : ∀ u, u ≠ t → f.point u = s.futexes.point u := fun u hu => by
    rw [hpoint, Function.update_of_ne hu]
  have hcall : ∀ u, (f.point u).call = (s.futexes.point u).call := fun u => by
    by_cases hut : u = t
    · rw [hut, hself, hp, Point.call, Point.call]
    · rw [hother u hut]
  refine ⟨hwaiters ▸ h.nodup, fun w hw => ?_, fun u c hc => ?_, fun u c hu => ?_, fun u c hc => ?_,
    fun u hu => ?_⟩
  · dsimp only at hw ⊢
    rw [hwaiters] at hw
    rw [hcall, hmem]
    exact h.entry w hw
  · dsimp only at hc ⊢
    rw [hcall] at hc
    rw [hwaiters]
    exact h.listed u c hc
  · dsimp only at hu ⊢
    by_cases hut : u = t
    · rw [hut, hself] at hu
      cases hu
    · rw [hother u hut] at hu
      have hcur := h.registered t call hp
      exact absurd (Option.some.inj ((h.registered u c hu).symm.trans hcur)) hut
  · dsimp only at hc
    rw [hcall] at hc
    exact h.bitset u c hc
  · dsimp only at hu ⊢
    have hut : u ≠ t := by
      rintro rfl
      obtain ⟨⟨c, hc⟩, -⟩ := h.counted u hu
      rw [hp] at hc
      cases hc
    rw [hother u hut]
    exact ⟨(h.counted u hu).1, fun hb => (h.counted u hu).2 (hstate u hb)⟩

end Watched

/-!
## Wakes and requeues

A wake selects blocked threads whose word is in the same memory, all of them or as many as it
may; a requeue also moves such threads to its other word.
-/

variable {T : Type} [DecidableEq T]

namespace Futexes

variable {s : Futexes T} {ts : List T}

theorem setState_blocked {t u : T} {st : TaskState} (hst : st ≠ .blocked)
    (hu : (s.setState t st).state u = .blocked) : s.state u = .blocked ∧ u ≠ t := by
  change Function.update s.state t st u = .blocked at hu
  by_cases hut : u = t
  · rw [hut, Function.update_self] at hu
    exact absurd hu hst
  · rw [Function.update_of_ne hut] at hu
    exact ⟨hu, hut⟩

/-- Wakes change only states, and leave no task that is woken blocked. -/
theorem wakeAll_eq : ∃ st, s.wakeAll ts = { s with state := st } ∧
    ∀ u, st u = .blocked → s.state u = .blocked ∧ u ∉ ts := by
  induction ts generalizing s with
  | nil => exact ⟨s.state, rfl, fun u hu => ⟨hu, List.not_mem_nil⟩⟩
  | cons t ts ih =>
      have hwake : ∃ st, s.wake t = { s with state := st } ∧
          ∀ u, st u = .blocked → s.state u = .blocked ∧ u ≠ t := by
        rw [wake]
        split
        next hz => exact ⟨s.state, rfl, fun u hu => ⟨hu, by rintro rfl; rw [hz] at hu; cases hu⟩⟩
        next => exact ⟨_, rfl, fun u hu => setState_blocked (by decide) hu⟩
      obtain ⟨st, hst, hblocked⟩ := hwake
      obtain ⟨st', hst', hblocked'⟩ := ih (s := s.wake t)
      rw [hst] at hst' hblocked'
      refine ⟨st', ?_, fun u hu => ?_⟩
      · rw [wakeAll, List.foldl_cons, hst]
        exact hst'
      · obtain ⟨hu', hts⟩ := hblocked' u hu
        obtain ⟨hu, ht⟩ := hblocked u hu'
        exact ⟨hu, fun hin => (List.mem_cons.mp hin).elim ht hts⟩

@[simp] theorem wakeAll_mem : (s.wakeAll ts).mem = s.mem := by
  obtain ⟨st, hst, -⟩ := @wakeAll_eq T _ s ts
  rw [hst]

@[simp] theorem wakeAll_point : (s.wakeAll ts).point = s.point := by
  obtain ⟨st, hst, -⟩ := @wakeAll_eq T _ s ts
  rw [hst]

theorem schedule_eq {t : T} : ∃ st, s.schedule t = { s with state := st, current := none } ∧
    ∀ u, st u = .blocked → s.state u = .blocked := by
  rw [schedule]
  split
  · exact ⟨_, rfl, fun u hu => (setState_blocked (by decide) hu).1⟩
  · exact ⟨s.state, rfl, fun _ => id⟩

omit [DecidableEq T] in
theorem timer_eq {g : Futexes T} (c : Prop) [Decidable c]
    (hg : ∃ armed timedOut, g = { s with armed := armed, timedOut := timedOut }) :
    ∃ armed timedOut, (if c then g else s) = { s with armed := armed, timedOut := timedOut } := by
  split
  · exact hg
  · exact ⟨s.armed, s.timedOut, rfl⟩

end Futexes

namespace Watched

variable {s : Watched T} {word : Word} {key : Key} {isPrivate : Bool} {n : Nat} {bitset : BitVec 32}

/-- Threads whose calls have the same flag, and which wait in the same memory. -/
def On (s : Watched T) (isPrivate : Bool) (word : Word) (t : T) : Prop :=
  ∃ call, s.Blocked t call ∧ call.isPrivate = isPrivate ∧
    SameMemory s.futexes.mem isPrivate (s.word t) word

/-- The words of blocked threads that a wake could take for its own lie apart from it. -/
def Apart (s : Watched T) (m : Machine) (word : Word) (bitset : BitVec 32) : Prop :=
  ∀ t call, s.Blocked t call → call.isPrivate = false → call.bitset &&& bitset ≠ 0 →
    Clear m (s.word t) word

omit [DecidableEq T] in
theorem Inv.on_of_key (h : s.Inv) (hnone : ∀ u call, s.futexes.point u ≠ .registered call)
    (hfits : Fits s.futexes.mem isPrivate word key)
    (hapart : isPrivate = false → s.Apart s.futexes.mem word bitset) {w : Waiter T}
    (hw : w ∈ s.futexes.waiters) (hkey : w.key = key) (hwoken : w.woken = false)
    (hbits : w.bitset &&& bitset ≠ 0) : s.On isPrivate word w.task := by
  obtain ⟨call, hblocked, hbitset, hentry⟩ := h.blocked hnone hw hwoken
  rw [hkey] at hentry
  obtain rfl := hentry.flag_eq hfits
  refine ⟨call, hblocked, rfl, Clear.same (fun hp => ?_) hentry hfits⟩
  exact hapart hp _ call hblocked hp (hbitset ▸ hbits)

/-! ### Wakes -/

/-- What a wake is to do. -/
structure Wakes (s : Watched T) (isPrivate : Bool) (word : Word) (n : Nat) (bitset : BitVec 32)
    (ts : List T) : Prop where
  few : ts.length ≤ n
  distinct : ts.Nodup
  blocked : ∀ t ∈ ts, s.On isPrivate word t
  all : ∀ t call, s.Blocked t call → call.isPrivate = isPrivate → call.bitset &&& bitset ≠ 0 →
    SameMemory s.futexes.mem isPrivate (s.word t) word → t ∈ ts ∨ ts.length = n

omit [DecidableEq T] in
theorem Inv.wakes (h : s.Inv) (hnone : ∀ u call, s.futexes.point u ≠ .registered call)
    (hfits : Fits s.futexes.mem isPrivate word key)
    (hapart : isPrivate = false → s.Apart s.futexes.mem word bitset) :
    s.Wakes isPrivate word n bitset (wakeKey key n bitset s.futexes.waiters).2 where
  few := by
    rw [wakeKey, List.length_map]
    exact length_change_le
  distinct := nodup_change h.nodup
  blocked t ht := by
    obtain ⟨w, hw, rfl⟩ := List.mem_map.mp ht
    obtain ⟨hin, hsel⟩ := mem_of_mem_change hw
    obtain ⟨hkey, hwoken, hbits⟩ := of_decide_eq_true hsel
    exact h.on_of_key hnone hfits hapart hin hkey hwoken hbits
  all t call hblocked hp hbits hsame := by
    obtain ⟨w, hw, rfl, hwoken, hbitset, hentry⟩ := h.entry_of_blocked hblocked
    rw [hp] at hentry
    have hsel : Waiter.selected key bitset w = true :=
      decide_eq_true ⟨hsame.key_eq hentry hfits, hwoken, hbitset ▸ hbits⟩
    rw [wakeKey, List.length_map]
    exact (mem_change_or hw hsel).imp List.mem_map_of_mem id

/-- The state after a wake. -/
def woken (s : Watched T) (key : Key) (n : Nat) (bitset : BitVec 32) : Watched T :=
  let r := wakeKey key n bitset s.futexes.waiters
  { s with
    futexes := { s.futexes with waiters := r.1 }.wakeAll r.2
    counted := fun u => decide (u ∈ r.2) || s.counted u }

@[simp] theorem woken_mem : (s.woken key n bitset).futexes.mem = s.futexes.mem :=
  Futexes.wakeAll_mem

@[simp] theorem woken_point : (s.woken key n bitset).futexes.point = s.futexes.point :=
  Futexes.wakeAll_point

theorem Inv.woken (h : s.Inv) (hnone : ∀ u call, s.futexes.point u ≠ .registered call) :
    (s.woken key n bitset).Inv := by
  obtain ⟨st, hst, hstate⟩ := @Futexes.wakeAll_eq T _
    { s.futexes with waiters := (wakeKey key n bitset s.futexes.waiters).1 }
    (wakeKey key n bitset s.futexes.waiters).2
  have hmap : (wakeKey key n bitset s.futexes.waiters).1.map Waiter.task =
      s.futexes.waiters.map Waiter.task := map_change fun _ => rfl
  rw [Watched.woken, hst]
  refine ⟨?_, fun w hw => ?_, fun t call hcall => ?_, h.registered, h.bitset, fun t ht => ?_⟩
  · dsimp only
    rw [hmap]
    exact h.nodup
  · dsimp only at hw ⊢
    rcases (mem_change h.nodup).mp hw with ⟨hin, hnot⟩ | ⟨b, hb, rfl⟩
    · obtain ⟨call, hcall, hbitset, hcounted, hfits⟩ := h.entry w hin
      have hout : w.task ∉ (wakeKey key n bitset s.futexes.waiters).2 := hnot
      refine ⟨call, hcall, hbitset, ?_, hfits⟩
      rw [decide_eq_false hout, Bool.false_or]
      exact hcounted
    · obtain ⟨call, hcall, hbitset, -, -⟩ := h.entry b (mem_of_mem_change hb).1
      refine ⟨call, hcall, hbitset, ?_, fun hnot => by cases hnot⟩
      have hin : b.wake.task ∈ (wakeKey key n bitset s.futexes.waiters).2 :=
        List.mem_map.mpr ⟨b, hb, rfl⟩
      rw [decide_eq_true hin, Bool.true_or]
      rfl
  · dsimp only at hcall ⊢
    obtain ⟨w, hw, rfl⟩ := h.listed t call hcall
    exact List.mem_map.mp (hmap.symm ▸ List.mem_map_of_mem hw)
  · dsimp only at ht ⊢
    rcases Bool.or_eq_true_iff.mp ht with hin | hold
    · have hts := of_decide_eq_true hin
      obtain ⟨w, hw, rfl⟩ := List.mem_map.mp hts
      obtain ⟨hin', hsel⟩ := mem_of_mem_change hw
      obtain ⟨-, hwoken, -⟩ := of_decide_eq_true hsel
      obtain ⟨call, hblocked, -⟩ := h.blocked hnone hin' hwoken
      exact ⟨⟨call, hblocked.1⟩, fun hb => (hstate _ hb).2 hts⟩
    · exact ⟨(h.counted t hold).1, fun hb => (h.counted t hold).2 (hstate t hb).1⟩

theorem woken_blocked {t : T} {call : WaitCall} (hb : (s.woken key n bitset).Blocked t call) :
    s.Blocked t call ∧ t ∉ (wakeKey key n bitset s.futexes.waiters).2 := by
  obtain ⟨hpoint, hcounted⟩ := hb
  obtain ⟨hout, hcounted⟩ := Bool.or_eq_false_iff.mp hcounted
  exact ⟨⟨(congrFun woken_point t).symm.trans hpoint, hcounted⟩, of_decide_eq_false hout⟩

/-! ### Requeues -/

/-- The state after waiters were moved. -/
def moved (s : Watched T) (k1 k2 : Key) (n : Nat) (word : Word) : Watched T :=
  let q := moveKey k1 k2 n s.futexes.waiters
  { s with
    futexes := { s.futexes with waiters := q.1 }
    word := fun u => if u ∈ q.2 then word else s.word u }

theorem Inv.moved (h : s.Inv) (hnone : ∀ u call, s.futexes.point u ≠ .registered call)
    {k1 k2 : Key} {word1 : Word} (hfits1 : Fits s.futexes.mem isPrivate word1 k1)
    (hfits : Fits s.futexes.mem isPrivate word k2) : (s.moved k1 k2 n word).Inv := by
  have hmap : (moveKey k1 k2 n s.futexes.waiters).1.map Waiter.task =
      s.futexes.waiters.map Waiter.task := map_change fun _ => rfl
  refine ⟨?_, fun w hw => ?_, fun t call hcall => ?_, h.registered, h.bitset, h.counted⟩
  · rw [Watched.moved]
    dsimp only
    rw [hmap]
    exact h.nodup
  · rw [Watched.moved] at hw ⊢
    dsimp only at hw ⊢
    rcases (mem_change h.nodup).mp hw with ⟨hin, hnot⟩ | ⟨b, hb, rfl⟩
    · have hout : w.task ∉ (moveKey k1 k2 n s.futexes.waiters).2 := hnot
      rw [if_neg hout]
      exact h.entry w hin
    · have hin : (b.move k2).task ∈ (moveKey k1 k2 n s.futexes.waiters).2 :=
        List.mem_map.mpr ⟨b, hb, rfl⟩
      obtain ⟨hb', hsel⟩ := mem_of_mem_change hb
      obtain ⟨hkey, hwoken⟩ := of_decide_eq_true hsel
      obtain ⟨call, hblocked, hbitset, hentry⟩ := h.blocked hnone hb' hwoken
      rw [hkey] at hentry
      rw [if_pos hin]
      refine ⟨call, ?_, hbitset, hwoken.trans hblocked.2.symm, fun _ => ?_⟩
      · exact (congrArg Point.call hblocked.1).trans rfl
      · rw [hentry.flag_eq hfits1]
        exact hfits
  · rw [Watched.moved]
    dsimp only
    obtain ⟨w, hw, rfl⟩ := h.listed t call hcall
    exact List.mem_map.mp (hmap.symm ▸ List.mem_map_of_mem hw)

omit [DecidableEq T] in
theorem Inv.moves (h : s.Inv) (hnone : ∀ u call, s.futexes.point u ≠ .registered call)
    {k1 k2 : Key} (hfits : Fits s.futexes.mem isPrivate word k1)
    (hapart : isPrivate = false → s.Apart s.futexes.mem word (BitVec.allOnes 32)) :
    (moveKey k1 k2 n s.futexes.waiters).2.length ≤ n ∧
      (moveKey k1 k2 n s.futexes.waiters).2.Nodup ∧
        ∀ t ∈ (moveKey k1 k2 n s.futexes.waiters).2, s.On isPrivate word t := by
  refine ⟨?_, nodup_change h.nodup, fun t ht => ?_⟩
  · rw [moveKey, List.length_map]
    exact length_change_le
  · obtain ⟨w, hw, rfl⟩ := List.mem_map.mp ht
    obtain ⟨hin, hsel⟩ := mem_of_mem_change hw
    obtain ⟨hkey, hwoken⟩ := of_decide_eq_true hsel
    obtain ⟨call, hcall, hbitset, -⟩ := h.entry w hin
    refine h.on_of_key hnone hfits hapart hin hkey hwoken ?_
    rw [BitVec.and_allOnes, hbitset]
    exact h.bitset _ call hcall

theorem Inv.requeued (h : s.Inv) (hnone : ∀ u call, s.futexes.point u ≠ .registered call)
    {k1 k2 : Key} {word2 : Word} {nwake : Nat} (hfits : Fits s.futexes.mem isPrivate word k1)
    (hfits2 : Fits s.futexes.mem isPrivate word2 k2)
    (hapart : isPrivate = false → s.Apart s.futexes.mem word (BitVec.allOnes 32)) :
    let w := s.woken k1 nwake (BitVec.allOnes 32)
    let ts := (moveKey k1 k2 n w.futexes.waiters).2
    (w.moved k1 k2 n word2).Inv ∧ ts.length ≤ n ∧ (∀ t ∈ ts, s.On isPrivate word t) ∧
      ((wakeKey k1 nwake (BitVec.allOnes 32) s.futexes.waiters).2 ++ ts).Nodup := by
  intro w ts
  have hw : w.Inv := h.woken hnone
  have hnone' : ∀ u call, w.futexes.point u ≠ .registered call := by
    rw [woken_point]
    exact hnone
  have hmem : w.futexes.mem = s.futexes.mem := woken_mem
  have hfits' : Fits w.futexes.mem isPrivate word k1 := hmem.symm ▸ hfits
  have hfits2' : Fits w.futexes.mem isPrivate word2 k2 := hmem.symm ▸ hfits2
  have hapart' : isPrivate = false → w.Apart w.futexes.mem word (BitVec.allOnes 32) :=
    fun hp t call hb => hmem.symm ▸ hapart hp t call (woken_blocked hb).1
  obtain ⟨hlength, hnodup, hon⟩ := @Inv.moves T w word isPrivate n hw hnone' k1 k2 hfits' hapart'
  refine ⟨hw.moved hnone' hfits' hfits2', hlength, fun t ht => ?_, ?_⟩
  · obtain ⟨call, hblocked, hp, hsame⟩ := hon t ht
    exact ⟨call, (woken_blocked hblocked).1, hp, hmem ▸ hsame⟩
  · refine (nodup_change h.nodup).append hnodup fun t hwoken ht => ?_
    obtain ⟨call, hblocked, -⟩ := hon t ht
    exact (woken_blocked hblocked).2 hwoken

end Watched

end MindOS.Kernel.Futex
