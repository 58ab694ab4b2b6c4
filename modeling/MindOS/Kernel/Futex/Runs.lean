import MindOS.Kernel.Futex.Wakes
import MindOS.Kernel.Mm.Isolation

/-!
# Wakes reach the waiters of a word

In a run in which the words that are waited on without the private flag keep their frames and
lie apart, each wake selects blocked threads of its word alone, all of them or as many as it
may, and the wait of a thread that was counted returns 0.
-/

namespace MindOS.Kernel.Futex

open Mm Sched Firsts Transition
open Tmpfs (pageSize)

variable {T : Type}

namespace Watched

def withMem (s : Watched T) (m : Machine) : Watched T :=
  { s with futexes := { s.futexes with mem := m } }

/-- What a call that does not wait is to do: nothing if it fails; else it wakes and moves
different threads, all of which wait on its word. -/
structure Serves (s : Watched T) (isPrivate : Bool) (word : Word) (op : Op) (r : Report T) :
    Prop where
  failed : ∀ e, r.result = .error e → r.woken = [] ∧ r.moved = []
  wakes : ∀ k, r.result = .ok k → k = r.woken.length + r.moved.length ∧
    s.Wakes isPrivate word op.nwake op.bitset r.woken
  few : r.moved.length ≤ op.nrequeue
  moves : ∀ t ∈ r.moved, s.On isPrivate word t
  distinct : (r.woken ++ r.moved).Nodup

variable [DecidableEq T]

/-- What is to be true of a step: a call serves its word, a wait that was counted returns 0, and
no thread that is counted stays blocked. -/
def Good (s : Watched T) (a : Act T) (u : Watched T) : Prop :=
  (∀ t, u.counted t = true → u.futexes.state t ≠ .blocked) ∧
    match a with
    | .call op isPrivate picks => ∀ t, s.futexes.running = some t →
        (s.withMem u.futexes.mem).Serves isPrivate ⟨s.futexes.space t, op.uaddr.toNat⟩ op
          (s.futexes.futex t op isPrivate picks).2
    | .resume => ∀ t, s.futexes.current = some t → s.counted t = true →
        u.futexes.result t = .ok 0
    | _ => True

/-- The words that are waited on without the private flag keep their frames, and lie apart from
that of a call. -/
def Sound (s : Watched T) : Act T → Prop
  | .memory a => ∀ m, s.futexes.mem.step a = some m → ∀ t call, s.Blocked t call →
      call.isPrivate = false → frameOf m (s.word t) = frameOf s.futexes.mem (s.word t)
  | .call op isPrivate picks => isPrivate = false → op.uaddr.toNat % 4 = 0 → ∀ t,
      s.futexes.running = some t →
      s.Apart (s.futexes.mem.populateRange (s.futexes.space t) op.uaddr.toNat 4 picks).1
        ⟨s.futexes.space t, op.uaddr.toNat⟩ op.bitset
  | _ => True

/-! ### Calls -/

/-- The state when a call has done its work. -/
def called (s : Watched T) (t : T) (op : Op) (r : Futexes T × Report T) : Watched T where
  futexes := r.1
  word u := if u ∈ r.2.moved then ⟨s.futexes.space t, op.uaddr2.toNat⟩ else s.word u
  counted u := decide (u ∈ r.2.woken) || s.counted u

structure Called (s : Watched T) (t : T) (op : Op) (isPrivate : Bool)
    (r : Futexes T × Report T) : Prop where
  inv : (s.called t op r).Inv
  serves : (s.withMem r.1.mem).Serves isPrivate ⟨s.futexes.space t, op.uaddr.toNat⟩ op r.2
  point : r.1.point = s.futexes.point

variable {s : Watched T} {t : T} {op : Op} {isPrivate : Bool} {picks : Nat → Picks}

theorem called_none {f : Futexes T} {res : Except Errno Nat} :
    s.called t op (f, ⟨[], [], res⟩) = { s with futexes := f } := by
  rw [called]
  simp

theorem Inv.fails (h : s.Inv) {m : Machine} (hgrown : s.futexes.mem.Grown m) (e : Errno) :
    s.Called t op isPrivate (({ s.futexes with mem := m } : Futexes T).fail e) where
  inv := by
    rw [Futexes.fail, called_none]
    exact h.of_grown hgrown
  serves := ⟨fun _ _ => ⟨rfl, rfl⟩, fun _ hok => (by cases hok), Nat.zero_le _,
    fun _ hin => absurd hin List.not_mem_nil, List.nodup_nil⟩
  point := rfl

omit [DecidableEq T] in
/-- The words that matter in the memory in which the key was taken. -/
theorem apart_of_key {uaddr : Nat} {key : Key} {bitset : BitVec 32} {m : Machine} {word : Word}
    (hkey : keyFor s.futexes.mem (s.futexes.space t) uaddr isPrivate picks = (m, .ok key))
    (hsound : isPrivate = false → uaddr % 4 = 0 →
      s.Apart (s.futexes.mem.populateRange (s.futexes.space t) uaddr 4 picks).1 word bitset)
    (hp : isPrivate = false) : s.Apart m word bitset := by
  rw [hp] at hkey
  obtain ⟨haligned, rfl⟩ := keyFor_fst hkey
  exact hsound hp haligned

theorem Inv.futexWake (h : s.Inv) (hnone : ∀ u call, s.futexes.point u ≠ .registered call)
    (hrequeue : op.nrequeue = 0)
    (hsound : isPrivate = false → op.uaddr.toNat % 4 = 0 → s.Apart
      (s.futexes.mem.populateRange (s.futexes.space t) op.uaddr.toNat 4 picks).1
      ⟨s.futexes.space t, op.uaddr.toNat⟩ op.bitset) :
    s.Called t op isPrivate
      (s.futexes.futexWake t op.uaddr op.nwake op.bitset isPrivate picks) := by
  have hgrown := @keyFor_grown s.futexes.mem (s.futexes.space t) op.uaddr.toNat isPrivate picks
  rw [Futexes.futexWake]
  split
  next m e hkey =>
    rw [hkey] at hgrown
    exact h.fails hgrown e
  next m key hkey =>
    rw [hkey] at hgrown
    have hm : (s.withMem m).Inv := h.of_grown hgrown
    have hfits := (keyFor_ok hkey).2
    have hapart := apart_of_key hkey hsound
    have hwakes := @Inv.wakes T (s.withMem m) _ key isPrivate op.nwake op.bitset hm hnone hfits
      hapart
    refine ⟨?_, ⟨fun _ herr => (by cases herr), fun k hok => ?_, ?_, ?_, ?_⟩, ?_⟩
    · exact hm.woken hnone
    · cases hok
      refine ⟨rfl, ?_⟩
      dsimp only
      rw [Futexes.wakeAll_mem]
      exact hwakes
    · rw [hrequeue]
      exact Nat.le_refl _
    · exact fun _ hin => absurd hin List.not_mem_nil
    · dsimp only
      rw [List.append_nil]
      exact hwakes.distinct
    · exact Futexes.wakeAll_point

theorem Inv.requeue (h : s.Inv) (hnone : ∀ u call, s.futexes.point u ≠ .registered call)
    (hbitset : op.bitset = BitVec.allOnes 32)
    (hsound : isPrivate = false → op.uaddr.toNat % 4 = 0 → s.Apart
      (s.futexes.mem.populateRange (s.futexes.space t) op.uaddr.toNat 4 picks).1
      ⟨s.futexes.space t, op.uaddr.toNat⟩ op.bitset) :
    s.Called t op isPrivate
      (s.futexes.requeue t op.uaddr op.uaddr2 op.nwake op.nrequeue isPrivate picks) := by
  have hgrown := @keyFor_grown s.futexes.mem (s.futexes.space t) op.uaddr.toNat isPrivate picks
  rw [Futexes.requeue]
  split
  next m e hkey =>
    rw [hkey] at hgrown
    exact h.fails hgrown e
  next m k1 hkey1 =>
    rw [hkey1] at hgrown
    have hgrown' := @keyFor_grown m (s.futexes.space t) op.uaddr2.toNat isPrivate picks
    split
    next m' e hkey2 =>
      rw [hkey2] at hgrown'
      exact h.fails (hgrown.trans hgrown') e
    next m' k2 hkey2 =>
      rw [hkey2] at hgrown'
      -- the wakes happen in the memory after the second key, in which the first one still fits
      have hm : (s.withMem m').Inv := h.of_grown (hgrown.trans hgrown')
      have hfits1 := (keyFor_ok hkey1).2.grown hgrown'
      have hapart : isPrivate = false → s.Apart m' ⟨s.futexes.space t, op.uaddr.toNat⟩
          op.bitset := by
        intro hp u call hblocked hcall hbits
        have hclear := apart_of_key hkey1 hsound hp u call hblocked hcall hbits
        obtain ⟨w, -, -, -, -, hfits⟩ := (h.of_grown hgrown).entry_of_blocked hblocked
        have hfits' := (keyFor_ok hkey1).2
        rw [hcall] at hfits
        rw [hp] at hfits'
        exact hclear.grown hgrown' hfits hfits'
      rw [hbitset] at hapart
      have hwakes := @Inv.wakes T (s.withMem m') _ k1 isPrivate op.nwake _ hm hnone hfits1 hapart
      obtain ⟨hinv, hlength, hmoves, hdistinct⟩ := @Inv.requeued T _ (s.withMem m')
        ⟨s.futexes.space t, op.uaddr.toNat⟩ isPrivate op.nrequeue hm hnone k1 k2
        ⟨s.futexes.space t, op.uaddr2.toNat⟩ op.nwake hfits1 (keyFor_ok hkey2).2 hapart
      refine ⟨hinv, ⟨fun _ herr => (by cases herr), fun k hok => ?_, hlength, ?_, hdistinct⟩, ?_⟩
      · cases hok
        refine ⟨rfl, ?_⟩
        dsimp only
        rw [Futexes.wakeAll_mem, hbitset]
        exact hwakes
      · dsimp only
        rw [Futexes.wakeAll_mem]
        exact hmoves
      · exact Futexes.wakeAll_point

theorem Inv.futex (h : s.Inv) (hnone : ∀ u call, s.futexes.point u ≠ .registered call)
    (hsound : isPrivate = false → op.uaddr.toNat % 4 = 0 → s.Apart
      (s.futexes.mem.populateRange (s.futexes.space t) op.uaddr.toNat 4 picks).1
      ⟨s.futexes.space t, op.uaddr.toNat⟩ op.bitset) :
    s.Called t op isPrivate (s.futexes.futex t op isPrivate picks) := by
  cases op with
  | wake uaddr n => exact h.futexWake hnone rfl hsound
  | wakeBitset uaddr n bitset =>
      rw [Futexes.futex]
      split
      · exact h.fails .refl _
      · exact h.futexWake hnone rfl hsound
  | requeue uaddr uaddr2 nwake nrequeue => exact h.requeue hnone rfl hsound
  | cmpRequeue uaddr uaddr2 nwake nrequeue val =>
      have hgrown := @Machine.readUser_grown (s.futexes.space t) s.futexes.mem uaddr.toNat picks
      rw [Futexes.futex]
      split
      next m e hread =>
        rw [hread] at hgrown
        exact h.fails hgrown _
      next m cur hread =>
        rw [hread] at hgrown
        split
        · exact h.fails hgrown _
        · have hm : (s.withMem m).Inv := h.of_grown hgrown
          have hagain : isPrivate = false → uaddr.toNat % 4 = 0 → (s.withMem m).Apart
              (m.populateRange (s.futexes.space t) uaddr.toNat 4 picks).1
              ⟨s.futexes.space t, uaddr.toNat⟩ (BitVec.allOnes 32) := by
            intro hp haligned
            obtain ⟨x, hpop⟩ := Machine.readUser_ok hread
            rw [Machine.populateRange_again haligned hpop]
            have hsame := hsound hp haligned
            dsimp only [Op.uaddr] at hsame
            rw [hpop] at hsame
            exact hsame
          have hcalled := @Inv.requeue T _ (s.withMem m) t
            (.cmpRequeue uaddr uaddr2 nwake nrequeue val) isPrivate picks hm hnone rfl hagain
          exact ⟨hcalled.inv, hcalled.serves, hcalled.point⟩

/-! ### Steps -/

omit [DecidableEq T] in
theorem running_eq_some (h : s.futexes.running = some t) :
    s.futexes.current = some t ∧ s.futexes.point t = .user := by
  obtain ⟨u, hu, hpoint⟩ := Option.bind_eq_some_iff.mp h
  cases hp : s.futexes.point u with
  | user =>
      rw [hp] at hpoint
      cases hpoint
      exact ⟨hu, hp⟩
  | registered call =>
      rw [hp] at hpoint
      cases hpoint
  | asleep call =>
      rw [hp] at hpoint
      cases hpoint

omit [DecidableEq T] in
/-- A step that takes no thread into a wait or out of it. -/
theorem Inv.quiet (h : s.Inv) {f : Futexes T} (hmem : f.mem = s.futexes.mem)
    (hwaiters : f.waiters = s.futexes.waiters) (hpoint : f.point = s.futexes.point)
    (hcurrent : f.current = s.futexes.current)
    (hstate : ∀ t, f.state t = .blocked → s.futexes.state t = .blocked) :
    Inv { s with futexes := f } :=
  h.congr hmem hwaiters hpoint (fun t call hp => hcurrent.trans (h.registered t call hp)) hstate

theorem Inv.wake (h : s.Inv) (t : T) : Inv { s with futexes := s.futexes.wake t } := by
  obtain ⟨st, hst, hstate⟩ := @Futexes.wakeAll_eq T _ s.futexes [t]
  have hwake : s.futexes.wake t = { s.futexes with state := st } := hst
  rw [hwake]
  exact h.quiet rfl rfl rfl rfl fun u hu => (hstate u hu).1

/-- The record of a thread that is in no wait does not matter. -/
theorem Inv.forget (h : s.Inv) (hp : s.futexes.point t = .user) (word : Word) :
    Inv { s with
      word := Function.update s.word t word, counted := Function.update s.counted t false } := by
  refine ⟨h.nodup, fun w hw => ?_, h.listed, h.registered, h.bitset, fun v hv => ?_⟩
  · have hne : w.task ≠ t := fun heq => h.not_listed hp (heq ▸ List.mem_map_of_mem hw)
    dsimp only
    rw [Function.update_of_ne hne, Function.update_of_ne hne]
    exact h.entry w hw
  · dsimp only at hv ⊢
    by_cases hvt : v = t
    · rw [hvt, Function.update_self] at hv
      cases hv
    · rw [Function.update_of_ne hvt] at hv
      exact h.counted v hv

/-- A thread that stays in user mode, with a result. -/
theorem Inv.ret (h : s.Inv) (hcurrent : s.futexes.current = some t)
    (hp : s.futexes.point t = .user) (r : Except Errno Nat) :
    Inv { s with futexes := s.futexes.ret t r } := by
  refine h.congr rfl rfl ?_ (fun v c hv => absurd hv (h.asleep hcurrent hp v c)) fun _ => id
  exact (congrArg _ hp.symm).trans (Function.update_eq_self t _)

theorem Inv.yieldNow (h : s.Inv) (hcurrent : s.futexes.current = some t)
    (hp : s.futexes.point t = .user) : Inv { s with futexes := s.futexes.schedule t } := by
  obtain ⟨st, hst, hstate⟩ := @Futexes.schedule_eq T _ s.futexes t
  rw [hst]
  exact h.congr rfl rfl rfl (fun v c hv => absurd hv (h.asleep hcurrent hp v c)) hstate

theorem Inv.enter (h : s.Inv) (hcurrent : s.futexes.current = some t)
    (hp : s.futexes.point t = .user) (call : WaitCall) (picks : Nat → Picks) :
    Inv ⟨s.futexes.enter t call picks,
      Function.update s.word t ⟨s.futexes.space t, call.uaddr.toNat⟩,
      Function.update s.counted t false⟩ := by
  have hforget := h.forget hp ⟨s.futexes.space t, call.uaddr.toNat⟩
  rw [Futexes.enter]
  split
  · exact hforget.ret hcurrent hp _
  next hbitset =>
    have hgrown :=
      @keyFor_grown s.futexes.mem (s.futexes.space t) call.uaddr.toNat call.isPrivate picks
    rw [Futexes.register]
    split
    next m e hkey =>
      rw [hkey] at hgrown
      exact (hforget.of_grown hgrown).ret hcurrent hp _
    next m key hkey =>
      rw [hkey] at hgrown
      refine (h.of_grown hgrown).registers hcurrent hp (keyFor_ok hkey).2 hbitset rfl rfl rfl
        hcurrent fun v hv hb => ?_
      exact (Function.update_of_ne hv _ _).symm.trans hb

theorem Inv.giveUp (h : s.Inv) (hcurrent : s.futexes.current = some t) {call : WaitCall}
    (hp : s.futexes.point t = .registered call) (e : Errno) :
    Inv { s with futexes := s.futexes.giveUp t e } := by
  have hcounted : s.counted t = false := by
    by_contra hc
    obtain ⟨⟨c, hc⟩, -⟩ := h.counted t (Bool.eq_true_of_not_eq_false hc)
    rw [hp] at hc
    cases hc
  have hleaves := @Inv.leaves T s (s.futexes.giveUp t e) t _ h rfl rfl rfl hcurrent
    fun v hv hb => (Function.update_of_ne hv _ _).symm.trans hb
  rw [← hcounted, Function.update_eq_self] at hleaves
  exact hleaves

theorem Inv.sleep (h : s.Inv) {call : WaitCall} (hp : s.futexes.point t = .registered call) :
    Inv { s with futexes := s.futexes.sleep t call } := by
  obtain ⟨armed, timedOut, harm⟩ := @Futexes.timer_eq T s.futexes (s.futexes.arm t)
    (call.timed = true) _ ⟨_, _, rfl⟩
  obtain ⟨st, hst, hstate⟩ := @Futexes.schedule_eq T _
    (({ s.futexes with armed := armed, timedOut := timedOut } : Futexes T).goTo t (.asleep call)) t
  rw [Futexes.sleep, harm, hst]
  exact h.sleeps hp rfl rfl rfl hstate

theorem Inv.look (h : s.Inv) (hcurrent : s.futexes.current = some t) {call : WaitCall}
    (hp : s.futexes.point t = .registered call) (picks : Nat → Picks) :
    Inv { s with futexes := s.futexes.look t call picks } := by
  have hgrown :=
    @Machine.readUser_grown (s.futexes.space t) s.futexes.mem call.uaddr.toNat picks
  rw [Futexes.look]
  split
  next m e hread =>
    rw [hread] at hgrown
    exact (h.of_grown hgrown).giveUp hcurrent hp _
  next m cur hread =>
    rw [hread] at hgrown
    have hm : (s.withMem m).Inv := h.of_grown hgrown
    dsimp only
    split
    · exact hm.giveUp hcurrent hp _
    · split
      · exact hm.giveUp hcurrent hp _
      · exact hm.sleep hp

theorem Inv.finish (h : s.Inv) (hcurrent : s.futexes.current = some t) (call : WaitCall) :
    Inv ⟨s.futexes.finish t call, s.word, Function.update s.counted t false⟩ := by
  obtain ⟨armed, timedOut, harm⟩ := @Futexes.timer_eq T s.futexes (s.futexes.disarm t)
    (call.timed = true) _ ⟨_, _, rfl⟩
  rw [Futexes.finish, harm]
  exact h.leaves rfl rfl rfl hcurrent fun _ _ => id

variable {a : Act T} {u : Watched T}

theorem inv_of_sound (h : s.Inv) (hstep : s.step a = some u) (hsound : s.Sound a) : u.Inv := by
  obtain ⟨f, hf, rfl⟩ := Option.map_eq_some_iff.mp hstep
  cases a with
  | memory b =>
      obtain ⟨t, ht, hm⟩ := Option.bind_eq_some_iff.mp hf
      obtain ⟨m, hmem, rfl⟩ := Option.map_eq_some_iff.mp hm
      obtain ⟨hcurrent, hp⟩ := running_eq_some ht
      exact h.of_mem (hsound m hmem) (h.asleep hcurrent hp)
  | wait call picks =>
      obtain ⟨t, ht, rfl⟩ := Option.map_eq_some_iff.mp hf
      obtain ⟨hcurrent, hp⟩ := running_eq_some ht
      rw [hcurrent]
      exact h.enter hcurrent hp call picks
  | check picks =>
      obtain ⟨t, hcurrent, hlook⟩ := Option.bind_eq_some_iff.mp hf
      split at hlook
      next call hp =>
        cases hlook
        exact h.look hcurrent hp picks
      next => cases hlook
  | resume =>
      obtain ⟨t, hcurrent, hfinish⟩ := Option.bind_eq_some_iff.mp hf
      split at hfinish
      next call hp =>
        cases hfinish
        rw [hcurrent]
        exact h.finish hcurrent call
      next => cases hfinish
  | call op isPrivate picks =>
      obtain ⟨t, ht, rfl⟩ := Option.map_eq_some_iff.mp hf
      obtain ⟨hcurrent, hp⟩ := running_eq_some ht
      have hnone := h.asleep hcurrent hp
      have hcalled : s.Called t op isPrivate (s.futexes.futex t op isPrivate picks) :=
        h.futex hnone fun hflag haligned => hsound hflag haligned t ht
      rw [hcurrent]
      refine hcalled.inv.congr rfl rfl ?_ (fun v c hv => ?_) fun _ => id
      · have huser : (s.futexes.futex t op isPrivate picks).1.point t = .user := by
          rw [hcalled.point, hp]
        exact (congrArg _ huser.symm).trans (Function.update_eq_self t _)
      · exact absurd ((congrFun hcalled.point v).symm.trans hv) (hnone v c)
  | takeSignal =>
      obtain ⟨t, -, rfl⟩ := Option.map_eq_some_iff.mp hf
      exact h.quiet rfl rfl rfl rfl fun _ => id
  | yieldNow =>
      obtain ⟨t, ht, rfl⟩ := Option.map_eq_some_iff.mp hf
      obtain ⟨hcurrent, hp⟩ := running_eq_some ht
      exact h.yieldNow hcurrent hp
  | dispatch t =>
      rw [Futexes.step] at hf
      split at hf
      next hidle =>
        cases hf
        refine h.congr rfl rfl rfl (fun v c hv => ?_) fun v hv => ?_
        · cases (h.registered v c hv).symm.trans hidle.1
        · exact (Futexes.setState_blocked (by decide) hv).1
      next => cases hf
  | signal t =>
      cases hf
      have hq : Inv { s with futexes :=
          { s.futexes with signal := Function.update s.futexes.signal t true } } :=
        h.quiet rfl rfl rfl rfl fun _ => id
      split
      · exact hq.wake t
      · exact hq
  | expire t =>
      rw [Futexes.step] at hf
      split at hf
      next =>
        cases hf
        have hq : Inv { s with futexes := { s.futexes with
            timedOut := Function.update s.futexes.timedOut t true
            armed := Function.update s.futexes.armed t false } } :=
          h.quiet rfl rfl rfl rfl fun _ => id
        exact hq.wake t
      next => cases hf
  | rouse t =>
      cases hf
      exact h.wake t

/-- The wait of a thread that was counted returns 0. -/
theorem Inv.outcome (h : s.Inv) {call : WaitCall} (hp : s.futexes.point t = .asleep call)
    (hcounted : s.counted t = true) : s.futexes.outcome t call = .ok 0 := by
  have hcall : (s.futexes.point t).call = some call := by rw [hp, Point.call]
  obtain ⟨w, hw, rfl⟩ := h.listed t call hcall
  obtain ⟨-, -, -, hwoken, -⟩ := h.entry w hw
  refine if_pos (List.any_eq_true.mpr ⟨w, hw, ?_⟩)
  exact decide_eq_true ⟨rfl, hwoken.trans hcounted⟩

theorem good_of_sound (h : s.Inv) (hstep : s.step a = some u) (hsound : s.Sound a) :
    Good s a u := by
  refine ⟨fun t ht => ((inv_of_sound h hstep hsound).counted t ht).2, ?_⟩
  obtain ⟨f, hf, rfl⟩ := Option.map_eq_some_iff.mp hstep
  cases a with
  | call op isPrivate picks =>
      intro t ht
      obtain ⟨hcurrent, hp⟩ := running_eq_some ht
      obtain ⟨t', ht', rfl⟩ := Option.map_eq_some_iff.mp hf
      obtain rfl := Option.some.inj (ht'.symm.trans ht)
      exact (h.futex (h.asleep hcurrent hp) fun hflag haligned =>
        hsound hflag haligned _ ht).serves
  | resume =>
      intro t ht hcounted
      obtain ⟨t', ht', hfinish⟩ := Option.bind_eq_some_iff.mp hf
      obtain rfl := Option.some.inj (ht'.symm.trans ht)
      split at hfinish
      next call hp =>
        cases hfinish
        exact (Function.update_self ..).trans (h.outcome hp hcounted)
      next => cases hfinish
  | _ => trivial

/-! ### Runs -/

/-- No thread has called yet. -/
structure Fresh (s : Watched T) : Prop where
  waiters : s.futexes.waiters = []
  point : ∀ t, s.futexes.point t = .user
  counted : ∀ t, s.counted t = false

omit [DecidableEq T] in
theorem Fresh.inv (h : s.Fresh) : s.Inv where
  nodup := by
    rw [h.waiters]
    exact List.nodup_nil
  entry w hw := by
    rw [h.waiters] at hw
    exact absurd hw List.not_mem_nil
  listed t call hcall := by
    rw [h.point] at hcall
    cases hcall
  registered t call hp := by
    rw [h.point] at hp
    cases hp
  bitset t call hcall := by
    rw [h.point] at hcall
    cases hcall
  counted t ht := by
    rw [h.counted] at ht
    cases ht

/-- In a run in which shared words keep their frames and lie apart, each wake reaches the
waiters of its word and no others, and those that it counts return 0. -/
theorem waiters_served (s : Watched T) (acts : List (Act T)) (h : s.Fresh)
    (hsound : Along step (fun s a _ => s.Sound a) s acts) : Along step Good s acts :=
  Along.imp Inv (fun _ _ _ => inv_of_sound) (fun _ _ _ => good_of_sound) h.inv hsound

/-- Two threads of one process, in a machine with a file. -/
def twoThreads : Watched Bool where
  futexes :=
    { mem := Mm.Act.twoProcesses
      waiters := []
      space := fun _ => 0
      state := fun _ => .runnable
      interruptible := fun _ => false
      timedOut := fun _ => false
      armed := fun _ => false
      signal := fun _ => false
      point := fun _ => .user
      result := fun _ => .ok 0
      current := none }
  word := fun _ => ⟨0, 0⟩
  counted := fun _ => false

theorem twoThreads_fresh : twoThreads.Fresh := ⟨rfl, fun _ => rfl, fun _ => rfl⟩

/-- A wait for a word of the page that `mapFile` maps, without the private flag. -/
def waitShared : WaitCall := ⟨0x10000, 0x01010101, BitVec.allOnes 32, false, false⟩

def noPicks : Nat → Picks := fun _ => {}

theorem waiters_served_woken : Along step Good twoThreads
    [.dispatch false, .memory (Mm.Act.mapFile true), .wait waitShared noPicks, .check noPicks,
      .dispatch true, .call (.wake 0x10000 1) false noPicks, .yieldNow, .dispatch false,
      .resume] := by
  refine waiters_served twoThreads _ twoThreads_fresh ?_
  refine fun s hs => ⟨trivial, ?_⟩
  obtain rfl := Option.some.inj hs
  refine fun s hs => ⟨fun m _ t call hb => ?_, ?_⟩
  · cases hb.1
  obtain rfl := Option.some.inj hs
  refine fun s hs => ⟨trivial, ?_⟩
  obtain rfl := Option.some.inj hs
  refine fun s hs => ⟨trivial, ?_⟩
  obtain rfl := Option.some.inj hs
  refine fun s hs => ⟨trivial, ?_⟩
  obtain rfl := Option.some.inj hs
  refine fun s hs => ⟨fun _ _ t ht u call hb _ _ => ?_, ?_⟩
  · obtain rfl := Option.some.inj ht
    cases u with
    | true => cases hb.1
    | false =>
        refine ⟨fun f f' hf hf' => ?_, fun _ _ _ _ => .inl rfl⟩
        obtain rfl := Option.some.inj (hf.symm.trans hf')
        exact ⟨fun heq => by omega, fun heq => by omega⟩
  obtain rfl := Option.some.inj hs
  refine fun s hs => ⟨trivial, ?_⟩
  obtain rfl := Option.some.inj hs
  refine fun s hs => ⟨trivial, ?_⟩
  obtain rfl := Option.some.inj hs
  exact fun s hs => ⟨trivial, trivial⟩

/-- A thread waits on a word of a private mapping, another one writes there, which copies the
page, and its wake finds nobody. -/
theorem waiter_missed : ¬∀ (s : Watched Bool) (acts : List (Act Bool)), s.Fresh →
    Along step Good s acts := by
  intro hall
  have hrun := hall twoThreads [.dispatch false, .memory (Mm.Act.mapFile true),
    .wait waitShared noPicks, .check noPicks, .dispatch true,
    .memory (.write 0 0x10000 7 ⟨none, some 6⟩), .call (.wake 0x10000 1) false noPicks]
    twoThreads_fresh
  have hbefore := (((((hrun _ rfl).2 _ rfl).2 _ rfl).2 _ rfl).2 _ rfl).2 _ rfl
  have hserves := (hbefore.2 _ rfl).1.2 true rfl
  have hall := (hserves.wakes 0 rfl).2.all false waitShared ⟨rfl, rfl⟩ rfl (by decide) (.inl rfl)
  rcases hall with hin | hlength
  · exact absurd hin List.not_mem_nil
  · exact absurd hlength (by decide)

end Watched

end MindOS.Kernel.Futex
