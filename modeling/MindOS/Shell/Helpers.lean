import MindOS.Text.Basic
import MindOS.Transition
import Mathlib.Data.List.Nodup
import Mathlib.Data.List.Perm.Basic

/-!
# Helper programs run for the windows

The windows of the shell ask it to run a few programs. What only reads is asked for by
several windows at once, so one run answers all who ask while it is in progress, and its
answer stands for a second. A program that changes the performance mode empties that cache,
and the change is announced to the windows, which ask for the status again.

A call runs up to its first wait without another call in between, and again from the end of
its program to its return; all other orders are possible. Programs start and end on threads
of their own.
-/

namespace MindOS.Shell.Helpers

open Transition

abbrev Argv := List Text

/-- What a program left behind. -/
structure Output where
  status : Int
  stdout : Text := []
  stderr : Text := []
  deriving DecidableEq

def Output.ok (out : Output) : Bool := out.status == 0

abbrev Result := Except Text Output

def ok : Result → Bool
  | .ok out => out.ok
  | .error _ => false

section Commands

variable (argv : Argv)

/-- What is run, and whether it is run by `sudo -n`. -/
def command : Bool × Argv :=
  if ["sudo".toList, "-n".toList].isPrefixOf argv then (true, argv.drop 2) else (false, argv)

def bySudo : Bool := (command argv).1

def program : Text := (command argv).2.headD []

/-- The arguments of the program. -/
def args : Argv := (command argv).2.drop 1

/-- The program is `mindos-perf` with one of these verbs. -/
def isPerf (verbs : Argv) : Bool :=
  program argv == "mindos-perf".toList && (args argv).head?.any verbs.contains

def isPkgInstall : Bool :=
  argv == ["pkexec".toList, "mindos-pkg".toList, "install".toList, "--repo-only".toList,
    "mindos-gaming".toList]

def isGames : Bool :=
  program argv == "mindos-games".toList &&
    (args argv == ["scan".toList] ||
      (args argv).head? == some "launch".toList && (args argv).length == 2)

def isBootList : Bool :=
  program argv == "mindos-boot".toList && (args argv).head? == some "list".toList

def allowed : Bool :=
  isPerf argv ["status".toList, "get".toList, "modes".toList, "set".toList, "config".toList,
      "apply".toList] ||
    isBootList argv ||
    !bySudo argv &&
      (program argv == "mindos-dlss".toList || isGames argv ||
        program argv == "pacman".toList && (args argv).head?.any (·.startsWith "-Q".toList) ||
        program argv == "checkupdates".toList || program argv == "nvidia-smi".toList ||
        isPkgInstall argv)

/-- Only reads: one run serves all who ask. -/
def shared : Bool :=
  !bySudo argv &&
    (isPerf argv ["status".toList, "get".toList, "modes".toList] ||
      program argv == "mindos-games".toList && args argv == ["scan".toList] ||
      isBootList argv || program argv == "pacman".toList ||
      program argv == "checkupdates".toList || program argv == "nvidia-smi".toList)

def changesPerf : Bool := isPerf argv ["set".toList, "config".toList, "apply".toList]

/-- A performance status request. -/
def isStatus : Bool := isPerf argv ["status".toList]

end Commands

theorem allowed_of_isStatus {argv : Argv} (h : isStatus argv = true) : allowed argv = true := by
  obtain ⟨hprogram, hverb⟩ := Bool.and_eq_true_iff.mp h
  have hperf : isPerf argv ["status".toList, "get".toList, "modes".toList, "set".toList,
      "config".toList, "apply".toList] = true := by
    refine Bool.and_eq_true_iff.mpr ⟨hprogram, ?_⟩
    cases hhead : (args argv).head? with
    | none => simp [hhead] at hverb
    | some verb =>
        rw [hhead, Option.any_some, List.contains_iff_mem, List.mem_singleton] at hverb
        rw [Option.any_some, List.contains_iff_mem, hverb]
        exact List.mem_cons_self
  rw [allowed, hperf, Bool.true_or, Bool.true_or]

/-- A request of a window. Times are the places of events in the run, and `since` is when the
last change had finished that was announced by then. -/
structure Call where
  id : Nat
  argv : Argv
  since : Nat
  deriving DecidableEq

/-- Where the program of a call is. -/
inductive Phase where
  | queued
  | running (started : Nat)
  | ended (started finished : Nat) (result : Result)

def Phase.started : Phase → Option Nat
  | .queued => none
  | .running n => some n
  | .ended n _ _ => some n

/-- A call that runs a program of its own. -/
structure Run where
  call : Call
  phase : Phase := .queued

/-- A cached answer; `at` is in milliseconds, `started` is when its program was started. -/
structure Entry where
  «at» : Nat
  started : Nat
  value : Output

/-- An answer, with the start of the program that it comes from. -/
structure Answer where
  call : Call
  started : Option Nat
  result : Result

structure Host where
  now : Nat := 0
  clock : Nat := 1
  cache : Argv → Option Entry := fun _ => none
  inflight : Argv → Option (List Call) := fun _ => none
  runs : List Run := []
  /-- When the last change finished of those that are announced; 0 before any. -/
  announced : Nat := 0
  calls : List Call := []
  answers : List Answer := []

inductive Step where
  | tick (ms : Nat)
  | call (argv : Argv)
  | starts (i : Nat)
  | ends (i : Nat) (result : Result)
  /-- The call of a run goes on when its program has ended. -/
  | resumes (i : Nat)

/-- In milliseconds. -/
def HELPER_CACHE_TTL : Nat := 1000

namespace Host

/-- The call that the next request makes. -/
def next (s : Host) (argv : Argv) : Call := ⟨s.calls.length, argv, s.announced⟩

/-- The cached answer, while it stands. -/
def cached (s : Host) (argv : Argv) : Option Entry :=
  (s.cache argv).filter fun e => decide (s.now - e.at < HELPER_CACHE_TTL)

def answer (s : Host) (c : Call) (started : Option Nat) (result : Result) : Host :=
  { s with answers := s.answers ++ [⟨c, started, result⟩] }

/-- Runs a program for the call. -/
def spawn (s : Host) (c : Call) : Host := { s with runs := s.runs ++ [⟨c, .queued⟩] }

def setInflight (s : Host) (argv : Argv) (waiting : Option (List Call)) : Host :=
  { s with inflight := Function.update s.inflight argv waiting }

/-- A request of a shared program. -/
def share (s : Host) (c : Call) : Host :=
  match s.cached c.argv with
  | some e => s.answer c (some e.started) (.ok e.value)
  | none =>
      match s.inflight c.argv with
      | some waiting => s.setInflight c.argv (some (waiting ++ [c]))
      | none => (s.setInflight c.argv (some [])).spawn c

def notAllowed (argv : Argv) : Text :=
  "shell.run: '".toList ++ Text.unwords argv ++ "' is not allowed".toList

/-- The call up to where it waits. -/
def enter (s : Host) (c : Call) : Host :=
  if !allowed c.argv then s.answer c none (.error (notAllowed c.argv))
  else if shared c.argv then s.share c
  else s.spawn c

def call (s : Host) (argv : Argv) : Host :=
  { s.enter (s.next argv) with calls := s.calls ++ [s.next argv] }

/-- The answer of a shared program is kept, if there was one to run. -/
def keep (s : Host) (argv : Argv) (started : Nat) : Result → Host
  | .ok value => { s with cache := Function.update s.cache argv (some ⟨s.now, started, value⟩) }
  | .error _ => s

/-- All who wait for the program get its answer. -/
def wake (s : Host) (argv : Argv) (started : Nat) (result : Result) : Host :=
  { s.setInflight argv none with
    answers := s.answers ++ ((s.inflight argv).getD []).map fun c => ⟨c, some started, result⟩ }

def serve (s : Host) (argv : Argv) (started : Nat) (result : Result) : Host :=
  if shared argv then (s.keep argv started result).wake argv started result else s

/-- A mode switch should show in every other window, and not the state from before it. -/
def announce (s : Host) (argv : Argv) (finished : Nat) (result : Result) : Host :=
  if changesPerf argv && ok result then
    { s with cache := fun _ => none, announced := max s.announced finished }
  else s

/-- The call from the end of its program to its return. -/
def finish (s : Host) (c : Call) (started finished : Nat) (result : Result) : Host :=
  ((s.serve c.argv started result).announce c.argv finished result).answer c (some started) result

def setRun (s : Host) (i : Nat) (run : Run) : Host :=
  { s with runs := s.runs.set i run, clock := s.clock + 1 }

def step (s : Host) : Step → Option Host
  | .tick ms => some { s with now := s.now + ms }
  | .call argv => some (s.call argv)
  | .starts i =>
      match s.runs[i]? with
      | some ⟨c, .queued⟩ => some (s.setRun i ⟨c, .running s.clock⟩)
      | _ => none
  | .ends i result =>
      match s.runs[i]? with
      | some ⟨c, .running started⟩ => some (s.setRun i ⟨c, .ended started s.clock result⟩)
      | _ => none
  | .resumes i =>
      match s.runs[i]? with
      | some ⟨c, .ended started finished result⟩ =>
          some ({ s with runs := s.runs.eraseIdx i }.finish c started finished result)
      | _ => none

/-! ## What is asked of the answers -/

/-- An answer on the status comes from a program that was started after the changes had
finished that the call knew of. -/
def Fresh (s : Host) : Prop :=
  ∀ a ∈ s.answers, isStatus a.call.argv = true → ∃ n, a.started = some n ∧ a.call.since < n

def waiting (s : Host) (argv : Argv) : List Call := (s.inflight argv).getD []

/-- How often a call is answered, runs a program or waits for that of another call. -/
def places (s : Host) (c : Call) : Nat :=
  (s.answers.map Answer.call).count c + (s.runs.map Run.call).count c +
    (s.waiting c.argv).count c

/-- Who waits has not been answered and is answered once, for its program is in progress. -/
def Once (s : Host) : Prop :=
  (∀ c ∈ s.calls, s.places c = 1) ∧
    ∀ argv, (s.inflight argv).isSome = true → ∃ r ∈ s.runs, r.call.argv = argv

/-- What would answer stems from before a change that is announced: an answer that still
stands, or a program in progress. -/
def stale (s : Host) (argv : Argv) : Bool :=
  match s.cached argv with
  | some e => decide (e.started ≤ s.announced)
  | none => s.runs.any fun r =>
      r.call.argv == argv && r.phase.started.any fun n => decide (n ≤ s.announced)

/-- No status is asked for then. -/
def inTime (s : Host) : Step → Bool
  | .call argv => !(isStatus argv && shared argv && s.stale argv)
  | _ => true

/-! ## Each call has one place -/

variable {s : Host} {argv : Argv} {c d : Call} {i : Nat} {started : Nat} {result : Result}

theorem places_answer (s : Host) (c d : Call) (started : Option Nat) (result : Result) :
    (s.answer c started result).places d = s.places d + [c].count d := by
  change ((s.answers ++ [Answer.mk c started result]).map Answer.call).count d +
    (s.runs.map Run.call).count d + (s.waiting d.argv).count d = s.places d + [c].count d
  have hone : [Answer.mk c started result].map Answer.call = [c] := rfl
  rw [List.map_append, List.count_append, places, hone]
  omega

theorem places_spawn (s : Host) (c d : Call) :
    (s.spawn c).places d = s.places d + [c].count d := by
  change (s.answers.map Answer.call).count d +
    ((s.runs ++ [Run.mk c .queued]).map Run.call).count d + (s.waiting d.argv).count d =
      s.places d + [c].count d
  have hone : [Run.mk c .queued].map Run.call = [c] := rfl
  rw [List.map_append, List.count_append, places, hone]
  omega

theorem waiting_setInflight (s : Host) (argv b : Argv) (waiting : Option (List Call)) :
    (s.setInflight argv waiting).waiting b =
      if b = argv then waiting.getD [] else s.waiting b := by
  by_cases h : b = argv
  · subst h
    simp [Host.waiting, setInflight]
  · simp [Host.waiting, setInflight, h]

theorem places_setInflight (s : Host) (argv : Argv) (waiting : Option (List Call)) (d : Call) :
    (s.setInflight argv waiting).places d + (s.waiting d.argv).count d =
      s.places d + (if d.argv = argv then waiting.getD [] else s.waiting d.argv).count d := by
  simp only [places, waiting_setInflight]
  have ha : (s.setInflight argv waiting).answers = s.answers := rfl
  have hr : (s.setInflight argv waiting).runs = s.runs := rfl
  rw [ha, hr]
  omega

theorem places_join {l : List Call}
    (hl : s.inflight c.argv = some l) (d : Call) :
    (s.setInflight c.argv (some (l ++ [c]))).places d = s.places d + [c].count d := by
  have hw : s.waiting c.argv = l := by rw [waiting, hl, Option.getD_some]
  have h := s.places_setInflight c.argv (some (l ++ [c])) d
  by_cases hd : d.argv = c.argv
  · rw [if_pos hd, hd, hw, Option.getD_some, List.count_append] at h
    omega
  · have hne : [c].count d = 0 :=
      List.count_eq_zero.mpr fun hmem => hd (congrArg Call.argv (List.mem_singleton.mp hmem))
    rw [if_neg hd] at h
    omega

theorem places_first (hnone : s.inflight argv = none) (d : Call) :
    (s.setInflight argv (some [])).places d = s.places d := by
  have hw : s.waiting argv = [] := by rw [waiting, hnone, Option.getD_none]
  have h := s.places_setInflight argv (some []) d
  by_cases hd : d.argv = argv
  · rw [if_pos hd, hd, hw] at h
    exact Nat.add_right_cancel h
  · rw [if_neg hd] at h
    exact Nat.add_right_cancel h

theorem places_wake (hwaits : ∀ b, ∀ c ∈ s.waiting b, c.argv = b) (argv : Argv) (started : Nat)
    (result : Result) (d : Call) : (s.wake argv started result).places d = s.places d := by
  have h := s.places_setInflight argv none d
  have hplaces : (s.wake argv started result).places d =
      (s.setInflight argv none).places d + (s.waiting argv).count d := by
    change ((s.answers ++ (s.waiting argv).map _).map Answer.call).count d +
      (s.runs.map Run.call).count d + ((s.setInflight argv none).waiting d.argv).count d = _
    rw [List.map_append, List.count_append, List.map_map]
    have hid : (s.waiting argv).map (Answer.call ∘ fun c => ⟨c, some started, result⟩) =
        s.waiting argv := List.map_id'' (fun _ => rfl) _
    rw [hid, places]
    have ha : (s.setInflight argv none).answers = s.answers := rfl
    have hr : (s.setInflight argv none).runs = s.runs := rfl
    rw [ha, hr]
    omega
  by_cases hd : d.argv = argv
  · rw [if_pos hd, hd, Option.getD_none, List.count_nil] at h
    omega
  · have hne : (s.waiting argv).count d = 0 :=
      List.count_eq_zero.mpr fun hmem => hd (hwaits argv d hmem)
    rw [if_neg hd] at h
    omega

theorem places_eraseIdx {run : Run} (hrun : s.runs[i]? = some run) (d : Call) :
    s.places d = ({ s with runs := s.runs.eraseIdx i } : Host).places d + [run.call].count d := by
  obtain ⟨hi, rfl⟩ := List.getElem?_eq_some_iff.mp hrun
  have hperm := ((List.getElem_cons_eraseIdx_perm hi).map Run.call).count_eq d
  rw [List.map_cons, ← List.singleton_append, List.count_append] at hperm
  change _ = (s.answers.map Answer.call).count d + ((s.runs.eraseIdx i).map Run.call).count d +
    (s.waiting d.argv).count d + [s.runs[i].call].count d
  rw [places]
  omega

theorem calls_setRun {run : Run} (hrun : s.runs[i]? = some run) (phase : Phase) :
    (s.setRun i ⟨run.call, phase⟩).runs.map Run.call = s.runs.map Run.call := by
  obtain ⟨hi, rfl⟩ := List.getElem?_eq_some_iff.mp hrun
  change (s.runs.set i ⟨s.runs[i].call, phase⟩).map Run.call = _
  rw [List.map_set]
  apply List.ext_getElem (by rw [List.length_set])
  intro k _ _
  rw [List.getElem_set]
  split
  · next h =>
      subst h
      rw [List.getElem_map]
  · rfl

theorem places_setRun {run : Run} (hrun : s.runs[i]? = some run) (phase : Phase) (d : Call) :
    (s.setRun i ⟨run.call, phase⟩).places d = s.places d := by
  rw [places, calls_setRun hrun phase]
  rfl

/-- The calls that were made and those in progress agree. -/
structure Accounted (s : Host) : Prop where
  placed : ∀ c, s.places c = s.calls.count c
  ids : ∀ c ∈ s.calls, c.id < s.calls.length
  nodup : s.calls.Nodup
  waits : ∀ argv, ∀ c ∈ s.waiting argv, c.argv = argv
  owned : ∀ argv, (s.inflight argv).isSome = true →
    shared argv = true ∧ ∃ r ∈ s.runs, r.call.argv = argv

theorem enter_cases (s : Host) (c : Call) :
    (allowed c.argv = false ∧ s.enter c = s.answer c none (.error (notAllowed c.argv))) ∨
    (∃ e, shared c.argv = true ∧ s.cached c.argv = some e ∧
      s.enter c = s.answer c (some e.started) (.ok e.value)) ∨
    (∃ l, shared c.argv = true ∧ s.cached c.argv = none ∧ s.inflight c.argv = some l ∧
      s.enter c = s.setInflight c.argv (some (l ++ [c]))) ∨
    (shared c.argv = true ∧ s.inflight c.argv = none ∧
      s.enter c = (s.setInflight c.argv (some [])).spawn c) ∨
    (shared c.argv = false ∧ s.enter c = s.spawn c) := by
  cases hallowed : allowed c.argv with
  | false => exact .inl ⟨rfl, by simp [enter, hallowed]⟩
  | true =>
      refine .inr ?_
      cases hshared : shared c.argv with
      | false => exact .inr (.inr (.inr ⟨rfl, by simp [enter, hallowed, hshared]⟩))
      | true =>
          have henter : s.enter c = s.share c := by simp [enter, hallowed, hshared]
          rw [henter, share]
          cases hcached : s.cached c.argv with
          | some e => exact .inl ⟨e, rfl, rfl, rfl⟩
          | none =>
              refine .inr ?_
              cases hinflight : s.inflight c.argv with
              | some l => exact .inl ⟨l, rfl, rfl, rfl, rfl⟩
              | none => exact .inr (.inl ⟨rfl, rfl, rfl⟩)

theorem Accounted.once (h : s.Accounted) : s.Once :=
  ⟨fun c hc => (h.placed c).trans (List.count_eq_one_of_mem h.nodup hc),
    fun argv hsome => (h.owned argv hsome).2⟩

/-! ## What a step does to them -/

theorem places_enter (s : Host) (c d : Call) :
    (s.enter c).places d = s.places d + [c].count d := by
  obtain ⟨-, h'⟩ | ⟨e, -, -, h'⟩ | ⟨l, -, -, hl, h'⟩ | ⟨-, hnone, h'⟩ | ⟨-, h'⟩ := s.enter_cases c
  · rw [h', places_answer]
  · rw [h', places_answer]
  · rw [h', places_join hl]
  · rw [h', places_spawn, places_first hnone]
  · rw [h', places_spawn]

theorem Accounted.waits_enter (h : s.Accounted) {b : Argv} (hd : d ∈ (s.enter c).waiting b) :
    d.argv = b := by
  obtain ⟨-, h'⟩ | ⟨e, -, -, h'⟩ | ⟨l, -, -, hl, h'⟩ | ⟨-, hnone, h'⟩ | ⟨-, h'⟩ := s.enter_cases c
  · rw [h'] at hd
    exact h.waits b d hd
  · rw [h'] at hd
    exact h.waits b d hd
  · rw [h', waiting_setInflight] at hd
    split at hd
    · next hb =>
        subst hb
        rcases List.mem_append.mp hd with hd | hd
        · exact h.waits c.argv d (by rwa [waiting, hl, Option.getD_some])
        · rw [List.mem_singleton.mp hd]
    · exact h.waits b d hd
  · rw [h'] at hd
    replace hd : d ∈ (s.setInflight c.argv (some [])).waiting b := hd
    rw [waiting_setInflight] at hd
    split at hd
    · exact absurd hd List.not_mem_nil
    · exact h.waits b d hd
  · rw [h'] at hd
    exact h.waits b d hd

theorem Accounted.owned_enter (h : s.Accounted) {b : Argv}
    (hb : ((s.enter c).inflight b).isSome = true) :
    shared b = true ∧ ∃ r ∈ (s.enter c).runs, r.call.argv = b := by
  obtain ⟨-, h'⟩ | ⟨e, -, -, h'⟩ | ⟨l, -, -, hl, h'⟩ | ⟨hshared, hnone, h'⟩ | ⟨-, h'⟩ :=
    s.enter_cases c
  · rw [h'] at hb ⊢
    exact h.owned b hb
  · rw [h'] at hb ⊢
    exact h.owned b hb
  · rw [h'] at hb ⊢
    by_cases hbc : b = c.argv
    · exact h.owned b (by rw [hbc, hl, Option.isSome_some])
    · replace hb : (Function.update s.inflight c.argv (some (l ++ [c])) b).isSome = true := hb
      rw [Function.update_of_ne hbc] at hb
      exact h.owned b hb
  · rw [h'] at hb ⊢
    by_cases hbc : b = c.argv
    · exact ⟨hbc ▸ hshared, ⟨c, .queued⟩, List.mem_append_right _ List.mem_cons_self, hbc.symm⟩
    · replace hb : (Function.update s.inflight c.argv (some []) b).isSome = true := hb
      rw [Function.update_of_ne hbc] at hb
      obtain ⟨hshared, r, hr, hrb⟩ := h.owned b hb
      exact ⟨hshared, r, List.mem_append_left _ hr, hrb⟩
  · rw [h'] at hb ⊢
    obtain ⟨hshared, r, hr, hrb⟩ := h.owned b hb
    exact ⟨hshared, r, List.mem_append_left _ hr, hrb⟩

theorem Accounted.next_notMem (h : s.Accounted) (argv : Argv) : s.next argv ∉ s.calls :=
  fun hmem => Nat.lt_irrefl _ (h.ids _ hmem)

theorem Accounted.call (h : s.Accounted) (argv : Argv) : (s.call argv).Accounted where
  placed d := by
    change (s.enter (s.next argv)).places d = (s.calls ++ [s.next argv]).count d
    rw [places_enter, h.placed, List.count_append]
  ids d hd := by
    change d.id < (s.calls ++ [s.next argv]).length
    rw [List.length_append]
    rcases List.mem_append.mp hd with hd | hd
    · exact Nat.lt_add_right _ (h.ids d hd)
    · rw [List.mem_singleton.mp hd]
      exact Nat.lt_succ_self _
  nodup := List.nodup_append'.mpr ⟨h.nodup, List.nodup_singleton _,
    List.disjoint_singleton.mpr (h.next_notMem argv)⟩
  waits b d hd := h.waits_enter hd
  owned b hb := h.owned_enter hb

theorem Accounted.setRun (h : s.Accounted) {run : Run} (hrun : s.runs[i]? = some run)
    (phase : Phase) : (s.setRun i ⟨run.call, phase⟩).Accounted where
  placed d := (places_setRun hrun phase d).trans (h.placed d)
  ids := h.ids
  nodup := h.nodup
  waits := h.waits
  owned b hb := by
    obtain ⟨hshared, r, hr, hrb⟩ := h.owned b hb
    have hmem : r.call ∈ (s.setRun i ⟨run.call, phase⟩).runs.map Run.call := by
      rw [calls_setRun hrun phase]
      exact List.mem_map_of_mem hr
    obtain ⟨r', hr', hcall⟩ := List.mem_map.mp hmem
    exact ⟨hshared, r', hr', hcall ▸ hrb⟩

theorem keep_frame (s : Host) (argv : Argv) (started : Nat) (result : Result) :
    ∃ cache, s.keep argv started result = { s with cache := cache } := by
  cases result with
  | ok value => exact ⟨_, rfl⟩
  | error e => exact ⟨s.cache, rfl⟩

theorem serve_frame (hshared : (s.inflight argv).isSome = true → shared argv = true)
    (started : Nat) (result : Result) :
    ∃ cache, s.serve argv started result = { s with cache := cache }.wake argv started result := by
  cases h : shared argv with
  | true =>
      obtain ⟨cache, hcache⟩ := s.keep_frame argv started result
      exact ⟨cache, by rw [serve, h, if_pos rfl, hcache]⟩
  | false =>
      have hnone : s.inflight argv = none := by
        rw [← Option.not_isSome_iff_eq_none]
        intro hsome
        exact absurd (hshared hsome) (by rw [h]; exact Bool.false_ne_true)
      refine ⟨s.cache, ?_⟩
      rw [serve, h, if_neg Bool.false_ne_true, wake, setInflight, hnone]
      rw [Function.update_eq_self_iff.mpr hnone.symm, Option.getD_none, List.map_nil,
        List.append_nil]

theorem finish_frame (hshared : (s.inflight c.argv).isSome = true → shared c.argv = true)
    (started finished : Nat) (result : Result) :
    ∃ cache announced, s.announced ≤ announced ∧ announced ≤ max s.announced finished ∧
      s.finish c started finished result =
        ({ s with cache := cache, announced := announced }.wake c.argv started result).answer c
          (some started) result := by
  obtain ⟨cache, hserve⟩ := serve_frame hshared started result
  rw [finish, hserve, announce]
  split
  · exact ⟨_, _, Nat.le_max_left _ _, Nat.le_refl _, rfl⟩
  · exact ⟨_, _, Nat.le_refl _, Nat.le_max_left _ _, rfl⟩

theorem Accounted.finish (h : s.Accounted) {run : Run} (hrun : s.runs[i]? = some run)
    (started finished : Nat) (result : Result) :
    (finish { s with runs := s.runs.eraseIdx i } run.call started finished result).Accounted := by
  obtain ⟨cache, announced, -, -, hfinish⟩ :=
    finish_frame (s := { s with runs := s.runs.eraseIdx i })
      (fun hsome => (h.owned run.call.argv hsome).1) started finished result
  rw [hfinish]
  refine ⟨fun d => ?_, h.ids, h.nodup, fun b d hd => ?_, fun b hb => ?_⟩
  · rw [places_answer, places_wake (by exact h.waits)]
    exact (places_eraseIdx hrun d).symm.trans (h.placed d)
  · replace hd : d ∈ (s.setInflight run.call.argv none).waiting b := hd
    rw [waiting_setInflight] at hd
    split at hd
    · exact absurd hd List.not_mem_nil
    · exact h.waits b d hd
  · replace hb : (Function.update s.inflight run.call.argv none b).isSome = true := hb
    by_cases hbc : b = run.call.argv
    · rw [hbc, Function.update_self] at hb
      exact absurd hb Bool.false_ne_true
    · rw [Function.update_of_ne hbc] at hb
      obtain ⟨hshared, r, hr, hrb⟩ := h.owned b hb
      obtain ⟨hi, rfl⟩ := List.getElem?_eq_some_iff.mp hrun
      refine ⟨hshared, r, ?_, hrb⟩
      rcases List.mem_cons.mp ((List.getElem_cons_eraseIdx_perm hi).mem_iff.mpr hr) with heq | hr
      · exact absurd (hrb.symm.trans (congrArg (fun r => r.call.argv) heq)) hbc
      · exact hr

theorem starts_cases {t : Host} (h : s.step (.starts i) = some t) :
    ∃ run, s.runs[i]? = some run ∧ t = s.setRun i ⟨run.call, .running s.clock⟩ := by
  rw [step] at h
  split at h
  · next c hrun => exact ⟨_, hrun, (Option.some.inj h).symm⟩
  · cases h

theorem ends_cases {t : Host} (h : s.step (.ends i result) = some t) :
    ∃ run n, s.runs[i]? = some run ∧ run.phase = .running n ∧
      t = s.setRun i ⟨run.call, .ended n s.clock result⟩ := by
  rw [step] at h
  split at h
  · next c n hrun => exact ⟨_, n, hrun, rfl, (Option.some.inj h).symm⟩
  · cases h

theorem resumes_cases {t : Host} (h : s.step (.resumes i) = some t) :
    ∃ run n f res, s.runs[i]? = some run ∧ run.phase = .ended n f res ∧
      t = finish { s with runs := s.runs.eraseIdx i } run.call n f res := by
  rw [step] at h
  split at h
  · next c n f res hrun => exact ⟨_, n, f, res, hrun, rfl, (Option.some.inj h).symm⟩
  · cases h

theorem Accounted.step {t : Host} {a : Step} (h : s.Accounted) (ht : s.step a = some t) :
    t.Accounted := by
  cases a with
  | tick ms =>
      cases ht
      exact ⟨h.placed, h.ids, h.nodup, h.waits, h.owned⟩
  | call argv =>
      cases ht
      exact h.call argv
  | starts i =>
      obtain ⟨run, hrun, rfl⟩ := starts_cases ht
      exact h.setRun hrun _
  | ends i result =>
      obtain ⟨run, n, hrun, -, rfl⟩ := ends_cases ht
      exact h.setRun hrun _
  | resumes i =>
      obtain ⟨run, n, f, res, hrun, -, rfl⟩ := resumes_cases ht
      exact h.finish hrun n f res

/-! ## Status answers are from after the change -/

theorem Accounted.mem_of_waiting (h : s.Accounted) (hc : c ∈ s.waiting argv) : c ∈ s.calls := by
  have hargv := h.waits argv c hc
  subst hargv
  have hpos := List.count_pos_iff.mpr hc
  have hplaced := h.placed c
  rw [places] at hplaced
  exact List.count_pos_iff.mp (by omega)

theorem Accounted.mem_of_run (h : s.Accounted) {r : Run} (hr : r ∈ s.runs) :
    r.call ∈ s.calls := by
  have hpos := List.count_pos_iff.mpr (List.mem_map_of_mem (f := Run.call) hr)
  have hplaced := h.placed r.call
  rw [places] at hplaced
  exact List.count_pos_iff.mp (by omega)

/-- A program in progress is late enough for the calls that it is to answer. -/
structure Timed (s : Host) : Prop where
  announced : s.announced < s.clock
  since : ∀ c ∈ s.calls, c.since ≤ s.announced
  finished : ∀ r ∈ s.runs, ∀ n f res, r.phase = .ended n f res → f < s.clock
  own : ∀ r ∈ s.runs, ∀ n, r.phase.started = some n → r.call.since < n
  joined : ∀ r ∈ s.runs, isStatus r.call.argv = true → ∀ c ∈ s.waiting r.call.argv,
    ∀ n, r.phase.started = some n → c.since < n
  fresh : s.Fresh

theorem Fresh.answer {n : Option Nat} (h : s.Fresh)
    (hc : isStatus c.argv = true → ∃ m, n = some m ∧ c.since < m) (result : Result) :
    (s.answer c n result).Fresh := by
  intro a ha hstatus
  rcases List.mem_append.mp ha with ha | ha
  · exact h a ha hstatus
  · obtain rfl := List.mem_singleton.mp ha
    exact hc hstatus

theorem Timed.setRun (h : s.Timed) {run : Run} (hrun : s.runs[i]? = some run) {phase : Phase}
    (hfinished : ∀ n f res, phase = .ended n f res → f ≤ s.clock)
    (hstarted : ∀ n, phase.started = some n → run.phase.started = some n ∨ n = s.clock)
    (hacc : s.Accounted) : (s.setRun i ⟨run.call, phase⟩).Timed := by
  have hmem := List.mem_of_getElem? hrun
  have hlt : ∀ c ∈ s.calls, c.since < s.clock :=
    fun c hc => Nat.lt_of_le_of_lt (h.since c hc) h.announced
  refine ⟨Nat.lt_succ_of_lt h.announced, h.since, fun r hr n f res hphase => ?_,
    fun r hr n hn => ?_, fun r hr hstatus c hc n hn => ?_, h.fresh⟩
  · rcases List.mem_or_eq_of_mem_set hr with hr | rfl
    · exact Nat.lt_succ_of_lt (h.finished r hr n f res hphase)
    · exact Nat.lt_succ_of_le (hfinished n f res hphase)
  · rcases List.mem_or_eq_of_mem_set hr with hr | rfl
    · exact h.own r hr n hn
    · rcases hstarted n hn with hn | rfl
      · exact h.own run hmem n hn
      · exact hlt run.call (hacc.mem_of_run hmem)
  · rcases List.mem_or_eq_of_mem_set hr with hr | rfl
    · exact h.joined r hr hstatus c hc n hn
    · rcases hstarted n hn with hn | rfl
      · exact h.joined run hmem hstatus c hc n hn
      · exact hlt c (hacc.mem_of_waiting hc)

theorem lt_of_not_stale {e : Entry} (h : s.stale argv = false) (he : s.cached argv = some e) :
    s.announced < e.started := by
  rw [stale, he] at h
  exact Nat.lt_of_not_le (of_decide_eq_false h)

theorem lt_of_not_stale_of_run {r : Run} {n : Nat} (h : s.stale argv = false)
    (hnone : s.cached argv = none) (hr : r ∈ s.runs) (hargv : r.call.argv = argv)
    (hn : r.phase.started = some n) : s.announced < n := by
  rw [stale, hnone] at h
  have hrun := List.any_eq_false.mp h r hr
  rw [hargv, beq_self_eq_true, Bool.true_and, hn, Option.any_some, decide_eq_true_iff] at hrun
  exact Nat.lt_of_not_le hrun

theorem Timed.enter (h : s.Timed) (hc : c.since = s.announced)
    (hstale : isStatus c.argv = true → shared c.argv = true → s.stale c.argv = false) :
    (∀ r ∈ (s.enter c).runs, r ∈ s.runs ∨ r = ⟨c, .queued⟩) ∧ (s.enter c).Fresh ∧
      ∀ r ∈ s.runs, isStatus r.call.argv = true → ∀ d ∈ (s.enter c).waiting r.call.argv,
        ∀ n, r.phase.started = some n → d.since < n := by
  have hspawned : ∀ r ∈ s.runs ++ [⟨c, .queued⟩], r ∈ s.runs ∨ r = ⟨c, .queued⟩ := by
    intro r hr
    exact (List.mem_append.mp hr).imp_right List.mem_singleton.mp
  obtain ⟨hallowed, h'⟩ | ⟨e, hshared, he, h'⟩ | ⟨l, hshared, hnone, hl, h'⟩ | ⟨-, hnone, h'⟩ |
    ⟨-, h'⟩ := s.enter_cases c
  · rw [h']
    refine ⟨fun r hr => .inl hr, h.fresh.answer (fun hstatus => ?_) _, h.joined⟩
    exact absurd (hallowed.symm.trans (allowed_of_isStatus hstatus)) Bool.false_ne_true
  · rw [h']
    refine ⟨fun r hr => .inl hr, h.fresh.answer (fun hstatus => ⟨e.started, rfl, ?_⟩) _, h.joined⟩
    rw [hc]
    exact lt_of_not_stale (hstale hstatus hshared) he
  · rw [h']
    refine ⟨fun r hr => .inl hr, h.fresh, fun r hr hstatus d hd n hn => ?_⟩
    rw [waiting_setInflight] at hd
    split at hd
    · next hargv =>
        rcases List.mem_append.mp hd with hd | hd
        · exact h.joined r hr hstatus d (by rwa [waiting, hargv, hl, Option.getD_some]) n hn
        · rw [List.mem_singleton.mp hd, hc]
          rw [hargv] at hstatus
          exact lt_of_not_stale_of_run (hstale hstatus hshared) hnone hr hargv hn
    · exact h.joined r hr hstatus d hd n hn
  · rw [h']
    refine ⟨hspawned, h.fresh, fun r hr hstatus d hd n hn => ?_⟩
    replace hd : d ∈ (s.setInflight c.argv (some [])).waiting r.call.argv := hd
    rw [waiting_setInflight] at hd
    split at hd
    · exact absurd hd List.not_mem_nil
    · exact h.joined r hr hstatus d hd n hn
  · rw [h']
    exact ⟨hspawned, h.fresh, h.joined⟩

theorem enter_frame (s : Host) (c : Call) :
    (s.enter c).clock = s.clock ∧ (s.enter c).announced = s.announced := by
  obtain ⟨-, h⟩ | ⟨e, -, -, h⟩ | ⟨l, -, -, -, h⟩ | ⟨-, -, h⟩ | ⟨-, h⟩ := s.enter_cases c
  all_goals
    rw [h]
    exact ⟨rfl, rfl⟩

theorem Timed.call (h : s.Timed) (hin : s.inTime (.call argv) = true) : (s.call argv).Timed := by
  have hstale : isStatus argv = true → shared argv = true → s.stale argv = false := by
    intro hstatus hshared
    rw [inTime, hstatus, hshared, Bool.true_and, Bool.true_and, Bool.not_eq_true'] at hin
    exact hin
  obtain ⟨hruns, hfresh, hjoined⟩ := h.enter (c := s.next argv) rfl hstale
  obtain ⟨hclock, hann⟩ := s.enter_frame (s.next argv)
  constructor
  · change (s.enter (s.next argv)).announced < (s.enter (s.next argv)).clock
    rw [hclock, hann]
    exact h.announced
  · intro c hc
    change c.since ≤ (s.enter (s.next argv)).announced
    rw [hann]
    rcases List.mem_append.mp hc with hc | hc
    · exact h.since c hc
    · rw [List.mem_singleton.mp hc]
      exact Nat.le_refl _
  · intro r hr n f res hphase
    change f < (s.enter (s.next argv)).clock
    rw [hclock]
    rcases hruns r hr with hr | rfl
    · exact h.finished r hr n f res hphase
    · cases hphase
  · intro r hr n hn
    rcases hruns r hr with hr | rfl
    · exact h.own r hr n hn
    · cases hn
  · intro r hr hstatus d hd n hn
    rcases hruns r hr with hr | rfl
    · exact hjoined r hr hstatus d hd n hn
    · cases hn
  · exact hfresh

theorem Timed.finish (h : s.Timed) {run : Run} (hrun : s.runs[i]? = some run) {n f : Nat}
    (hphase : run.phase = .ended n f result) (hacc : s.Accounted) :
    (finish { s with runs := s.runs.eraseIdx i } run.call n f result).Timed := by
  have hmem := List.mem_of_getElem? hrun
  have hstarted : run.phase.started = some n := by rw [hphase, Phase.started]
  have hrest : ∀ r ∈ s.runs.eraseIdx i, r ∈ s.runs := fun r hr => List.mem_of_mem_eraseIdx hr
  obtain ⟨cache, announced, hle, hmax, hfinish⟩ :=
    finish_frame (s := { s with runs := s.runs.eraseIdx i })
      (fun hsome => (hacc.owned run.call.argv hsome).1) n f result
  rw [hfinish]
  refine ⟨?_, fun c hc => Nat.le_trans (h.since c hc) hle,
    fun r hr => h.finished r (hrest r hr), fun r hr => h.own r (hrest r hr), ?_, ?_⟩
  · have hf := h.finished run hmem n f result hphase
    exact Nat.lt_of_le_of_lt hmax (Nat.max_lt.mpr ⟨h.announced, hf⟩)
  · intro r hr hstatus d hd m hm
    replace hd : d ∈ (s.setInflight run.call.argv none).waiting r.call.argv := hd
    rw [waiting_setInflight] at hd
    split at hd
    · exact absurd hd List.not_mem_nil
    · exact h.joined r (hrest r hr) hstatus d hd m hm
  · refine Fresh.answer (fun a ha hstatus => ?_) (fun _ => ⟨n, rfl, h.own run hmem n hstarted⟩) _
    rcases List.mem_append.mp ha with ha | ha
    · exact h.fresh a ha hstatus
    · obtain ⟨d, hd, rfl⟩ := List.mem_map.mp ha
      have hargv := hacc.waits _ d hd
      replace hstatus : isStatus d.argv = true := hstatus
      rw [hargv] at hstatus
      exact ⟨n, rfl, h.joined run hmem hstatus d hd n hstarted⟩

theorem Timed.step {t : Host} {a : Step} (h : s.Timed) (hacc : s.Accounted)
    (ht : s.step a = some t) (hin : s.inTime a = true) : t.Timed := by
  cases a with
  | tick ms =>
      cases ht
      exact ⟨h.announced, h.since, h.finished, h.own, h.joined, h.fresh⟩
  | call argv =>
      cases ht
      exact h.call hin
  | starts i =>
      obtain ⟨run, hrun, rfl⟩ := starts_cases ht
      refine h.setRun hrun (fun n f res hended => ?_)
        (fun n hn => .inr (Option.some.inj hn).symm) hacc
      cases hended
  | ends i result =>
      obtain ⟨run, n, hrun, hphase, rfl⟩ := ends_cases ht
      refine h.setRun hrun (fun m f res hended => ?_) (fun m hm => .inl ?_) hacc
      · cases hended
        exact Nat.le_refl _
      · rw [hphase]
        exact hm
  | resumes i =>
      obtain ⟨run, n, f, res, hrun, hphase, rfl⟩ := resumes_cases ht
      exact h.finish hrun hphase hacc

theorem Accounted.init : ({} : Host).Accounted where
  placed _ := rfl
  ids _ hc := absurd hc List.not_mem_nil
  nodup := List.nodup_nil
  waits _ _ hc := absurd hc List.not_mem_nil
  owned _ hb := absurd hb Bool.false_ne_true

theorem Timed.init : ({} : Host).Timed where
  announced := Nat.zero_lt_one
  since _ hc := absurd hc List.not_mem_nil
  finished _ hr := absurd hr List.not_mem_nil
  own _ hr := absurd hr List.not_mem_nil
  joined _ hr := absurd hr List.not_mem_nil
  fresh _ ha := absurd ha List.not_mem_nil

/-- While no status is asked for at a moment at which a program from before a change would
answer it, the answers are from after the changes. -/
theorem fresh_and_once (steps : List Step)
    (h : Along step (fun s a _ => s.inTime a = true) {} steps) :
    Along step (fun _ _ t => t.Fresh ∧ t.Once) {} steps := by
  refine Along.imp (fun s => s.Accounted ∧ s.Timed) ?_ ?_ ⟨Accounted.init, Timed.init⟩ h
  · exact fun s a t hs ht hin => ⟨hs.1.step ht, hs.2.step hs.1 ht hin⟩
  · exact fun s a t hs ht hin => ⟨(hs.2.step hs.1 ht hin).fresh, (hs.1.step ht).once⟩

def statusArgv : Argv := ["mindos-perf".toList, "status".toList]

def setArgv : Argv := ["mindos-perf".toList, "set".toList, "max".toList]

/-- A status that is asked for after the switch. -/
theorem fresh_and_once_switch :
    Along step (fun _ _ t => t.Fresh ∧ t.Once) {}
      [.call setArgv, .starts 0, .ends 0 (.ok ⟨0, [], []⟩), .resumes 0, .call statusArgv,
        .starts 0, .ends 0 (.ok ⟨0, [], []⟩), .resumes 0] :=
  fresh_and_once _ <|
    .cons rfl (by decide) <| .cons rfl (by decide) <| .cons rfl (by decide) <|
    .cons rfl (by decide) <| .cons rfl (by decide) <| .cons rfl (by decide) <|
    .cons rfl (by decide) <| .cons rfl (by decide) <| trivial

/-- A status program is started, the mode is switched and the switch is announced, and a
window that asks then is answered by the program from before. -/
theorem not_always_fresh :
    ¬∀ steps, Along step (fun _ _ t => t.Fresh ∧ t.Once) {} steps := by
  intro h
  have hgood := h [.call statusArgv, .starts 0, .call setArgv, .starts 1,
    .ends 1 (.ok ⟨0, [], []⟩), .resumes 1, .call statusArgv, .ends 0 (.ok ⟨0, [], []⟩),
    .resumes 0]
  have hfresh := Along.exec (R := Fresh) (fun _ _ _ h => h.1) Timed.init.fresh hgood rfl
  obtain ⟨n, hn, hlt⟩ := hfresh ⟨⟨2, statusArgv, 3⟩, some 1, .ok ⟨0, [], []⟩⟩
    (List.mem_of_getElem? (i := 1) rfl) (by decide)
  cases hn
  exact absurd hlt (by decide)

end Host

end MindOS.Shell.Helpers
