import MindOS.Kernel.Proc.Children

/-!
# The records follow the history

What the kernel keeps of each process, read against its history: states and flags of one
process, and the links between processes. The flags tell of a continue only when the stop
before it was reported.
-/

namespace MindOS.Kernel.Proc

variable {P : Type}

/-- The records of a process and its history agree. -/
structure Agrees (s : Procs P) (f : Family P) (p : P) : Prop where
  born : s.born p = true ↔ f.stage p ≠ .unborn
  threads : s.leaving p = true → s.threads p = 0
  leaving : f.stage p = .zombie ∨ f.stage p = .gone → s.leaving p = true
  stopped : f.stage p ≠ .unborn → (s.state p = .stopped ↔ f.stage p = .stopped)
  zombie : f.stage p ≠ .unborn → (s.state p = .zombie ↔ f.stage p = .zombie ∨ f.stage p = .gone)
  owedStop : f.stage p = .stopped → (f.owed p = true ↔ s.stoppedReported p = false)
  owedContinue : f.stage p = .running → s.stoppedReported p = true →
    (f.owed p = true ↔ s.continuedReported p = false)

/-- Parents, children and the table of pids. -/
structure Linked (init : P) (s : Procs P) (f : Family P) : Prop where
  parent : ∀ c, (f.stage c).Unreaped → s.parent c = f.parent c
  children : ∀ p c, c ∈ s.children p ↔ (f.stage c).Unreaped ∧ f.parent c = some p
  table : ∀ n p, s.table n = some p ↔ (f.stage p).Unreaped ∧ s.pid p = n
  init : f.parent init = none ∧ f.stage init ≠ .unborn ∧ s.pid init = 1
  parentAlive : ∀ c q, (f.stage c).Unreaped → f.parent c = some q → (f.stage q).Alive
  hasParent : ∀ c, f.stage c = .zombie → ∃ q, f.parent c = some q
  irrefl : ∀ c, f.parent c ≠ some c

namespace World

structure Inv (init : P) (w : World P) : Prop where
  agrees : ∀ p, Agrees w.procs w.family p
  linked : Linked init w.procs w.family

theorem Inv.kept {init : P} {w : World P} (h : w.Inv init) : w.Kept where
  registered p := by
    rw [h.linked.table]
    exact (and_iff_left rfl).symm
  parentAlive := h.linked.parentAlive
  zombie := h.linked.hasParent

end World

/-! ### What the records say of a process -/

section Reads

variable {init p c : P} {s : Procs P} {f : Family P} {g : Stage}

theorem Stage.Alive.unreaped (h : g.Alive) : g.Unreaped := .inl h

theorem Stage.Unreaped.ne_unborn (h : g.Unreaped) : g ≠ .unborn := by
  rintro rfl
  obtain (h | h) | h := h <;> cases h

theorem Stage.Unreaped.ne_gone (h : g.Unreaped) : g ≠ .gone := by
  rintro rfl
  obtain (h | h) | h := h <;> cases h

theorem Stage.Alive.ne_zombie (h : g.Alive) : g ≠ .zombie := by
  rintro rfl
  obtain h | h := h <;> cases h

theorem Agrees.alive (h : Agrees s f p) (hp : s.Lives p) : (f.stage p).Alive := by
  have hborn := h.born.mp hp.1
  have hleaving : ¬(f.stage p = .zombie ∨ f.stage p = .gone) := fun hg => by
    have hthreads := h.threads (h.leaving hg)
    exact absurd hp.2 (by rw [hthreads]; exact Nat.lt_irrefl 0)
  cases hg : f.stage p <;> simp_all [Stage.Alive]

theorem Agrees.unborn (h : Agrees s f c) (hc : s.born c = false) : f.stage c = .unborn := by
  by_contra hborn
  rw [h.born.mpr hborn] at hc
  cases hc

theorem Agrees.alive_of_state (h : Agrees s f p) (hborn : s.born p = true)
    (hstate : s.state p ≠ .zombie) : (f.stage p).Alive := by
  have hborn := h.born.mp hborn
  have hzombie := mt (h.zombie hborn).mpr hstate
  cases hg : f.stage p <;> simp_all [Stage.Alive]

/-- The parent of a process that has not been reaped can be reached. -/
theorem Linked.parentOf [DecidableEq P] (h : Linked init s f) (hc : (f.stage c).Unreaped) :
    s.parentOf c = f.parent c := by
  rw [Procs.parentOf, h.parent c hc]
  cases hq : f.parent c with
  | none => rfl
  | some q =>
      have halive := h.parentAlive c q hc hq
      have hregistered : s.table (s.pid q) = some q := (h.table _ _).mpr ⟨halive.unreaped, rfl⟩
      simp [hregistered]

theorem Linked.table_self (h : Linked init s f) (hp : (f.stage p).Unreaped) :
    s.table (s.pid p) = some p := (h.table _ p).mpr ⟨hp, rfl⟩

/-- Pids are unique among those that have not been reaped. -/
theorem Linked.pid_inj (h : Linked init s f) (hp : (f.stage p).Unreaped)
    (hc : (f.stage c).Unreaped) (hpid : s.pid p = s.pid c) : p = c :=
  Option.some.inj ((h.table_self hp).symm.trans (hpid ▸ h.table_self hc))

theorem Linked.table_one (h : Linked init s f) (hinit : (f.stage init).Alive) :
    s.table 1 = some init := h.init.2.2 ▸ h.table_self hinit.unreaped

/-- What `wait` finds of a child is what it is due, but for a continue that is missed. -/
theorem Agrees.found_iff (h : Agrees s f c) (hc : f.stage c ≠ .unborn) (hgone : f.stage c ≠ .gone)
    (options : Nat) (r : Report) :
    s.found options c = some r ↔
      f.Due options c r ∧ ¬(⟨s, f⟩ : World P).Missed c := by
  have hstopped := h.stopped hc
  have hzombie := h.zombie hc
  unfold Procs.found World.Missed
  cases hg : f.stage c with
  | unborn => exact absurd hg hc
  | gone => exact absurd hg hgone
  | zombie =>
      rw [if_pos (hzombie.mpr (.inl hg))]
      cases r <;> simp [Family.Due, hg]
  | stopped =>
      have howed := h.owedStop hg
      rw [if_neg fun hs => by simp [hg] at hzombie; exact hzombie hs]
      have hstate := hstopped.mpr hg
      cases r <;> simp [Family.Due, hg, hstate, howed]
  | running =>
      have howed := h.owedContinue hg
      have hstate : s.state c = .running := by
        cases hs : s.state c <;> simp_all
      cases r <;> cases hsr : s.stoppedReported c <;> simp_all [Family.Due]

end Reads

/-! ### What the steps keep -/

section Steps

variable [DecidableEq P] {init p c : P} {s : Procs P} {f : Family P} {g : Stage}

theorem Family.setStage_self (f : Family P) (p : P) (g : Stage) : (f.setStage p g).stage p = g :=
  Function.update_self ..

theorem Family.setStage_of_ne (f : Family P) {p c : P} (h : c ≠ p) (g : Stage) :
    (f.setStage p g).stage c = f.stage c := Function.update_of_ne h ..

/-- A process that lives on is as it was to those around it. -/
theorem Linked.setStage (h : Linked init s f) (hp : (f.stage p).Alive) (hg : g.Alive) :
    Linked init s (f.setStage p g) := by
  have hunreaped : ∀ c, ((f.setStage p g).stage c).Unreaped ↔ (f.stage c).Unreaped := fun c => by
    by_cases hc : c = p
    · rw [hc, f.setStage_self]
      exact iff_of_true hg.unreaped hp.unreaped
    · rw [f.setStage_of_ne hc]
  have halive : ∀ c, (f.stage c).Alive → ((f.setStage p g).stage c).Alive := fun c hc => by
    by_cases hcp : c = p
    · rw [hcp, f.setStage_self]
      exact hg
    · rwa [f.setStage_of_ne hcp]
  refine ⟨fun c hc => h.parent c ((hunreaped c).mp hc), fun q c => ?_, fun n c => ?_,
    ⟨h.init.1, ?_, h.init.2.2⟩, fun c q hc hq => ?_, fun c hc => ?_, h.irrefl⟩
  · rw [hunreaped]
    exact h.children q c
  · rw [hunreaped]
    exact h.table n c
  · by_cases hi : init = p
    · rw [hi, f.setStage_self]
      exact hg.unreaped.ne_unborn
    · rw [f.setStage_of_ne hi]
      exact h.init.2.1
  · exact halive q (h.parentAlive c q ((hunreaped c).mp hc) hq)
  · by_cases hcp : c = p
    · rw [hcp, f.setStage_self] at hc
      exact absurd hc hg.ne_zombie
    · rw [f.setStage_of_ne hcp] at hc
      exact h.hasParent c hc

omit [DecidableEq P] in
theorem Agrees.congr {s' : Procs P} {f' : Family P} (h : Agrees s f p)
    (hborn : s'.born p = s.born p) (hthreads : s'.threads p = s.threads p)
    (hleaving : s'.leaving p = s.leaving p) (hstate : s'.state p = s.state p)
    (hstop : s'.stoppedReported p = s.stoppedReported p)
    (hcont : s'.continuedReported p = s.continuedReported p)
    (hstage : f'.stage p = f.stage p) (howed : f'.owed p = f.owed p) : Agrees s' f' p := by
  constructor
  · rw [hborn, hstage]
    exact h.born
  · rw [hleaving, hthreads]
    exact h.threads
  · rw [hstage, hleaving]
    exact h.leaving
  · rw [hstage, hstate]
    exact h.stopped
  · rw [hstage, hstate]
    exact h.zombie
  · rw [hstage, howed, hstop]
    exact h.owedStop
  · rw [hstage, howed, hstop, hcont]
    exact h.owedContinue

theorem agrees_doStop (h : ∀ c, Agrees s f c) (hp : (f.stage p).Alive) (signo : Int) (c : P) :
    Agrees (s.doStop p signo) ((f.setStage p .stopped).setOwed p true) c := by
  by_cases hc : c = p
  · rw [hc]
    have hstage : ((f.setStage p .stopped).setOwed p true).stage p = .stopped := f.setStage_self p _
    have hstate : (s.doStop p signo).state p = .stopped := Function.update_self ..
    have howed : ((f.setStage p .stopped).setOwed p true).owed p = true := Function.update_self ..
    have hreported : (s.doStop p signo).stoppedReported p = false := Function.update_self ..
    constructor
    · rw [hstage]
      exact iff_of_true ((h p).born.mpr hp.unreaped.ne_unborn) nofun
    · exact (h p).threads
    · simp [hstage]
    · simp [hstage, hstate]
    · simp [hstage, hstate]
    · simp [howed, hreported]
    · simp [hstage]
  · exact (h c).congr rfl rfl rfl (Function.update_of_ne hc ..) (Function.update_of_ne hc ..) rfl
      (f.setStage_of_ne hc _) (Function.update_of_ne hc ..)

theorem agrees_sendCont (h : ∀ c, Agrees s f c) (hp : f.stage p = .stopped) (c : P) :
    Agrees (s.sendCont p) ((f.setStage p .running).setOwed p true) c := by
  have hstopped : s.state p = .stopped := ((h p).stopped (by simp [hp])).mpr hp
  rw [Procs.sendCont, if_pos hstopped]
  by_cases hc : c = p
  · rw [hc]
    have hstage : ((f.setStage p .running).setOwed p true).stage p = .running := f.setStage_self p _
    have howed : ((f.setStage p .running).setOwed p true).owed p = true := Function.update_self ..
    constructor
    · rw [hstage]
      exact iff_of_true ((h p).born.mpr (by simp [hp])) nofun
    · exact (h p).threads
    · simp [hstage]
    · simp [hstage, Procs.setState]
    · simp [hstage, Procs.setState]
    · simp [hstage]
    · simp [howed]
  · exact (h c).congr rfl rfl rfl (Function.update_of_ne hc ..) rfl (Function.update_of_ne hc ..)
      (f.setStage_of_ne hc _) (Function.update_of_ne hc ..)

/-! ### Reaping -/

/-- A process that no other has for its parent is reaped. -/
theorem Linked.gone {s' : Procs P} (h : Linked init s f)
    (halone : ∀ c, (f.stage c).Unreaped → f.parent c ≠ some p) (hparent : s'.parent = s.parent)
    (hpid : s'.pid = s.pid) (htable : s'.table = Function.update s.table (s.pid p) none)
    (hp : (f.stage p).Unreaped)
    (hchildren : ∀ q c, c ∈ s'.children q ↔ c ∈ s.children q ∧ c ≠ p) :
    Linked init s' (f.setStage p .gone) := by
  have hunreaped : ∀ c, ((f.setStage p .gone).stage c).Unreaped ↔ (f.stage c).Unreaped ∧ c ≠ p := by
    intro c
    by_cases hc : c = p
    · rw [hc, f.setStage_self]
      exact iff_of_false (fun hg => hg.ne_gone rfl) fun hg => hg.2 rfl
    · rw [f.setStage_of_ne hc]
      exact (and_iff_left hc).symm
  refine ⟨fun c hc => ?_, fun q c => ?_, fun n c => ?_, ⟨h.init.1, ?_, ?_⟩, fun c q hc hq => ?_,
    fun c hc => ?_, h.irrefl⟩
  · rw [hparent]
    exact h.parent c ((hunreaped c).mp hc).1
  · rw [hchildren, hunreaped, h.children]
    exact and_right_comm
  · rw [htable, hunreaped, hpid]
    by_cases hn : n = s.pid p
    · rw [hn, Function.update_self]
      refine iff_of_false nofun fun hc => hc.1.2 ?_
      exact h.pid_inj hc.1.1 hp hc.2
    · rw [Function.update_of_ne hn, h.table]
      refine ⟨fun hc => ⟨⟨hc.1, fun hcp => hn ?_⟩, hc.2⟩, fun hc => ⟨hc.1.1, hc.2⟩⟩
      rw [← hc.2, hcp]
  · by_cases hi : init = p
    · rw [hi, f.setStage_self]
      nofun
    · rw [f.setStage_of_ne hi]
      exact h.init.2.1
  · rw [hpid]
    exact h.init.2.2
  · have hc := ((hunreaped c).mp hc).1
    have hqp : q ≠ p := fun hqp => halone c hc (hqp ▸ hq)
    rw [f.setStage_of_ne hqp]
    exact h.parentAlive c q hc hq
  · by_cases hcp : c = p
    · rw [hcp, f.setStage_self] at hc
      cases hc
    · rw [f.setStage_of_ne hcp] at hc
      exact h.hasParent c hc

/-- Taking a pid off the parent's list takes the one child that has it. -/
theorem Linked.mem_filter_pid (h : Linked init s f) {q : P} (hp : (f.stage p).Unreaped)
    (hq : f.parent p = some q) (r c : P) :
    c ∈ (s.setChildren q ((s.children q).filter fun x => s.pid x ≠ s.pid p)).children r ↔
      c ∈ s.children r ∧ c ≠ p := by
  by_cases hr : r = q
  · rw [hr, Procs.setChildren_self, List.mem_filter, decide_eq_true_eq]
    refine and_congr_right fun hc => not_congr ⟨fun hpid => ?_, fun hcp => by rw [hcp]⟩
    exact h.pid_inj ((h.children q c).mp hc).1 hp hpid
  · rw [Procs.setChildren_of_ne s hr]
    refine ⟨fun hc => ⟨hc, fun hcp => hr ?_⟩, And.left⟩
    rw [hcp, h.children, hq] at hc
    exact (Option.some.inj hc.2).symm

omit [DecidableEq P] in
theorem Linked.alone_of_zombie (h : Linked init s f) (hp : f.stage p = .zombie) (c : P)
    (hc : (f.stage c).Unreaped) : f.parent c ≠ some p := fun hparent =>
  (h.parentAlive c p hc hparent).ne_zombie hp

theorem agrees_gone {s' : Procs P} (h : ∀ c, Agrees s f c) (hp : f.stage p = .zombie)
    (hs : s'.born = s.born ∧ s'.threads = s.threads ∧ s'.leaving = s.leaving ∧ s'.state = s.state ∧
      s'.stoppedReported = s.stoppedReported ∧ s'.continuedReported = s.continuedReported)
    (c : P) : Agrees s' (f.setStage p .gone) c := by
  obtain ⟨hborn, hthreads, hleaving, hstate, hstop, hcont⟩ := hs
  by_cases hc : c = p
  · rw [hc]
    have hpborn : f.stage p ≠ .unborn := by simp [hp]
    have hstage := f.setStage_self p .gone
    constructor
    · rw [hborn, hstage]
      exact iff_of_true ((h p).born.mpr hpborn) nofun
    · rw [hleaving, hthreads]
      exact (h p).threads
    · rw [hleaving]
      exact fun _ => (h p).leaving (.inl hp)
    · have hnot : s.state p ≠ .stopped := by simp [(h p).stopped hpborn, hp]
      simp [hstage, hstate, hnot]
    · have hzombie := ((h p).zombie hpborn).mpr (.inl hp)
      simp [hstage, hstate, hzombie]
    · simp [hstage]
    · simp [hstage]
  · exact (h c).congr (by rw [hborn]) (by rw [hthreads]) (by rw [hleaving]) (by rw [hstate])
      (by rw [hstop]) (by rw [hcont]) (f.setStage_of_ne hc _) rfl

end Steps

end MindOS.Kernel.Proc
