import MindOS.Kernel.Proc.Lifetimes

/-!
# Children are reaped once

`wait` answers by the records, and these follow the history as long as init is there for the
children of a process that exits. A continue is missed when the stop before it was not
reported.
-/

namespace MindOS.Kernel.Proc

open Transition

variable {P : Type} [DecidableEq P] {init p c : P} {s : Procs P} {f : Family P} {g : Stage}

/-! ### Wait -/

section Answers

variable {me : P} {which : Int} {options : Nat}

omit [DecidableEq P] in
/-- A report is about a child that `wait` asks for, and is what it finds of it. -/
theorem answer_report {r : Report} {status : Int}
    (h : s.answer me which options = .report c r status) :
    c ∈ s.asked me which ∧ s.found options c = some r := by
  rw [Procs.answer] at h
  split at h
  next d r' hfind =>
    cases h
    obtain ⟨d, hd, hfound⟩ := List.exists_of_findSome?_eq_some hfind
    obtain ⟨r', hr, hpair⟩ := Option.map_eq_some_iff.mp hfound
    cases hpair
    exact ⟨hd, hr⟩
  next => split at h <;> [skip; split at h] <;> cases h

omit [DecidableEq P] in
theorem found_of_answer (h : ∀ c r status, s.answer me which options ≠ .report c r status)
    (hc : c ∈ s.asked me which) : s.found options c = none := by
  rw [Procs.answer] at h
  split at h
  next d r hfind => exact absurd rfl (h d r _)
  next hfind =>
    have hnone := List.findSome?_eq_none_iff.mp hfind c hc
    exact Option.map_eq_none_iff.mp hnone

omit [DecidableEq P] in
theorem answer_noChild (h : s.answer me which options = .noChild) : s.asked me which = [] := by
  rw [Procs.answer] at h
  split at h
  next => cases h
  next =>
    split at h
    case isTrue hnil => exact hnil
    case isFalse => split at h <;> cases h

omit [DecidableEq P] in
theorem Linked.mem_asked (h : Linked init s f) :
    c ∈ s.asked me which ↔ (f.stage c).Unreaped ∧ f.Asked s me which c := by
  rw [Procs.asked, List.mem_filter, h.children, decide_eq_true_eq, and_assoc]
  rfl

end Answers

theorem World.Inv.wait {w : World P} (h : w.Inv init) (me : P) (which : Int) (options : Nat) :
    World.Inv init ⟨w.procs.wait me which options,
      w.family.next init w.procs (.wait me which options)⟩ := by
  obtain ⟨s, f⟩ := w
  rw [Procs.wait, Family.next]
  dsimp only
  cases hanswer : s.answer me which options with
  | report c r status =>
      obtain ⟨hmem, hfound⟩ := answer_report hanswer
      obtain ⟨hc, hparent, -⟩ := h.linked.mem_asked.mp hmem
      have hdue := (((h.agrees c).found_iff hc.ne_unborn hc.ne_gone options r).mp hfound).1
      cases r with
      | exited =>
          dsimp only [Procs.told]
          split
          case isTrue =>
            exact ⟨agrees_gone h.agrees hdue ⟨rfl, rfl, rfl, rfl, rfl, rfl⟩,
              h.linked.gone (h.linked.alone_of_zombie hdue) rfl rfl rfl hc
                (h.linked.mem_filter_pid hc hparent)⟩
          case isFalse => exact h
      | stopped =>
          refine ⟨fun x => ?_, (h.linked.setOwed false).congr rfl rfl rfl rfl⟩
          by_cases hx : x = c
          · rw [hx]
            have hcc := h.agrees c
            refine ⟨hcc.born, hcc.threads, hcc.leaving, hcc.stopped, hcc.zombie, fun _ => ?_,
              fun hrunning => ?_⟩
            · simp [Family.setOwed, Procs.told]
            · exact absurd (hdue.2.1.symm.trans hrunning) (by decide)
          · exact (h.agrees x).congr rfl rfl rfl rfl (Function.update_of_ne hx ..) rfl rfl
              (Function.update_of_ne hx ..)
      | continued =>
          refine ⟨fun x => ?_, (h.linked.setOwed false).congr rfl rfl rfl rfl⟩
          by_cases hx : x = c
          · rw [hx]
            have hcc := h.agrees c
            refine ⟨hcc.born, hcc.threads, hcc.leaving, hcc.stopped, hcc.zombie, fun hstopped => ?_,
              fun _ hreported => ?_⟩
            · exact absurd (hdue.2.1.symm.trans hstopped) (by decide)
            · simp [Procs.told] at hreported
          · exact (h.agrees x).congr rfl rfl rfl rfl (Function.update_of_ne hx ..)
              (Function.update_of_ne hx ..) rfl (Function.update_of_ne hx ..)
  | _ => exact h

namespace World

variable {w w' : World P} {a : Act P}

omit [DecidableEq P] in
theorem Inv.withProcs (h : w.Inv init) {s : Procs P} (hborn : s.born = w.procs.born)
    (hthreads : ∀ p, w.procs.leaving p = true → s.threads p = 0)
    (hleaving : s.leaving = w.procs.leaving) (hstate : s.state = w.procs.state)
    (hstop : s.stoppedReported = w.procs.stoppedReported)
    (hcont : s.continuedReported = w.procs.continuedReported)
    (hparent : s.parent = w.procs.parent) (hchildren : s.children = w.procs.children)
    (hpid : s.pid = w.procs.pid) (htable : s.table = w.procs.table) :
    Inv init ⟨s, w.family⟩ := by
  refine ⟨fun p => ?_, h.linked.congr hparent hchildren hpid htable⟩
  have hp := h.agrees p
  constructor
  · rw [hborn]
    exact hp.born
  · rw [hleaving]
    exact hthreads p
  · rw [hleaving]
    exact hp.leaving
  · rw [hstate]
    exact hp.stopped
  · rw [hstate]
    exact hp.zombie
  · rw [hstop]
    exact hp.owedStop
  · rw [hstop, hcont]
    exact hp.owedContinue

/-- A thread is gone; after the last one the process is leaving. -/
theorem Inv.taskExit (h : w.Inv init) (p : P) (code : Int) :
    Inv init ⟨w.procs.taskExit p code, w.family⟩ := by
  have hless : ∀ q, w.procs.leaving q = true →
      Function.update w.procs.threads p (w.procs.threads p - 1) q = 0 := fun q hq => by
    have hthreads := (h.agrees q).threads hq
    by_cases hqp : q = p
    · rw [hqp] at hthreads ⊢
      rw [Function.update_self, hthreads]
    · rwa [Function.update_of_ne hqp]
  rw [Procs.taskExit]
  split
  case isTrue => exact h.withProcs rfl hless rfl rfl rfl rfl rfl rfl rfl rfl
  case isFalse hlast =>
    refine ⟨fun q => ?_, h.linked.congr rfl rfl rfl rfl⟩
    have hq := h.agrees q
    by_cases hqp : q = p
    · rw [hqp] at hq ⊢
      refine ⟨hq.born, fun _ => ?_, fun _ => Function.update_self .., hq.stopped, hq.zombie,
        hq.owedStop, hq.owedContinue⟩
      exact Nat.eq_zero_of_not_pos hlast
    · exact hq.congr rfl (Function.update_of_ne hqp ..) (Function.update_of_ne hqp ..) rfl rfl rfl
        rfl rfl

/-- Every step keeps the invariant, if the children of a process that exits have an init to
go to. -/
theorem Inv.step (h : w.Inv init) (hsound : w.Sound init a) (hstep : w.step init a = some w') :
    w'.Inv init := by
  obtain ⟨s, hs, rfl⟩ := Option.map_eq_some_iff.mp hstep
  cases a with
  | fork p c pid viaParent starts =>
      rw [Procs.step] at hs
      split at hs <;> cases hs
      next hguard => exact h.fork hguard.1 hguard.2 viaParent starts
  | forkFails p c pid =>
      rw [Procs.step] at hs
      split at hs <;> cases hs
      next hguard => exact h.forkFails hguard.2
  | addThread p =>
      rw [Procs.step] at hs
      split at hs <;> cases hs
      next hlives =>
        refine h.withProcs rfl (fun q hq => ?_) rfl rfl rfl rfl rfl rfl rfl rfl
        have hthreads := (h.agrees q).threads hq
        have hqp : q ≠ p := fun hqp => by
          rw [hqp] at hthreads
          exact absurd hlives.2 (by rw [hthreads]; exact Nat.lt_irrefl 0)
        exact (Function.update_of_ne hqp ..).trans hthreads
  | exitGroup p code =>
      rw [Procs.step] at hs
      split at hs <;> cases hs
      exact h.withProcs rfl (fun q => (h.agrees q).threads) rfl rfl rfl rfl rfl rfl rfl rfl
  | exitGroupSignal p signo =>
      rw [Procs.step] at hs
      split at hs <;> cases hs
      exact h.withProcs rfl (fun q => (h.agrees q).threads) rfl rfl rfl rfl rfl rfl rfl rfl
  | taskExit p code =>
      rw [Procs.step] at hs
      split at hs <;> cases hs
      exact h.taskExit p code
  | processExit p =>
      rw [Procs.step] at hs
      split at hs <;> cases hs
      next hguard => exact h.processExit hguard.1 hguard.2.1 hguard.2.2 hsound
  | setAction p a =>
      rw [Procs.step] at hs
      split at hs <;> cases hs
      exact h.withProcs rfl (fun q => (h.agrees q).threads) rfl rfl rfl rfl rfl rfl rfl rfl
  | setPgid p g =>
      rw [Procs.step] at hs
      split at hs <;> cases hs
      exact h.withProcs rfl (fun q => (h.agrees q).threads) rfl rfl rfl rfl rfl rfl rfl rfl
  | doStop p signo =>
      rw [Procs.step] at hs
      split at hs <;> cases hs
      next hlives =>
        have hp := (h.agrees p).alive hlives
        exact ⟨agrees_doStop h.agrees hp signo,
          ((h.linked.setStage hp (.inr rfl)).setOwed true).congr rfl rfl rfl rfl⟩
  | sendCont p =>
      rw [Procs.step] at hs
      split at hs <;> cases hs
      next hborn =>
        have hne := (h.agrees p).born.mp hborn
        have hstate := (h.agrees p).stopped hne
        rw [Family.next]
        split
        case isTrue hstopped =>
          refine ⟨agrees_sendCont h.agrees hstopped,
            ((h.linked.setStage (.inr hstopped) (.inl rfl)).setOwed true).congr ?_ ?_ ?_ ?_⟩ <;>
          · rw [Procs.sendCont, if_pos (hstate.mpr hstopped)]
            rfl
        case isFalse hstopped =>
          rw [Procs.sendCont, if_neg fun hs => hstopped (hstate.mp hs)]
          exact h
  | wait p which options =>
      rw [Procs.step] at hs
      split at hs <;> cases hs
      exact h.wait p which options

/-- The life of a process goes on only while it is alive. -/
theorem Inv.stage_eq (h : w.Inv init) (hstep : w.step init a = some w') (p : P) :
    w'.family.stage p = w.family.stage p ∨ w'.family.stage p = .gone ∨
      w.family.stage p = .unborn ∨ (w.family.stage p).Alive := by
  obtain ⟨s, hs, rfl⟩ := Option.map_eq_some_iff.mp hstep
  -- Only the stage of one process changes.
  have hone : ∀ {q : P} {g : Stage}, (p = q → w.family.stage q = .unborn ∨
      (w.family.stage q).Alive) → Function.update w.family.stage q g p = w.family.stage p ∨
        Function.update w.family.stage q g p = .gone ∨ w.family.stage p = .unborn ∨
          (w.family.stage p).Alive := fun {q g} hq => by
    by_cases hpq : p = q
    · exact .inr (.inr (hpq ▸ hq hpq))
    · exact .inl (Function.update_of_ne hpq ..)
  cases a with
  | fork q c pid viaParent starts =>
      rw [Procs.step] at hs
      split at hs <;> cases hs
      next hguard => exact hone fun _ => .inl ((h.agrees c).unborn hguard.2.1)
  | forkFails q c pid =>
      rw [Procs.step] at hs
      split at hs <;> cases hs
      next hguard => exact hone fun _ => .inl ((h.agrees c).unborn hguard.2.1)
  | processExit q =>
      rw [Procs.step] at hs
      split at hs <;> cases hs
      next hguard => exact hone fun _ => .inr ((h.agrees q).alive_of_state hguard.1 hguard.2.2)
  | doStop q signo =>
      rw [Procs.step] at hs
      split at hs <;> cases hs
      next hlives => exact hone fun _ => .inr ((h.agrees q).alive hlives)
  | sendCont q =>
      dsimp only [Family.next]
      split
      case isTrue hstopped => exact hone fun _ => .inr (.inr hstopped)
      case isFalse => exact .inl rfl
  | wait me which options =>
      dsimp only [Family.next]
      split
      next c _ _ =>
        split
        case isTrue =>
          by_cases hpc : p = c
          · rw [hpc]
            exact .inr (.inl (w.family.setStage_self c .gone))
          · exact .inl (w.family.setStage_of_ne hpc .gone)
        case isFalse => exact .inl rfl
      all_goals exact .inl rfl
  | _ => exact .inl rfl

omit [DecidableEq P] in
/-- What `wait` answers is allowed exactly when it has something else to report than a child
that it misses. -/
theorem Inv.allows_iff (h : w.Inv init) (me : P) (which : Int) (options : Nat) :
    w.family.Allows w.procs me which options (w.procs.answer me which options) ↔
      w.Sound init (.wait me which options) := by
  obtain ⟨s, f⟩ := w
  have hfound : ∀ {c r}, c ∈ s.asked me which →
      (s.found options c = some r ↔ f.Due options c r ∧ ¬(⟨s, f⟩ : World P).Missed c) := fun hc =>
    have hreap := (h.linked.mem_asked.mp hc).1
    (h.agrees _).found_iff hreap.ne_unborn hreap.ne_gone options _
  have hdue : ∀ {c r}, f.Due options c r → (f.stage c).Unreaped := fun {c r} hdue => by
    cases r with
    | exited => exact .inr hdue
    | stopped => exact .inl (.inr hdue.2.1)
    | continued => exact .inl (.inl hdue.2.1)
  constructor
  · intro hallows hcont c hc hmissed
    have hmiss : f.Due options c .continued := ⟨hcont, hmissed.1, hmissed.2.1⟩
    cases hanswer : s.answer me which options with
    | report d r status =>
        obtain ⟨hmem, hd⟩ := answer_report hanswer
        obtain ⟨hdr, hnot⟩ := (hfound hmem).mp hd
        exact ⟨d, (h.linked.mem_asked.mp hmem).2, hnot, r, hdr⟩
    | noChild =>
        rw [hanswer] at hallows
        exact absurd (hdue hmiss) (hallows c hc)
    | nothing =>
        rw [hanswer] at hallows
        exact absurd hmiss (hallows c hc .continued)
    | sleeps =>
        rw [hanswer] at hallows
        exact absurd hmiss (hallows c hc .continued)
  · intro hsound
    -- A child that is due is found, or it is missed and another one is found.
    have hnone : (∀ c r status, s.answer me which options ≠ .report c r status) →
        ∀ c, f.Asked s me which c → ∀ r, ¬f.Due options c r := by
      intro hanswer c hc r hcr
      have hany : ∃ d, f.Asked s me which d ∧ ¬(⟨s, f⟩ : World P).Missed d ∧
          ∃ r, f.Due options d r := by
        by_cases hmissed : (⟨s, f⟩ : World P).Missed c
        · refine hsound ?_ c hc hmissed
          cases r with
          | exited => exact absurd (hcr.symm.trans hmissed.1) (by decide)
          | stopped => exact absurd (hcr.2.1.symm.trans hmissed.1) (by decide)
          | continued => exact hcr.1
        · exact ⟨c, hc, hmissed, r, hcr⟩
      obtain ⟨d, hd, hnot, r, hdr⟩ := hany
      have hmem : d ∈ s.asked me which := h.linked.mem_asked.mpr ⟨hdue hdr, hd⟩
      have hnothing := found_of_answer hanswer hmem
      rw [(hfound hmem).mpr ⟨hdr, hnot⟩] at hnothing
      cases hnothing
    cases hanswer : s.answer me which options with
    | report c r status =>
        obtain ⟨hmem, hc⟩ := answer_report hanswer
        exact ⟨(h.linked.mem_asked.mp hmem).2, ((hfound hmem).mp hc).1⟩
    | noChild =>
        intro c hc hreap
        have hmem := h.linked.mem_asked.mpr ⟨hreap, hc⟩
        rw [answer_noChild hanswer] at hmem
        cases hmem
    | nothing => exact hnone (by simp [hanswer])
    | sleeps => exact hnone (by simp [hanswer])

/-- A process that exits and leaves children needs an init. -/
theorem Inv.sound_of_kept (h : w.Inv init) {p : P} (hstep : w.step init (.processExit p) = some w')
    (hkept : w'.Kept) : w.Sound init (.processExit p) := by
  obtain ⟨s, hs, rfl⟩ := Option.map_eq_some_iff.mp hstep
  intro c hc hreap
  have hcp : c ≠ p := fun hcp => h.linked.irrefl c (hcp ▸ hc)
  have hstage : ∀ {q}, q ≠ p →
      (w.family.next init w.procs (.processExit p)).stage q = w.family.stage q := fun hq =>
    Function.update_of_ne hq ..
  have hparent : (w.family.next init w.procs (.processExit p)).parent c = some init :=
    if_pos ⟨hc, hreap⟩
  have halive := hkept.parentAlive c init (by rw [hstage hcp]; exact hreap) hparent
  have hne : p ≠ init := fun hi => by
    have hexited : (w.family.next init w.procs (.processExit p)).stage init =
        if (w.family.parent p).any fun q => ¬(w.procs.action q).AutoReaps then .zombie
        else .gone := by
      rw [← hi]
      exact Function.update_self ..
    rw [hexited] at halive
    split at halive
    · exact halive.ne_zombie rfl
    · exact halive.unreaped.ne_gone rfl
  rw [hstage hne.symm] at halive
  exact ⟨hne, halive⟩

/-- A step does as it should exactly when the condition holds in it. -/
theorem Inv.good_iff (h : w.Inv init) (hstep : w.step init a = some w') :
    w.Good a w' ↔ w.Sound init a := by
  constructor
  · intro hgood
    cases a with
    | wait me which options => exact (h.allows_iff me which options).mp (hgood.allows _ _ _ rfl)
    | processExit p => exact h.sound_of_kept hstep hgood.kept
    | _ => trivial
  · intro hsound
    refine ⟨(h.step hsound hstep).kept, fun me which options ha => ?_, fun p hp => ?_,
      fun p hp => ?_⟩
    · rw [ha] at hsound
      exact (h.allows_iff me which options).mpr hsound
    · obtain heq | hgone | hunborn | halive := h.stage_eq hstep p
      · exact .inl (heq.trans hp)
      · exact .inr hgone
      · exact absurd (hp.symm.trans hunborn) (by decide)
      · exact absurd hp halive.ne_zombie
    · obtain heq | hgone | hunborn | halive := h.stage_eq hstep p
      · exact heq.trans hp
      · exact hgone
      · exact absurd (hp.symm.trans hunborn) (by decide)
      · exact absurd hp halive.unreaped.ne_gone

theorem boot_inv (init : P) : (boot init).Inv init := by
  have hstage : ∀ p, (boot init).family.stage p = if p = init then .running else .unborn := by
    intro p
    simp [boot, Function.update_apply]
  have hunreaped : ∀ p, ((boot init).family.stage p).Unreaped ↔ p = init := fun p => by
    rw [hstage]
    split <;> simp_all [Stage.Unreaped, Stage.Alive]
  refine ⟨fun p => ?_, ⟨fun _ _ => rfl, fun p c => ?_, fun n p => ?_, ⟨rfl, ?_, rfl⟩,
    (fun c q _ hq => by cases hq), fun c hc => ?_, (fun c hc => by cases hc)⟩⟩
  · have hborn : (boot init).procs.born p = if p = init then true else false := by
      simp [boot, Function.update_apply]
    constructor
    · rw [hborn, hstage]
      split <;> simp
    · exact fun hleaving => by cases hleaving
    · rw [hstage]
      split <;> simp
    · rw [hstage]
      split <;> simp [boot]
    · rw [hstage]
      split <;> simp [boot]
    · rw [hstage]
      split <;> simp
    · exact fun _ hreported => by cases hreported
  · exact iff_of_false List.not_mem_nil fun hp => by cases hp.2
  · rw [hunreaped]
    change Function.update (fun _ => none) 1 (some init) n = some p ↔ p = init ∧ 1 = n
    by_cases hn : n = 1
    · rw [hn, Function.update_self, Option.some.injEq]
      simp [eq_comm]
    · rw [Function.update_of_ne hn]
      simp [Ne.symm hn]
  · rw [hstage, if_pos rfl]
    decide
  · rw [hstage] at hc
    split at hc <;> cases hc

/-- Children are reaped once, and their stops and continues reported, exactly along the runs
in which a `wait` for a child that was continued after an unreported stop has another child to
report, and no process exits with children when init is gone. -/
theorem reaped_once_iff (init : P) (acts : List (Act P)) :
    Along (step init) Good (boot init) acts ↔
      Along (step init) (fun w a _ => w.Sound init a) (boot init) acts :=
  along_iff (Inv init) (fun _ _ _ h hstep hgood => h.step ((h.good_iff hstep).mp hgood) hstep)
    (fun _ _ _ h hstep => h.good_iff hstep) acts (boot_inv init)

/-- A child is stopped and continued before its parent waits, and the parent asks for it. -/
theorem continue_not_reported : ¬∀ acts : List (Act Nat),
    Along (step 0) Good (boot 0) acts := by
  intro hall
  have hrun := hall [.fork 0 1 2 false true, .doStop 1 19, .sendCont 1,
    .wait 0 (-1) (WCONTINUED ||| WNOHANG)]
  have hallows := (((((hrun _ rfl).2 _ rfl).2 _ rfl).2 _ rfl).1.allows _ _ _ rfl) 1 ⟨rfl, trivial⟩
  exact hallows .continued ⟨by decide, rfl, rfl⟩

end World

end MindOS.Kernel.Proc
