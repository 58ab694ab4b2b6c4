import MindOS.Kernel.Proc.Agreement

/-!
# Fork and exit

A process that exits leaves its children to init, and stays for its parent if that waits; a
new one has a parent that is alive.
-/

namespace MindOS.Kernel.Proc

variable {P : Type} [DecidableEq P] {init p c : P} {s : Procs P} {f : Family P} {g : Stage}

/-! ### Exit -/

/-- The children of a process that exits are init's. -/
def Family.moved (f : Family P) (init p : P) : Family P :=
  { f with
    parent := fun c =>
      if f.parent c = some p ∧ (f.stage c).Unreaped then some init else f.parent c }

theorem foldl_addChild (s : Procs P) (i : P) (cs : List P) :
    cs.foldl (fun s c => s.addChild i c) s =
      { s with
        parent := fun c => if c ∈ cs then some i else s.parent c
        children := Function.update s.children i (s.children i ++ cs) } := by
  induction cs generalizing s with
  | nil => simp
  | cons c cs ih =>
      rw [List.foldl_cons, ih]
      have hparent : (fun x => if x ∈ cs then some i else (s.addChild i c).parent x) =
          fun x => if x ∈ c :: cs then some i else s.parent x := by
        funext x
        by_cases hx : x = c
        · simp [hx, Procs.addChild]
        · simp [hx, Procs.addChild]
      rw [hparent]
      simp [Procs.addChild, Procs.setChildren]

theorem reparent_eq (s : Procs P) (p : P) : ∃ parent children,
    s.reparent p = { s with parent := parent, children := children } := by
  rw [Procs.reparent]
  split
  case isTrue => exact ⟨_, _, rfl⟩
  case isFalse =>
    split
    next i _ =>
      rw [foldl_addChild]
      exact ⟨_, _, rfl⟩
    next => exact ⟨_, _, rfl⟩

/-- The children go to init, and the process has none. -/
theorem Linked.reparent (h : Linked init s f)
    (hinit : ∀ c, f.parent c = some p → (f.stage c).Unreaped →
      p ≠ init ∧ (f.stage init).Alive) :
    Linked init (s.reparent p) (f.moved init p) ∧
      ∀ c, (f.stage c).Unreaped → (f.moved init p).parent c ≠ some p := by
  by_cases hcs : s.children p = []
  · have hnone : ∀ c, ¬(f.parent c = some p ∧ (f.stage c).Unreaped) := fun c hc => by
      have hmem := (h.children p c).mpr ⟨hc.2, hc.1⟩
      rw [hcs] at hmem
      cases hmem
    have hmoved : f.moved init p = f := by
      simp [Family.moved, hnone]
    have hsame : s.reparent p = s := by
      rw [Procs.reparent, hcs, if_pos rfl, Procs.setChildren, ← hcs, Function.update_eq_self]
    rw [hmoved, hsame]
    exact ⟨h, fun c hc hparent => hnone c ⟨hparent, hc⟩⟩
  · obtain ⟨x, hx⟩ := List.exists_mem_of_ne_nil _ hcs
    obtain ⟨hxreap, hxparent⟩ := (h.children p x).mp hx
    obtain ⟨hne, halive⟩ := hinit x hxparent hxreap
    have hs : s.reparent p = { s with
        parent := fun c => if c ∈ s.children p then some init else s.parent c
        children := Function.update (Function.update s.children p []) init
          (s.children init ++ s.children p) } := by
      have htable : (s.setChildren p []).table 1 = some init := h.table_one halive
      rw [Procs.reparent, if_neg hcs, htable]
      dsimp only
      rw [foldl_addChild, Procs.setChildren_of_ne s hne.symm]
      rfl
    have hmoves : ∀ c, c ∈ s.children p ↔ f.parent c = some p ∧ (f.stage c).Unreaped := fun c =>
      (h.children p c).trans and_comm
    have hparent : ∀ c, (f.moved init p).parent c =
        if c ∈ s.children p then some init else f.parent c := fun c => by
      simp only [Family.moved, hmoves]
    refine ⟨⟨fun c hc => ?_, fun q c => ?_, ?_, ⟨?_, h.init.2.1, ?_⟩,
      fun c q hc hq => ?_, fun c hc => ?_, fun c => ?_⟩, fun c hc => ?_⟩
    · rw [hs, hparent]
      dsimp only
      rw [h.parent c hc]
    · rw [hs, hparent]
      dsimp only
      by_cases hq : q = init
      · rw [hq, Function.update_self, List.mem_append, h.children init]
        by_cases hc : c ∈ s.children p
        · rw [if_pos hc]
          exact iff_of_true (.inr hc) ⟨((hmoves c).mp hc).2, rfl⟩
        · rw [if_neg hc, or_iff_left hc]
          rfl
      · rw [Function.update_of_ne hq]
        by_cases hc : c ∈ s.children p
        · rw [if_pos hc]
          refine iff_of_false (fun hmem => ?_) fun hi => hq (Option.some.inj hi.2).symm
          by_cases hqp : q = p
          · rw [hqp, Function.update_self] at hmem
            cases hmem
          · rw [Function.update_of_ne hqp, h.children, ((hmoves c).mp hc).1] at hmem
            exact hqp (Option.some.inj hmem.2).symm
        · rw [if_neg hc]
          by_cases hqp : q = p
          · rw [hqp, Function.update_self]
            refine iff_of_false List.not_mem_nil fun hi => hc ((h.children p c).mpr hi)
          · rw [Function.update_of_ne hqp]
            exact h.children q c
    · rw [hs]
      exact h.table
    · rw [hparent, if_neg fun hi => ?_]
      · exact h.init.1
      · have hi := ((hmoves init).mp hi).1
        rw [h.init.1] at hi
        cases hi
    · rw [hs]
      exact h.init.2.2
    · rw [hparent] at hq
      split at hq
      case isTrue =>
        cases hq
        exact halive
      case isFalse => exact h.parentAlive c q hc hq
    · rw [hparent]
      split
      case isTrue => exact ⟨init, rfl⟩
      case isFalse => exact h.hasParent c hc
    · rw [hparent]
      split
      case isTrue hc =>
        intro hi
        have hi := Option.some.inj hi
        rw [← hi, hmoves, h.init.1] at hc
        cases hc.1
      case isFalse => exact h.irrefl c
    · rw [hparent]
      split
      case isTrue => exact fun hi => hne (Option.some.inj hi).symm
      case isFalse hmem => exact fun hp => hmem ((hmoves c).mpr ⟨hp, hc⟩)

/-- A process becomes a zombie, for its parent to reap. -/
theorem Linked.zombie (h : Linked init s f) {q : P} (hp : (f.stage p).Unreaped)
    (hq : f.parent p = some q)
    (halone : ∀ c, (f.stage c).Unreaped → f.parent c ≠ some p) :
    Linked init s (f.setStage p .zombie) := by
  have hunreaped : ∀ c, ((f.setStage p .zombie).stage c).Unreaped ↔ (f.stage c).Unreaped := by
    intro c
    by_cases hc : c = p
    · rw [hc, f.setStage_self]
      exact iff_of_true (.inr rfl) hp
    · rw [f.setStage_of_ne hc]
  refine ⟨fun c hc => h.parent c ((hunreaped c).mp hc), fun r c => ?_, fun n c => ?_,
    ⟨h.init.1, ?_, h.init.2.2⟩, fun c r hc hr => ?_, fun c hc => ?_, h.irrefl⟩
  · rw [hunreaped]
    exact h.children r c
  · rw [hunreaped]
    exact h.table n c
  · by_cases hi : init = p
    · rw [hi, f.setStage_self]
      nofun
    · rw [f.setStage_of_ne hi]
      exact h.init.2.1
  · have hc := (hunreaped c).mp hc
    have hrp : r ≠ p := fun hrp => halone c hc (hrp ▸ hr)
    rw [f.setStage_of_ne hrp]
    exact h.parentAlive c r hc hr
  · by_cases hcp : c = p
    · rw [hcp]
      exact ⟨q, hq⟩
    · rw [f.setStage_of_ne hcp] at hc
      exact h.hasParent c hc

theorem agrees_zombie (h : ∀ c, Agrees s f c) (hborn : s.born p = true)
    (hleaving : s.leaving p = true) (c : P) :
    Agrees (s.setState p .zombie) (f.setStage p .zombie) c := by
  by_cases hc : c = p
  · rw [hc]
    have hstage := f.setStage_self p .zombie
    constructor
    · rw [hstage]
      exact iff_of_true hborn nofun
    · exact (h p).threads
    · exact fun _ => hleaving
    · simp [hstage, Procs.setState]
    · simp [hstage, Procs.setState]
    · simp [hstage]
    · simp [hstage]
  · exact (h c).congr rfl rfl rfl (Function.update_of_ne hc ..) rfl rfl (f.setStage_of_ne hc _) rfl

omit [DecidableEq P] in
/-- What links the processes does not depend on their states. -/
theorem Linked.congr {s' : Procs P} (h : Linked init s f) (hparent : s'.parent = s.parent)
    (hchildren : s'.children = s.children) (hpid : s'.pid = s.pid) (htable : s'.table = s.table) :
    Linked init s' f := by
  constructor
  · rw [hparent]
    exact h.parent
  · rw [hchildren]
    exact h.children
  · rw [htable, hpid]
    exact h.table
  · rw [hpid]
    exact h.init
  · exact h.parentAlive
  · exact h.hasParent
  · exact h.irrefl

theorem Linked.setOwed (h : Linked init s f) (b : Bool) : Linked init s (f.setOwed c b) :=
  ⟨h.parent, h.children, h.table, h.init, h.parentAlive, h.hasParent, h.irrefl⟩

theorem setStage_setStage (f : Family P) (p : P) (g g' : Stage) :
    (f.setStage p g).setStage p g' = f.setStage p g' := by
  simp [Family.setStage]

theorem World.Inv.processExit {w : World P} (h : w.Inv init) (hborn : w.procs.born p = true)
    (hleaving : w.procs.leaving p = true) (hstate : w.procs.state p ≠ .zombie)
    (hsound : w.Sound init (.processExit p)) :
    World.Inv init ⟨w.procs.processExit p, w.family.exited init p
      ((w.family.parent p).any fun q => ¬(w.procs.action q).AutoReaps)⟩ := by
  obtain ⟨s, f⟩ := w
  have hp : (f.stage p).Unreaped := ((h.agrees p).alive_of_state hborn hstate).unreaped
  obtain ⟨hmoved, halone⟩ := h.linked.reparent hsound
  obtain ⟨parent, children, hs⟩ := reparent_eq s p
  have hagrees : ∀ c, Agrees ((s.reparent p).setState p .zombie)
      ((f.moved init p).setStage p .zombie) c := by
    refine agrees_zombie (fun c => ?_) ?_ ?_
    · rw [hs]
      exact (h.agrees c).congr rfl rfl rfl rfl rfl rfl rfl rfl
    · rw [hs]
      exact hborn
    · rw [hs]
      exact hleaving
  have hlinked : Linked init ((s.reparent p).setState p .zombie) (f.moved init p) :=
    hmoved.congr rfl rfl rfl rfl
  have hpid : ((s.reparent p).setState p .zombie).pid = s.pid := by rw [hs]; rfl
  have haction : ((s.reparent p).setState p .zombie).action = s.action := by rw [hs]; rfl
  have hself : (f.moved init p).parent p = f.parent p := if_neg fun hc => h.linked.irrefl p hc.1
  have hparent : ((s.reparent p).setState p .zombie).parentOf p = f.parent p :=
    (hlinked.parentOf hp).trans hself
  have hexited : ∀ b : Bool, f.exited init p b =
      (f.moved init p).setStage p (if b then .zombie else .gone) := fun _ => rfl
  rw [Procs.processExit]
  dsimp only
  rw [hparent, hexited]
  generalize (s.reparent p).setState p .zombie = t at hagrees hlinked hpid haction ⊢
  -- A process that nobody is to wait for is reaped on the spot.
  have hreaped : ∀ u : Procs P, (u.born = t.born ∧ u.threads = t.threads ∧ u.leaving = t.leaving ∧
      u.state = t.state ∧ u.stoppedReported = t.stoppedReported ∧
      u.continuedReported = t.continuedReported) →
      ∀ c, Agrees u ((f.moved init p).setStage p .gone) c := fun u hu c => by
    have hc := agrees_gone hagrees (Family.setStage_self ..) hu c
    rwa [setStage_setStage] at hc
  cases hq : f.parent p with
  | none =>
      refine ⟨hreaped (t.unregister (t.pid p)) ⟨rfl, rfl, rfl, rfl, rfl, rfl⟩,
        hlinked.gone halone rfl rfl rfl hp fun q c => (and_iff_left_of_imp fun hc hcp => ?_).symm⟩
      have hmem := ((hlinked.children q c).mp hc).2
      rw [hcp, hself, hq] at hmem
      cases hmem
  | some q =>
      dsimp only
      rw [haction]
      split
      case isTrue hauto =>
        rw [Option.any_some, if_neg (by simp [hauto])]
        have hagrees := hreaped
          ((t.setChildren q ((t.children q).filter fun c => t.pid c ≠ t.pid p)).unregister
            (t.pid p))
          ⟨rfl, rfl, rfl, rfl, rfl, rfl⟩
        exact ⟨hagrees, hlinked.gone halone rfl rfl rfl hp
          (hlinked.mem_filter_pid hp (hself.trans hq))⟩
      case isFalse hauto =>
        rw [Option.any_some, if_pos (by simp [hauto])]
        exact ⟨hagrees, hlinked.zombie hp (hself.trans hq) halone⟩

/-! ### Fork -/

theorem Linked.new (h : Linked init s f) {pid : Nat} (hc : f.stage c = .unborn)
    (hpid : s.table pid = none) : Linked init (s.new c pid) (f.born c none) := by
  have hnot : ¬(f.stage c).Unreaped := fun hu => hu.ne_unborn hc
  have hi : init ≠ c := fun hi => h.init.2.1 (hi ▸ hc)
  have hstage : ∀ {x}, x ≠ c → (f.born c none).stage x = f.stage x := fun hx =>
    Function.update_of_ne hx ..
  have hparent : ∀ {x}, x ≠ c → (f.born c none).parent x = f.parent x := fun hx =>
    Function.update_of_ne hx ..
  have hself : (f.born c none).stage c = .running ∧ (f.born c none).parent c = none :=
    ⟨Function.update_self .., Function.update_self ..⟩
  refine ⟨fun x hx => ?_, fun q x => ?_, fun n x => ?_, ⟨?_, ?_, ?_⟩, fun x q hx hq => ?_,
    fun x hx => ?_, fun x => ?_⟩
  · by_cases hxc : x = c
    · rw [hxc, hself.2]
      exact Function.update_self ..
    · rw [hstage hxc] at hx
      rw [hparent hxc]
      exact (Function.update_of_ne hxc ..).trans (h.parent x hx)
  · have hchildren : ∀ {q}, q ≠ c → (s.new c pid).children q = s.children q := fun hq =>
      Function.update_of_ne hq ..
    by_cases hxc : x = c
    · rw [hxc, hself.1, hself.2]
      refine iff_of_false (fun hmem => ?_) (by simp)
      by_cases hq : q = c
      · rw [hq, show (s.new c pid).children c = [] from Function.update_self ..] at hmem
        cases hmem
      · rw [hchildren hq, h.children] at hmem
        exact hnot hmem.1
    · rw [hstage hxc, hparent hxc]
      by_cases hq : q = c
      · rw [hq, show (s.new c pid).children c = [] from Function.update_self ..]
        exact iff_of_false List.not_mem_nil fun hx =>
          hnot (h.parentAlive x c hx.1 hx.2).unreaped
      · rw [hchildren hq]
        exact h.children q x
  · by_cases hn : n = pid
    · rw [hn, show (s.new c pid).table pid = some c from Function.update_self ..]
      by_cases hxc : x = c
      · rw [hxc, hself.1]
        exact iff_of_true rfl ⟨.inl (.inl rfl), Function.update_self ..⟩
      · rw [hstage hxc, show (s.new c pid).pid x = s.pid x from Function.update_of_ne hxc ..]
        refine iff_of_false (fun hi => hxc (Option.some.inj hi).symm) fun hx => ?_
        have hx := (h.table pid x).mpr hx
        rw [hpid] at hx
        cases hx
    · rw [show (s.new c pid).table n = s.table n from Function.update_of_ne hn ..]
      by_cases hxc : x = c
      · rw [hxc, hself.1, show (s.new c pid).pid c = pid from Function.update_self ..]
        exact iff_of_false (fun hx => hnot ((h.table n c).mp hx).1) fun hx => hn hx.2.symm
      · rw [hstage hxc, show (s.new c pid).pid x = s.pid x from Function.update_of_ne hxc ..]
        exact h.table n x
  · rw [hparent hi]
    exact h.init.1
  · rw [hstage hi]
    exact h.init.2.1
  · exact (Function.update_of_ne hi ..).trans h.init.2.2
  · by_cases hxc : x = c
    · rw [hxc, hself.2] at hq
      cases hq
    · rw [hstage hxc] at hx
      rw [hparent hxc] at hq
      have halive := h.parentAlive x q hx hq
      have hqc : q ≠ c := fun hqc => hnot (hqc ▸ halive.unreaped)
      rwa [hstage hqc]
  · by_cases hxc : x = c
    · rw [hxc, hself.1] at hx
      cases hx
    · rw [hstage hxc] at hx
      rw [hparent hxc]
      exact h.hasParent x hx
  · by_cases hxc : x = c
    · rw [hxc, hself.2]
      nofun
    · rw [hparent hxc]
      exact h.irrefl x

/-- A process gets a parent. -/
def Family.adopt (f : Family P) (q c : P) : Family P :=
  { f with parent := Function.update f.parent c (some q) }

theorem Family.born_adopt (f : Family P) (q c : P) :
    (f.born c none).adopt q c = f.born c (some q) := by
  simp [Family.adopt, Family.born, Family.setOwed, Family.setStage]

theorem Linked.addChild (h : Linked init s f) {q : P} (hc : (f.stage c).Unreaped)
    (hnone : f.parent c = none) (hi : init ≠ c) (hq : (f.stage q).Alive) (hne : q ≠ c) :
    Linked init (s.addChild q c) (f.adopt q c) := by
  have hsparent : ∀ x, (s.addChild q c).parent x = if x = c then some q else s.parent x := by
    intro x
    simp [Procs.addChild, Function.update_apply]
  have hfparent : ∀ x, (f.adopt q c).parent x = if x = c then some q else f.parent x := fun x =>
    Function.update_apply ..
  refine ⟨fun x hx => ?_, fun r x => ?_, h.table, ⟨?_, h.init.2⟩, fun x r hx hr => ?_,
    fun x hx => ?_, fun x => ?_⟩
  · rw [hsparent, hfparent]
    split
    case isTrue => rfl
    case isFalse => exact h.parent x hx
  · have hchildren : x ∈ (s.addChild q c).children r ↔ x ∈ s.children r ∨ r = q ∧ x = c := by
      by_cases hr : r = q <;> simp [hr, Procs.addChild, Procs.setChildren]
    have hx : (f.adopt q c).stage x = f.stage x := rfl
    rw [hchildren, h.children, hfparent, hx]
    by_cases hxc : x = c
    · rw [if_pos hxc, hxc, hnone]
      simp [hc, eq_comm]
    · simp [hxc]
  · rw [hfparent, if_neg hi]
    exact h.init.1
  · rw [hfparent] at hr
    split at hr
    case isTrue =>
      cases hr
      exact hq
    case isFalse => exact h.parentAlive x r hx hr
  · rw [hfparent]
    split
    case isTrue => exact ⟨q, rfl⟩
    case isFalse => exact h.hasParent x hx
  · rw [hfparent]
    split
    case isTrue hxc => exact fun hqx => hne ((Option.some.inj hqx).trans hxc)
    case isFalse => exact h.irrefl x

theorem agrees_born {s' : Procs P} (h : ∀ x, Agrees s f x) {q : Option P}
    (hborn : s'.born = Function.update s.born c true)
    (hleaving : s'.leaving = Function.update s.leaving c false)
    (hthreads : ∀ x, x ≠ c → s'.threads x = s.threads x)
    (hstate : s'.state = Function.update s.state c .running)
    (hstop : s'.stoppedReported = Function.update s.stoppedReported c false)
    (hcont : s'.continuedReported = Function.update s.continuedReported c false) (x : P) :
    Agrees s' (f.born c q) x := by
  by_cases hxc : x = c
  · rw [hxc]
    have hstage : (f.born c q).stage c = .running := Function.update_self ..
    constructor <;> simp [hstage, hborn, hleaving, hstate, hstop]
  · refine (h x).congr ?_ (hthreads x hxc) ?_ ?_ ?_ ?_ (Function.update_of_ne hxc ..)
      (Function.update_of_ne hxc ..)
    · rw [hborn, Function.update_of_ne hxc]
    · rw [hleaving, Function.update_of_ne hxc]
    · rw [hstate, Function.update_of_ne hxc]
    · rw [hstop, Function.update_of_ne hxc]
    · rw [hcont, Function.update_of_ne hxc]

theorem World.Inv.forkFails {w : World P} (h : w.Inv init) {pid : Nat}
    (hfree : w.procs.Free c pid) : World.Inv init ⟨w.procs.new c pid, w.family.born c none⟩ :=
  ⟨agrees_born h.agrees rfl rfl (fun _ hx => Function.update_of_ne hx ..) rfl rfl rfl,
    h.linked.new ((h.agrees c).unborn hfree.1) hfree.2.2⟩

theorem World.Inv.fork {w : World P} (h : w.Inv init) {pid : Nat} (hp : w.procs.Lives p)
    (hfree : w.procs.Free c pid) (viaParent starts : Bool) :
    World.Inv init ⟨w.procs.fork p c pid viaParent starts,
      w.family.born c (some (if viaParent then (w.family.parent p).getD p else p))⟩ := by
  obtain ⟨s, f⟩ := w
  have halive : (f.stage p).Alive := (h.agrees p).alive hp
  have hunborn : f.stage c = .unborn := (h.agrees c).unborn hfree.1
  have hne : ∀ {q}, (f.stage q).Alive → q ≠ c := fun hq hqc =>
    hq.unreaped.ne_unborn (hqc ▸ hunborn)
  have hnew := h.linked.new hunborn hfree.2.2
  have hstage : ∀ {q}, q ≠ c → (f.born c none).stage q = f.stage q := fun hq =>
    Function.update_of_ne hq ..
  have hparentOf : (s.new c pid).parentOf p = f.parent p := by
    rw [hnew.parentOf (by rw [hstage (hne halive)]; exact halive.unreaped)]
    exact Function.update_of_ne (hne halive) ..
  -- The parent is the caller or its parent, and both are alive.
  have hq : (f.stage (if viaParent then (f.parent p).getD p else p)).Alive := by
    split
    case isTrue =>
      cases hq : f.parent p with
      | none => exact halive
      | some q => exact h.linked.parentAlive p q halive.unreaped hq
    case isFalse => exact halive
  have hadopt := hnew.addChild (q := if viaParent then (f.parent p).getD p else p) (c := c)
    (.inl (.inl (Function.update_self ..))) (Function.update_self ..)
    (fun hi => h.linked.init.2.1 (hi ▸ hunborn)) (by rwa [hstage (hne hq)]) (hne hq)
  rw [Family.born_adopt] at hadopt
  refine ⟨agrees_born h.agrees rfl rfl (fun x hx => ?_) rfl rfl rfl, ?_⟩
  · exact (Function.update_of_ne hx ..).trans (Function.update_of_ne hx ..)
  · rw [Procs.fork]
    have hvia : (if viaParent then (((s.new c pid).parentOf p).getD p) else p) =
        if viaParent then (f.parent p).getD p else p := by rw [hparentOf]
    refine hadopt.congr ?_ ?_ rfl rfl
    · dsimp only [Procs.addChild]
      rw [← hvia]
      rfl
    · dsimp only [Procs.addChild]
      rw [← hvia]
      rfl

end MindOS.Kernel.Proc
