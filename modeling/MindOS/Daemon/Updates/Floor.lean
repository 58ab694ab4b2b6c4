import MindOS.Daemon.Updates.System

/-!
# The floor under the published risk

The model's verdict may lower the risk of the rules by one step, and never below a
manual intervention. The rules alone rate a package list low or medium, so what
has to be kept through every copy of the status is that a set manual-intervention
flag goes with a high risk. Every lock section keeps it but one: an apply that
ends well writes a low risk and leaves the flag.
-/

namespace MindOS.Updates

open Text Transition

/-- The published risk is at most one step under the rules' risk for the listed
packages, and high under a manual intervention. -/
def RiskFloor (s : UpdateStatus) : Prop :=
  riskOrder (ruleRisk s.packages s.manualIntervention) ≤ riskOrder s.risk + 1 ∧
    (s.manualIntervention = true → s.risk = "high".toList)

/-- The part of the floor that has to be kept. -/
def FlagIsHigh (s : UpdateStatus) : Prop :=
  s.manualIntervention = true → s.risk = "high".toList

private theorem max_ite_le {b : Bool} {r k : Nat} (hr : r ≤ 2) (hk : k ≤ 2) :
    (if b then max r k else r) ≤ 2 := by
  split <;> omega

theorem packageRisk_le (packages : List PackageUpdate) : packageRisk packages ≤ 2 := by
  have htags := max_ite_le (max_ite_le (max_ite_le (max_ite_le (max_ite_le
    (b := hasTag packages "kernel") (r := 0) (k := 2) (by omega) (by omega))
    (b := hasTag packages "gpu") (k := 2) (by omega))
    (b := hasTag packages "core") (k := 2) (by omega))
    (b := hasTag packages "mindos") (k := 1) (by omega))
    (b := hasTag packages "gaming") (k := 1) (by omega)
  simp only [packageRisk]
  split
  · omega
  · exact htags

theorem riskOrder_ruleRisk_le (packages : List PackageUpdate) :
    riskOrder (ruleRisk packages false) ≤ 1 := by
  have hall : ∀ n ≤ 2, riskOrder ((["low", "low", "medium", "high"] : List Text).getD (min n 3) [])
      ≤ 1 := by decide
  exact hall _ (packageRisk_le packages)

theorem ruleRisk_manual (packages : List PackageUpdate) :
    ruleRisk packages true = "high".toList := rfl

theorem riskFloor_iff (s : UpdateStatus) : RiskFloor s ↔ FlagIsHigh s := by
  constructor
  · exact fun h => h.2
  · intro h
    refine ⟨?_, h⟩
    cases hmanual : s.manualIntervention with
    | false => exact (riskOrder_ruleRisk_le s.packages).trans (Nat.le_add_left 1 _)
    | true =>
        rw [h hmanual, ruleRisk_manual]
        exact Nat.le_succ _

/-! ### The lock sections -/

theorem FlagIsHigh.ruleAssessment (day : Nat → Text) (s : UpdateStatus) (lastTime : Nat) :
    FlagIsHigh (ruleAssessment day s lastTime) := by
  intro hmanual
  rw [ruleAssessment_manualIntervention] at hmanual
  simp only [Updates.ruleAssessment, hmanual, ruleRisk_manual]

theorem FlagIsHigh.refresh {s : UpdateStatus} (h : FlagIsHigh s) (day : Nat → Text) (f : Fetched)
    (lastTime checkedAt : Nat) (lastUpdate : Option LastUpdate) (autoApply : Bool) :
    FlagIsHigh (refresh day s f lastTime checkedAt lastUpdate autoApply) := by
  simp only [Updates.refresh]
  split
  · exact FlagIsHigh.ruleAssessment day _ lastTime
  · exact h

theorem FlagIsHigh.refreshed {s : UpdateStatus} (h : FlagIsHigh s) (setting : Setting)
    (σ : System) (assess : Bool) (lastTime : Nat) (f : Fetched) (checkedAt : Nat)
    (lastUpdate : Option LastUpdate) :
    FlagIsHigh (σ.refreshed setting assess lastTime f s checkedAt lastUpdate).1 :=
  h.refresh setting.day f lastTime checkedAt lastUpdate σ.autoUpdate

theorem FlagIsHigh.modelAssessment {s : UpdateStatus} (h : FlagIsHigh s) (answer : Option Json) :
    FlagIsHigh (modelAssessment s answer) := by
  intro hmanual
  rw [modelAssessment_manualIntervention] at hmanual
  unfold Updates.modelAssessment
  split
  · exact h hmanual
  · cases answer with
    | none => exact h hmanual
    | some v =>
        simp only [mergeVerdict]
        split
        · exact h hmanual
        · simp only [chosenRisk, hmanual, if_true]
          rfl

theorem FlagIsHigh.landVerdict {cur s : UpdateStatus} (hcur : FlagIsHigh cur)
    (hs : FlagIsHigh s) : FlagIsHigh (landVerdict cur s) := by
  unfold Updates.landVerdict
  split
  case isTrue hsame => exact fun hmanual => hs (hsame.2 ▸ hmanual)
  case isFalse => exact hcur

theorem flagIsHigh_endApply_iff (s : UpdateStatus) (lu : LastUpdate) :
    FlagIsHigh (endApply s true lu) ↔ s.manualIntervention = false := by
  have hlow : "low".toList ≠ "high".toList := by decide
  constructor
  · intro h
    by_contra hmanual
    exact hlow (h (by simpa [endApply] using hmanual))
  · intro h hmanual
    exact absurd (h.symm.trans hmanual) Bool.false_ne_true

/-! ### Runs -/

/-- The copy of the status a task works with keeps the floor. -/
def TaskFloor : Task → Prop
  | .cloned _ _ _ s _ => FlagIsHigh s
  | .refreshed s _ _ => FlagIsHigh s
  | .rating s => FlagIsHigh s
  | _ => True

/-- The published status, the saved one and every copy keep the floor. -/
structure FloorInvariant (σ : System) : Prop where
  status : FlagIsHigh σ.status
  saved : FlagIsHigh σ.saved
  tasks : ∀ t, TaskFloor (σ.tasks t)

/-- The status published by a step keeps the floor. -/
def PublishesFloor (_ : System) (_ : Label) (τ : System) : Prop := RiskFloor τ.status

/-- No apply ends well while the manual-intervention flag is set. -/
def NoUpgradeUnderFlag (σ : System) (l : Label) (_ : System) : Prop :=
  ∀ t lu, l = .act t (.endApply true lu) → σ.status.manualIntervention = false

namespace FloorInvariant

variable {σ : System}

theorem goto (h : FloorInvariant σ) (t : Nat) (next : Task) (hnext : TaskFloor next) :
    FloorInvariant (σ.goto t next) where
  status := h.status
  saved := h.saved
  tasks := (Function.forall_update_iff σ.tasks fun _ => TaskFloor).mpr
    ⟨hnext, fun u _ => h.tasks u⟩

theorem publish (h : FloorInvariant σ) {s : UpdateStatus} (hs : FlagIsHigh s) :
    FloorInvariant (σ.publish s) where
  status := hs
  saved := h.saved
  tasks := h.tasks

theorem count (h : FloorInvariant σ) (autoUpdate : Bool) (upgrades listedAfter : Nat) :
    FloorInvariant { σ with
      autoUpdate := autoUpdate, upgrades := upgrades, listedAfter := listedAfter } where
  status := h.status
  saved := h.saved
  tasks := h.tasks

theorem save (h : FloorInvariant σ) : FloorInvariant σ.save where
  status := h.status
  saved := h.status
  tasks := h.tasks

theorem task (h : FloorInvariant σ) {t : Nat} {place : Task} (hplace : σ.tasks t = place) :
    TaskFloor place := hplace ▸ h.tasks t

theorem step (h : FloorInvariant σ) {setting : Setting} {l : Label} {τ : System}
    (hstep : System.step setting σ l = some τ) (hl : NoUpgradeUnderFlag σ l τ) :
    FloorInvariant τ := by
  cases System.steps_of_step hstep with
  | startCheck place free =>
      unfold Updates.startCheck at free
      split at free
      case isTrue => cases free
      case isFalse =>
        rw [← Option.some.inj free]
        exact (h.publish (s := underCheck σ.status) h.status).goto _
          (.fetching _ _) trivial
  | fetchPackages place => exact h.goto _ (.listed _ _ _ _) trivial
  | fetchNews place => exact h.goto _ (.fetched _ _ _ _) trivial
  | clone place => exact h.goto _ (.cloned _ _ _ σ.status _) h.status
  | refresh place =>
      have hcopy : FlagIsHigh _ := h.task place
      exact h.goto _ (.refreshed _ _ _) (hcopy.refreshed setting σ _ _ _ _ _)
  | store place =>
      have hcopy : FlagIsHigh _ := h.task place
      exact (((h.publish hcopy).count σ.autoUpdate σ.upgrades _).save).goto _ .idle trivial
  | storeAsking place =>
      have hcopy : FlagIsHigh _ := h.task place
      exact ((h.publish hcopy).count σ.autoUpdate σ.upgrades _).goto _ (.rating _) hcopy
  | verdict place =>
      have hcopy : FlagIsHigh _ := h.task place
      exact ((h.publish (h.status.landVerdict (hcopy.modelAssessment _))).save).goto _ .idle trivial
  | beginApply place free =>
      exact (h.publish (s := { σ.status with applying := true }) h.status).goto _ .upgrading trivial
  | @endApply t ok lu place =>
      have hend : FlagIsHigh (endApply σ.status ok lu) := by
        cases ok with
        | true => exact (flagIsHigh_endApply_iff σ.status lu).mpr (hl t lu rfl)
        | false => exact h.status
      exact (((h.count σ.autoUpdate _ σ.listedAfter).publish hend).save).goto _ .idle trivial
  | setSwitch place =>
      exact (h.count _ σ.upgrades σ.listedAfter).goto _ (.switching _) trivial
  | @publishSwitch t enabled saved place =>
      have hs :
          FlagIsHigh (if saved then { σ.status with autoApply := enabled } else σ.status) := by
        cases saved with
        | true => exact h.status
        | false => exact h.status
      exact (h.publish hs).goto _ .idle trivial
  | restart => exact ⟨h.saved, h.saved, fun _ => trivial⟩

end FloorInvariant

theorem floorInvariant_start (autoUpdate : Bool) : FloorInvariant (System.start autoUpdate) where
  status := fun h => absurd h Bool.false_ne_true
  saved := fun h => absurd h Bool.false_ne_true
  tasks := fun _ => trivial

theorem publishesFloor_iff {setting : Setting} {σ τ : System} {l : Label} (h : FloorInvariant σ)
    (hstep : System.step setting σ l = some τ) :
    PublishesFloor σ l τ ↔ NoUpgradeUnderFlag σ l τ := by
  constructor
  · rintro hfloor t lu rfl
    cases System.steps_of_step hstep with
    | endApply place =>
        exact (flagIsHigh_endApply_iff σ.status lu).mp ((riskFloor_iff _).mp hfloor)
  · exact fun hl => (riskFloor_iff _).mpr (h.step hstep hl).status

/-- In a run of any tasks from the first start, every published status keeps the
floor exactly when no apply ends well while the manual-intervention flag is set. -/
theorem riskFloor_along_iff (setting : Setting) (autoUpdate : Bool) (labels : List Label) :
    Along (System.step setting) PublishesFloor (System.start autoUpdate) labels ↔
      Along (System.step setting) NoUpgradeUnderFlag (System.start autoUpdate) labels :=
  along_iff FloorInvariant
    (fun _ _ _ h hstep hfloor => h.step hstep ((publishesFloor_iff h hstep).mp hfloor))
    (fun _ _ _ h hstep => publishesFloor_iff h hstep) labels (floorInvariant_start autoUpdate)

/-- A check that finds news asking for manual intervention, then an apply. -/
def upgradeUnderFlag : List Label := [
  .act 0 (.startCheck false 0),
  .act 0 (.fetchPackages (.ok [⟨"firefox", "1", "2", []⟩])),
  .act 0 (.fetchNews [⟨"mkinitcpio requires manual intervention", "2026-09-02", []⟩]),
  .act 0 .clone, .act 0 (.refresh 0 none), .act 0 .store,
  .act 1 .beginApply, .act 1 (.endApply true ⟨0, [], none, true, [], []⟩)]

/-- After an upgrade the flag is still set and the risk is low. -/
theorem riskFloor_broken :
    ¬ ∀ (setting : Setting) (autoUpdate : Bool) (labels : List Label),
      Along (System.step setting) PublishesFloor (System.start autoUpdate) labels := by
  intro h
  have hlow : (exec (System.step ⟨fun _ => "2026-09-01", true⟩) (System.start true)
      upgradeUnderFlag).map (fun τ => (τ.status.manualIntervention, τ.status.risk)) =
        some (true, "low".toList) := by decide
  obtain ⟨τ, hτ, hstatus⟩ := Option.map_eq_some_iff.mp hlow
  have hfloor : RiskFloor τ.status :=
    (h ⟨fun _ => "2026-09-01", true⟩ true upgradeUnderFlag).exec (R := fun τ => RiskFloor τ.status)
      (fun _ _ _ hp => hp) ((riskFloor_iff _).mpr (floorInvariant_start true).status) hτ
  obtain ⟨hmanual, hrisk⟩ := Prod.mk.inj hstatus
  exact absurd (hrisk.symm.trans (hfloor.2 hmanual)) (by decide)

end MindOS.Updates
