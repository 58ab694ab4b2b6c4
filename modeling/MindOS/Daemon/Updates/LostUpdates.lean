import MindOS.Daemon.Updates.System

/-!
# What a check's store may undo

A check stores the copy it cloned, so whatever another task wrote in between is
gone: the `applying` flag of an apply that began, a change of the switch. And the
list it stores is the one it fetched, which may be older than the upgrade that has
cleared the list. Between a check's clone and its store nothing else keeps these
apart, so the condition is on the copy at the moment of the store.
-/

namespace MindOS.Updates

open Text Transition

/-- What no step may lose. -/
structure NothingLost (σ : System) (l : Label) (τ : System) : Prop where
  /-- The published flag is set from the start of every apply to its end. -/
  applying : ∀ t, τ.tasks t = .upgrading → τ.status.applying = true
  /-- At most one package upgrade runs. -/
  alone : ∀ t u, τ.tasks t = .upgrading → τ.tasks u = .upgrading → t = u
  /-- Only a change of the switch and a restart publish another value than the
  published one and the current one. -/
  switch : (∀ t saved, l ≠ .act t (.publishSwitch saved)) → (∀ b, l ≠ .restart b) →
    τ.status.autoApply = σ.status.autoApply ∨ τ.status.autoApply = σ.autoUpdate
  /-- A published list was fetched after the last upgrade that ended well. -/
  list : τ.status.packages ≠ [] → τ.listedAfter = τ.upgrades

/-- What a check is about to store is not overtaken: an upgrade that runs now already
ran when the check copied the status, the switch it read is the published or the
current one, and its list, unless empty, was fetched after the last upgrade. -/
structure NotOvertaken (σ : System) (s : UpdateStatus) (after : Nat) : Prop where
  applying : (∃ t, σ.tasks t = .upgrading) → s.applying = true
  switch : s.autoApply = σ.status.autoApply ∨ s.autoApply = σ.autoUpdate
  list : s.packages ≠ [] → after = σ.upgrades

/-- Every store of a check is not overtaken. -/
def StoresFresh (σ : System) (l : Label) (_ : System) : Prop :=
  ∀ t s after asks, l = .act t .store → σ.tasks t = .refreshed s after asks →
    NotOvertaken σ s after

/-! ### The invariant -/

structure Consistent (σ : System) : Prop where
  applying : ∀ t, σ.tasks t = .upgrading → σ.status.applying = true
  alone : ∀ t u, σ.tasks t = .upgrading → σ.tasks u = .upgrading → t = u
  list : σ.status.packages ≠ [] → σ.listedAfter = σ.upgrades
  saved : σ.saved.packages ≠ [] → σ.savedAfter = σ.upgrades

theorem upgrading_of_goto {σ : System} {t u : Nat} {next : Task} (hnext : next ≠ .upgrading)
    (h : (σ.goto t next).tasks u = .upgrading) : u ≠ t ∧ σ.tasks u = .upgrading := by
  by_cases hu : u = t
  · subst hu
    rw [System.goto_tasks, Function.update_self] at h
    exact absurd h hnext
  · rw [System.goto_tasks, Function.update_of_ne hu] at h
    exact ⟨hu, h⟩

@[simp] theorem landVerdict_applying (cur s : UpdateStatus) :
    (landVerdict cur s).applying = cur.applying := by
  unfold landVerdict
  split <;> rfl

@[simp] theorem landVerdict_packages (cur s : UpdateStatus) :
    (landVerdict cur s).packages = cur.packages := by
  unfold landVerdict
  split <;> rfl

@[simp] theorem landVerdict_autoApply (cur s : UpdateStatus) :
    (landVerdict cur s).autoApply = cur.autoApply := by
  unfold landVerdict
  split <;> rfl

namespace Consistent

variable {σ : System}

theorem goto (h : Consistent σ) (t : Nat) {next : Task} (hnext : next ≠ .upgrading) :
    Consistent (σ.goto t next) where
  applying := fun u hu => h.applying u (upgrading_of_goto hnext hu).2
  alone := fun u v hu hv =>
    h.alone u v (upgrading_of_goto hnext hu).2 (upgrading_of_goto hnext hv).2
  list := h.list
  saved := h.saved

theorem publish (h : Consistent σ) {s : UpdateStatus}
    (happlying : s.applying = σ.status.applying) (hpackages : s.packages = σ.status.packages) :
    Consistent (σ.publish s) where
  applying := fun t ht => happlying.trans (h.applying t ht)
  alone := h.alone
  list := fun hne => h.list (hpackages ▸ hne)
  saved := h.saved

theorem save (h : Consistent σ) : Consistent σ.save where
  applying := h.applying
  alone := h.alone
  list := h.list
  saved := h.list

theorem store (h : Consistent σ) {s : UpdateStatus} {after : Nat} (hs : NotOvertaken σ s after) :
    Consistent { σ.publish s with listedAfter := after } where
  applying := fun t ht => hs.applying ⟨t, ht⟩
  alone := h.alone
  list := hs.list
  saved := h.saved

theorem beginApply (h : Consistent σ) {t : Nat} (free : σ.status.applying = false) :
    Consistent ((σ.publish { σ.status with applying := true }).goto t .upgrading) := by
  -- The flag was off, so no other upgrade runs.
  have hnone : ∀ u, σ.tasks u ≠ .upgrading := fun u hu =>
    Bool.false_ne_true (free.symm.trans (h.applying u hu))
  have honly : ∀ u, Function.update σ.tasks t .upgrading u = .upgrading → u = t := by
    intro u hu
    by_contra hne
    rw [Function.update_of_ne hne] at hu
    exact hnone u hu
  exact {
    applying := fun _ _ => rfl
    alone := fun u v hu hv => (honly u hu).trans (honly v hv).symm
    list := h.list
    saved := h.saved }

theorem endApply (h : Consistent σ) {t : Nat} (place : σ.tasks t = .upgrading) (ok : Bool)
    (lu : LastUpdate) :
    Consistent ((({ σ with upgrades := if ok then σ.upgrades + 1 else σ.upgrades } :
      System).publish (endApply σ.status ok lu)).save.goto t .idle) := by
  have hnone : ∀ u, Function.update σ.tasks t .idle u ≠ .upgrading := by
    intro u hu
    obtain ⟨hne, hrun⟩ := upgrading_of_goto (σ := σ) (by simp) hu
    exact hne (h.alone u t hrun place)
  have hlist : (Updates.endApply σ.status ok lu).packages ≠ [] →
      σ.listedAfter = if ok then σ.upgrades + 1 else σ.upgrades := by
    intro hne
    cases ok with
    | true => exact absurd rfl hne
    | false => exact h.list hne
  exact {
    applying := fun u hu => absurd hu (hnone u)
    alone := fun u _ hu => absurd hu (hnone u)
    list := hlist
    saved := hlist }

theorem restart (h : Consistent σ) (autoUpdate : Bool) : Consistent (σ.restart autoUpdate) where
  applying := fun _ ht => absurd ht (by simp [System.restart])
  alone := fun _ _ ht => absurd ht (by simp [System.restart])
  list := h.saved
  saved := h.saved

theorem step (h : Consistent σ) {setting : Setting} {l : Label} {τ : System}
    (hstep : System.step setting σ l = some τ) (hl : StoresFresh σ l τ) : Consistent τ := by
  cases System.steps_of_step hstep with
  | startCheck place free =>
      unfold Updates.startCheck at free
      split at free
      case isTrue => cases free
      case isFalse =>
        rw [← Option.some.inj free]
        exact (h.publish (s := underCheck σ.status) rfl rfl).goto _ (by simp)
  | fetchPackages place => exact h.goto _ (by simp)
  | fetchNews place => exact h.goto _ (by simp)
  | clone place => exact h.goto _ (by simp)
  | refresh place => exact h.goto _ (by simp)
  | store place => exact ((h.store (hl _ _ _ _ rfl place)).save).goto _ (by simp)
  | storeAsking place => exact (h.store (hl _ _ _ _ rfl place)).goto _ (by simp)
  | verdict place =>
      exact ((h.publish (landVerdict_applying ..) (landVerdict_packages ..)).save).goto _ (by simp)
  | beginApply place free => exact h.beginApply free
  | endApply place => exact h.endApply place _ _
  | setSwitch place =>
      have hswitch : ∀ b, Consistent { σ with autoUpdate := b } := fun b =>
        ⟨h.applying, h.alone, h.list, h.saved⟩
      exact (hswitch _).goto _ (by simp)
  | publishSwitch place => exact (h.publish (by split <;> rfl) (by split <;> rfl)).goto _ (by simp)
  | restart => exact h.restart _

end Consistent

theorem consistent_start (autoUpdate : Bool) : Consistent (System.start autoUpdate) where
  applying := fun _ h => absurd h (by simp [System.start])
  alone := fun _ _ h => absurd h (by simp [System.start])
  list := fun h => absurd rfl h
  saved := fun h => absurd rfl h

/-! ### Runs -/

theorem switch_kept {setting : Setting} {σ τ : System} {l : Label}
    (hstep : System.step setting σ l = some τ) (hl : StoresFresh σ l τ)
    (hpublish : ∀ t saved, l ≠ .act t (.publishSwitch saved)) (hrestart : ∀ b, l ≠ .restart b) :
    τ.status.autoApply = σ.status.autoApply ∨ τ.status.autoApply = σ.autoUpdate := by
  cases System.steps_of_step hstep with
  | startCheck place free =>
      unfold Updates.startCheck at free
      split at free
      case isTrue => cases free
      case isFalse =>
        rw [← Option.some.inj free]
        exact .inl rfl
  | fetchPackages place => exact .inl rfl
  | fetchNews place => exact .inl rfl
  | clone place => exact .inl rfl
  | refresh place => exact .inl rfl
  | store place => exact (hl _ _ _ _ rfl place).switch
  | storeAsking place => exact (hl _ _ _ _ rfl place).switch
  | verdict place => exact .inl (landVerdict_autoApply ..)
  | beginApply place free => exact .inl rfl
  | @endApply t ok lu place => cases ok <;> exact .inl rfl
  | setSwitch place => exact .inl rfl
  | publishSwitch place => exact absurd rfl (hpublish _ _)
  | restart => exact absurd rfl (hrestart _)

theorem nothingLost_iff {setting : Setting} {σ τ : System} {l : Label} (h : Consistent σ)
    (hstep : System.step setting σ l = some τ) : NothingLost σ l τ ↔ StoresFresh σ l τ := by
  constructor
  · rintro hlost t s after asks rfl place
    have hother : ∀ {next u}, σ.tasks u = .upgrading →
        Function.update σ.tasks t next u = .upgrading := by
      intro next u hu
      rw [Function.update_of_ne _ next σ.tasks]
      · exact hu
      · rintro rfl
        rw [place] at hu
        cases hu
    have hswitch := hlost.switch (by simp) (by simp)
    cases System.steps_of_step hstep with
    | store place' =>
        cases place.symm.trans place'
        exact ⟨fun ⟨u, hu⟩ => hlost.applying u (hother hu), hswitch, hlost.list⟩
    | storeAsking place' =>
        cases place.symm.trans place'
        exact ⟨fun ⟨u, hu⟩ => hlost.applying u (hother hu), hswitch, hlost.list⟩
  · intro hl
    have hτ := h.step hstep hl
    exact ⟨hτ.applying, hτ.alone, switch_kept hstep hl, hτ.list⟩

/-- In a run of any tasks from the first start nothing is lost exactly when no
store of a check is overtaken. -/
theorem nothingLost_along_iff (setting : Setting) (autoUpdate : Bool) (labels : List Label) :
    Along (System.step setting) NothingLost (System.start autoUpdate) labels ↔
      Along (System.step setting) StoresFresh (System.start autoUpdate) labels :=
  along_iff Consistent
    (fun _ _ _ h hstep hlost => h.step hstep ((nothingLost_iff h hstep).mp hlost))
    (fun _ _ _ h hstep => nothingLost_iff h hstep) labels (consistent_start autoUpdate)

/-- One check of task 0 up to its clone, with one package to update. -/
def fetchFirefox : List Label := [
  .act 0 (.startCheck false 0), .act 0 (.fetchPackages (.ok [⟨"firefox", "1", "2", []⟩])),
  .act 0 (.fetchNews [])]

/-- The rest of that check. -/
def storeFirefox : List Label := [.act 0 .clone, .act 0 (.refresh 0 none), .act 0 .store]

/-- A whole apply of task 1. -/
def upgradeAll : List Label := [
  .act 1 .beginApply, .act 1 (.endApply true ⟨0, [], none, true, [], []⟩)]

/-- An apply that ends between a check's fetch and its store has its list restored. -/
theorem list_restored :
    ¬ ∀ (setting : Setting) (autoUpdate : Bool) (labels : List Label),
      Along (System.step setting) NothingLost (System.start autoUpdate) labels := by
  intro h
  have hstale : (exec (System.step ⟨fun _ => [], true⟩) (System.start true)
      (fetchFirefox ++ storeFirefox ++ fetchFirefox ++ upgradeAll ++ storeFirefox)).map
        (fun τ => (τ.status.packages, τ.listedAfter, τ.upgrades)) =
          some ([⟨"firefox", "1", "2", []⟩], 0, 1) := by decide
  obtain ⟨τ, hτ, hstatus⟩ := Option.map_eq_some_iff.mp hstale
  have hlist : τ.status.packages ≠ [] → τ.listedAfter = τ.upgrades :=
    (h ⟨fun _ => [], true⟩ true _).exec
      (R := fun τ => τ.status.packages ≠ [] → τ.listedAfter = τ.upgrades)
      (fun _ _ _ hp => hp.list) (consistent_start true).list hτ
  simp only [Prod.mk.injEq] at hstatus
  obtain ⟨hpackages, hafter, hupgrades⟩ := hstatus
  rw [hpackages, hafter, hupgrades] at hlist
  exact absurd (hlist (by simp)) (by decide)

end MindOS.Updates
