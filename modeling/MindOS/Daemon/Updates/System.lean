import Mathlib.Logic.Function.Basic
import MindOS.Daemon.Updates.Basic
import MindOS.Transition

/-!
# The updates service

## Checks one after the other

A check that nothing interrupts, and runs of such checks. The rules read the news
at every assessment, but a check that finds the same package list already rated by
the model assesses nothing: it keeps the whole verdict, the manual-intervention
flag with it, while the news it stores may be new.
-/

namespace MindOS.Updates

open Text Transition

variable (day : Nat → Text)

/-- What the world answers during one check. -/
structure CheckInput where
  /-- The model may be asked. -/
  assess : Bool
  /-- The time of the last update, read when the check starts. -/
  lastTime : Nat
  fetched : Fetched
  checkedAt : Nat
  lastUpdate : Option LastUpdate
  autoUpdate : Bool
  /-- What the model's answer holds, if it is asked. -/
  answer : Option Json

/-- A whole check on a status that nothing else touches meanwhile. -/
def completeCheck (s : UpdateStatus) (i : CheckInput) : UpdateStatus :=
  let s := underCheck s
  let stored := refresh day s i.fetched i.lastTime i.checkedAt i.lastUpdate i.autoUpdate
  if assessNow i.assess s i.fetched then
    let stored := { stored with assessing := true }
    landVerdict stored (modelAssessment stored i.answer)
  else stored

/-- The check keeps the verdict of an earlier one. -/
def keepsVerdict (s : UpdateStatus) (f : Fetched) : Bool := !changed s f && s.assessedByModel

/-! ### What a check leaves of the flag -/

@[simp] theorem ruleAssessment_manualIntervention (s : UpdateStatus) (t : Nat) :
    (ruleAssessment day s t).manualIntervention = manualPending day s.news t := rfl

@[simp] theorem mergeVerdict_manualIntervention (s : UpdateStatus) (v : Json) :
    (mergeVerdict s v).manualIntervention = s.manualIntervention := by
  simp only [mergeVerdict]
  split <;> rfl

@[simp] theorem modelAssessment_manualIntervention (s : UpdateStatus) (answer : Option Json) :
    (modelAssessment s answer).manualIntervention = s.manualIntervention := by
  unfold modelAssessment
  split
  · rfl
  · cases answer with
    | none => rfl
    | some v => exact mergeVerdict_manualIntervention s v

@[simp] theorem landVerdict_manualIntervention (cur s : UpdateStatus) :
    (landVerdict cur s).manualIntervention = cur.manualIntervention := by
  unfold landVerdict
  split <;> rfl

@[simp] theorem landVerdict_news (cur s : UpdateStatus) : (landVerdict cur s).news = cur.news := by
  unfold landVerdict
  split <;> rfl

section Refresh

variable (s : UpdateStatus) (f : Fetched) (lastTime checkedAt : Nat)
  (lastUpdate : Option LastUpdate) (autoApply : Bool)

theorem refresh_news :
    (refresh day s f lastTime checkedAt lastUpdate autoApply).news = f.newsOr s.news := by
  simp only [refresh]
  split <;> rfl

theorem refresh_manualIntervention :
    (refresh day s f lastTime checkedAt lastUpdate autoApply).manualIntervention =
      if keepsVerdict s f then s.manualIntervention
      else manualPending day (f.newsOr s.news) lastTime := by
  cases hchanged : changed s f <;> cases hmodel : s.assessedByModel <;>
    simp [refresh, keepsVerdict, hchanged, hmodel]

end Refresh

theorem completeCheck_news (s : UpdateStatus) (i : CheckInput) :
    (completeCheck day s i).news = i.fetched.newsOr s.news := by
  have hrefresh := refresh_news day (underCheck s)
    i.fetched i.lastTime i.checkedAt i.lastUpdate i.autoUpdate
  simp only [completeCheck]
  split
  · rw [landVerdict_news]
    exact hrefresh
  · exact hrefresh

theorem completeCheck_manualIntervention (s : UpdateStatus) (i : CheckInput) :
    (completeCheck day s i).manualIntervention =
      if keepsVerdict s i.fetched then s.manualIntervention
      else manualPending day (i.fetched.newsOr s.news) i.lastTime := by
  have hrefresh := refresh_manualIntervention day (underCheck s)
    i.fetched i.lastTime i.checkedAt i.lastUpdate i.autoUpdate
  simp only [completeCheck]
  split
  · rw [landVerdict_manualIntervention]
    exact hrefresh
  · exact hrefresh

/-! ### Runs of checks -/

/-- One check as a step; it is always enabled. -/
def checkStep (s : UpdateStatus) (i : CheckInput) : Option UpdateStatus :=
  some (completeCheck day s i)

/-- After a check the flag is set exactly when news since the last update asks for
manual intervention, and the watcher applies nothing while there is such news. -/
def FlagAgrees (_ : UpdateStatus) (i : CheckInput) (t : UpdateStatus) : Prop :=
  (t.manualIntervention = true ↔
      ∃ n ∈ newsSince day t.news i.lastTime, asksManual n.title = true) ∧
    ∀ autoUpdate gameRunning, watchApplies autoUpdate gameRunning t = true →
      ¬ ∃ n ∈ newsSince day t.news i.lastTime, asksManual n.title = true

/-- If the check keeps an earlier verdict, the flag it keeps is right for the news. -/
def KeptFlagRight (s : UpdateStatus) (i : CheckInput) (_ : UpdateStatus) : Prop :=
  keepsVerdict s i.fetched = true →
    s.manualIntervention = manualPending day (i.fetched.newsOr s.news) i.lastTime

theorem not_manualIntervention_of_watchApplies {autoUpdate gameRunning : Bool} {s : UpdateStatus}
    (h : watchApplies autoUpdate gameRunning s = true) : s.manualIntervention = false := by
  simp only [watchApplies, Bool.and_eq_true, Bool.not_eq_true'] at h
  exact h.1.1.2

theorem flagAgrees_iff (s : UpdateStatus) (i : CheckInput) :
    FlagAgrees day s i (completeCheck day s i) ↔
      KeptFlagRight day s i (completeCheck day s i) := by
  have hpending : (∃ n ∈ newsSince day (completeCheck day s i).news i.lastTime,
      asksManual n.title = true) ↔
        manualPending day (i.fetched.newsOr s.news) i.lastTime = true := by
    rw [completeCheck_news, manualPending, List.any_eq_true]
  rw [FlagAgrees, KeptFlagRight, hpending, completeCheck_manualIntervention]
  cases hkeeps : keepsVerdict s i.fetched with
  | false =>
      simp only [Bool.false_eq_true, if_false, iff_self, true_and, false_implies, iff_true]
      intro autoUpdate gameRunning happly hpends
      have hflag := not_manualIntervention_of_watchApplies happly
      rw [completeCheck_manualIntervention, hkeeps, if_neg Bool.false_ne_true, hpends] at hflag
      cases hflag
  | true =>
      simp only [if_true, forall_const]
      constructor
      · exact fun h => Bool.eq_iff_iff.mpr h.1
      · intro h
        refine ⟨by rw [h], fun autoUpdate gameRunning happly hpends => ?_⟩
        have hflag := not_manualIntervention_of_watchApplies happly
        rw [completeCheck_manualIntervention, hkeeps, if_pos rfl, h, hpends] at hflag
        cases hflag

/-- In a run of checks from any status, the flag agrees with the news after every
check exactly when every check that keeps a verdict keeps a flag that is right. -/
theorem manualIntervention_agrees_iff (s : UpdateStatus) (inputs : List CheckInput) :
    Along (checkStep day) (FlagAgrees day) s inputs ↔
      Along (checkStep day) (KeptFlagRight day) s inputs := by
  refine along_iff (fun _ => True) (fun _ _ _ _ _ _ => trivial) ?_ inputs trivial
  rintro s i t - ht
  rw [← Option.some.inj ht]
  exact flagAgrees_iff day s i

/-- A check that finds one application to update, on a given set of news; the model
rates it low. -/
def firefoxCheck (news : List NewsItem) : CheckInput where
  assess := true
  lastTime := 0
  fetched := ⟨.ok [⟨"firefox", "1", "2", []⟩], news⟩
  checkedAt := 0
  lastUpdate := none
  autoUpdate := true
  answer := some (.obj [("risk", .str "low")])

/-- News that arrive between two checks of one package list are not seen, and the
watcher applies the updates. -/
theorem manualIntervention_missed :
    ¬ ∀ (day : Nat → Text) (s : UpdateStatus) (inputs : List CheckInput),
      Along (checkStep day) (FlagAgrees day) s inputs := by
  intro h
  have hrun := h (fun _ => "2026-09-01") {}
    [firefoxCheck [], firefoxCheck [⟨"mkinitcpio requires manual intervention", "2026-09-02", []⟩]]
  refine ((hrun _ rfl).2 _ rfl).1.2 true false (by decide) ?_
  exact ⟨⟨"mkinitcpio requires manual intervention", "2026-09-02", []⟩,
    by decide, by decide⟩

/-!
## The lock sections of the updates service

Any number of tasks run checks, applies and changes of the auto-update switch. A
step is what one task does between two points where another may come in: one lock
section, one access to the atomic switch, one answer of the outside. A check holds
a copy of the status from its `clone` to its `store`, and another one from there to
the model's verdict. A restart ends every task and reads the saved status.

The counters `upgrades`, `listedAfter` and `savedAfter` are not in the source. They
record how many upgrades have ended well and how many of them came before the
published and the saved package list were fetched.
-/

/-- Where a task stands. -/
inductive Task where
  | idle
  /-- A check behind its first lock section. -/
  | fetching (assess : Bool) (lastTime : Nat)
  /-- A check with the package list it got after so many upgrades. -/
  | listed (assess : Bool) (lastTime : Nat) (packages : Except Text (List PackageUpdate))
      (after : Nat)
  /-- A check with the news as well. -/
  | fetched (assess : Bool) (lastTime : Nat) (f : Fetched) (after : Nat)
  /-- A check with its copy of the status, and what its list will date from. -/
  | cloned (assess : Bool) (lastTime : Nat) (f : Fetched) (s : UpdateStatus) (after : Nat)
  /-- A check with the status it is about to store. -/
  | refreshed (s : UpdateStatus) (after : Nat) (asks : Bool)
  /-- A check that waits for the model's verdict on the status it stored. -/
  | rating (s : UpdateStatus)
  /-- An apply whose package upgrade runs. -/
  | upgrading
  /-- A change of the switch that is not published yet. -/
  | switching (enabled : Bool)

/-- The updates service. -/
structure System where
  /-- The status behind the lock. -/
  status : UpdateStatus
  /-- The atomic switch. -/
  autoUpdate : Bool
  /-- The status in the file. -/
  saved : UpdateStatus := {}
  tasks : Nat → Task := fun _ => .idle
  upgrades : Nat := 0
  listedAfter : Nat := 0
  savedAfter : Nat := 0

/-- What a task does next, with the answers it gets. -/
inductive Action where
  | startCheck (assess : Bool) (lastTime : Nat)
  | fetchPackages (packages : Except Text (List PackageUpdate))
  | fetchNews (news : List NewsItem)
  | clone
  | refresh (checkedAt : Nat) (lastUpdate : Option LastUpdate)
  | store
  | verdict (answer : Option Json)
  | beginApply
  | endApply (ok : Bool) (lu : LastUpdate)
  | setSwitch (enabled : Bool)
  /-- The preferences were saved, or could not be. -/
  | publishSwitch (saved : Bool)

/-- One step of a run. -/
inductive Label where
  | act (t : Nat) (a : Action)
  | restart (autoUpdate : Bool)

/-- What stays fixed: the calendar, and whether the model may be asked at all. -/
structure Setting where
  day : Nat → Text
  assess : Bool

namespace System

/-- The first start of the service. -/
def start (autoUpdate : Bool) : System :=
  { status := { autoApply := autoUpdate }, autoUpdate := autoUpdate }

/-- The task goes on to `next`. -/
def goto (σ : System) (t : Nat) (next : Task) : System :=
  { σ with tasks := Function.update σ.tasks t next }

@[simp] theorem goto_tasks (σ : System) (t : Nat) (next : Task) :
    (σ.goto t next).tasks = Function.update σ.tasks t next := rfl

/-- A lock section publishes a status. -/
def publish (σ : System) (s : UpdateStatus) : System := { σ with status := s }

/-- The published status is written to the file as well. -/
def save (σ : System) : System := { σ with saved := σ.status, savedAfter := σ.listedAfter }

/-- What the list that a check goes on with dates from. -/
def listAfter (σ : System) (f : Fetched) (after : Nat) : Nat :=
  match f.packages with
  | .ok _ => after
  | .error _ => σ.listedAfter

/-- The status a check is about to store, and whether it will ask the model. -/
def refreshed (setting : Setting) (σ : System) (assess : Bool) (lastTime : Nat) (f : Fetched)
    (s : UpdateStatus) (checkedAt : Nat) (lastUpdate : Option LastUpdate) : UpdateStatus × Bool :=
  let asks := setting.assess && assessNow assess s f
  let s := refresh setting.day s f lastTime checkedAt lastUpdate σ.autoUpdate
  ({ s with assessing := s.assessing || asks }, asks)

/-- What a task in a given place does on an action; `none` where it does not do it. -/
def act (setting : Setting) (σ : System) (t : Nat) : Task → Action → Option System
  | .idle, .startCheck assess lastTime =>
      (startCheck σ.status).map fun s => (σ.publish s).goto t (.fetching assess lastTime)
  | .fetching assess lastTime, .fetchPackages packages =>
      some (σ.goto t (.listed assess lastTime packages σ.upgrades))
  | .listed assess lastTime packages after, .fetchNews news =>
      some (σ.goto t (.fetched assess lastTime ⟨packages, news⟩ after))
  | .fetched assess lastTime f after, .clone =>
      some (σ.goto t (.cloned assess lastTime f σ.status (σ.listAfter f after)))
  | .cloned assess lastTime f s after, .refresh checkedAt lastUpdate =>
      let (s, asks) := refreshed setting σ assess lastTime f s checkedAt lastUpdate
      some (σ.goto t (.refreshed s after asks))
  | .refreshed s after asks, .store =>
      let σ := { σ.publish s with listedAfter := after }
      some (if asks then σ.goto t (.rating s) else σ.save.goto t .idle)
  | .rating s, .verdict answer =>
      some ((σ.publish (landVerdict σ.status (modelAssessment s answer))).save.goto t .idle)
  | .idle, .beginApply =>
      (beginApply σ.status).map fun s => (σ.publish s).goto t .upgrading
  | .upgrading, .endApply ok lu =>
      let σ := { σ with upgrades := if ok then σ.upgrades + 1 else σ.upgrades }
      some ((σ.publish (endApply σ.status ok lu)).save.goto t .idle)
  | .idle, .setSwitch enabled =>
      some ({ σ with autoUpdate := enabled }.goto t (.switching enabled))
  | .switching enabled, .publishSwitch saved =>
      let s := if saved then { σ.status with autoApply := enabled } else σ.status
      some ((σ.publish s).goto t .idle)
  | _, _ => none

/-- Everything comes up again from the saved status. -/
def restart (σ : System) (autoUpdate : Bool) : System :=
  { σ with
    status := { load σ.saved with autoApply := autoUpdate }
    autoUpdate := autoUpdate
    tasks := fun _ => .idle
    listedAfter := σ.savedAfter }

def step (setting : Setting) (σ : System) : Label → Option System
  | .act t a => σ.act setting t (σ.tasks t) a
  | .restart autoUpdate => some (σ.restart autoUpdate)

/-! ### What a step does -/

/-- The steps of the service, with what each of them needs and leaves. -/
inductive Steps (setting : Setting) (σ : System) : Label → System → Prop
  | startCheck {t assess lastTime s} (place : σ.tasks t = .idle)
      (free : startCheck σ.status = some s) :
      Steps setting σ (.act t (.startCheck assess lastTime))
        ((σ.publish s).goto t (.fetching assess lastTime))
  | fetchPackages {t assess lastTime packages} (place : σ.tasks t = .fetching assess lastTime) :
      Steps setting σ (.act t (.fetchPackages packages))
        (σ.goto t (.listed assess lastTime packages σ.upgrades))
  | fetchNews {t assess lastTime packages after news}
      (place : σ.tasks t = .listed assess lastTime packages after) :
      Steps setting σ (.act t (.fetchNews news))
        (σ.goto t (.fetched assess lastTime ⟨packages, news⟩ after))
  | clone {t assess lastTime f after} (place : σ.tasks t = .fetched assess lastTime f after) :
      Steps setting σ (.act t .clone)
        (σ.goto t (.cloned assess lastTime f σ.status (σ.listAfter f after)))
  | refresh {t assess lastTime f s after checkedAt lastUpdate}
      (place : σ.tasks t = .cloned assess lastTime f s after) :
      Steps setting σ (.act t (.refresh checkedAt lastUpdate))
        (σ.goto t (.refreshed (refreshed setting σ assess lastTime f s checkedAt lastUpdate).1 after
          (refreshed setting σ assess lastTime f s checkedAt lastUpdate).2))
  | store {t s after} (place : σ.tasks t = .refreshed s after false) :
      Steps setting σ (.act t .store)
        (({ σ.publish s with listedAfter := after } : System).save.goto t .idle)
  | storeAsking {t s after} (place : σ.tasks t = .refreshed s after true) :
      Steps setting σ (.act t .store)
        (({ σ.publish s with listedAfter := after } : System).goto t (.rating s))
  | verdict {t s answer} (place : σ.tasks t = .rating s) :
      Steps setting σ (.act t (.verdict answer))
        ((σ.publish (landVerdict σ.status (modelAssessment s answer))).save.goto t .idle)
  | beginApply {t} (place : σ.tasks t = .idle) (free : σ.status.applying = false) :
      Steps setting σ (.act t .beginApply)
        ((σ.publish { σ.status with applying := true }).goto t .upgrading)
  | endApply {t ok lu} (place : σ.tasks t = .upgrading) :
      Steps setting σ (.act t (.endApply ok lu))
        ((({ σ with upgrades := if ok then σ.upgrades + 1 else σ.upgrades } : System).publish
          (endApply σ.status ok lu)).save.goto t .idle)
  | setSwitch {t enabled} (place : σ.tasks t = .idle) :
      Steps setting σ (.act t (.setSwitch enabled))
        (({ σ with autoUpdate := enabled } : System).goto t (.switching enabled))
  | publishSwitch {t enabled saved} (place : σ.tasks t = .switching enabled) :
      Steps setting σ (.act t (.publishSwitch saved))
        ((σ.publish (if saved then { σ.status with autoApply := enabled } else σ.status)).goto t
          .idle)
  | restart {autoUpdate} : Steps setting σ (.restart autoUpdate) (σ.restart autoUpdate)

theorem steps_of_step {setting : Setting} {σ τ : System} {l : Label}
    (h : step setting σ l = some τ) : Steps setting σ l τ := by
  cases l with
  | restart autoUpdate =>
      rw [← Option.some.inj h]
      exact .restart
  | act t a =>
      simp only [step] at h
      generalize hplace : σ.tasks t = place at h
      cases place <;> cases a <;> simp only [act, reduceCtorEq] at h
      case idle.startCheck assess lastTime =>
        obtain ⟨s, hs, rfl⟩ := Option.map_eq_some_iff.mp h
        exact .startCheck hplace hs
      case idle.beginApply =>
        obtain ⟨s, hs, rfl⟩ := Option.map_eq_some_iff.mp h
        unfold Updates.beginApply at hs
        split at hs
        case isTrue => cases hs
        case isFalse hfree =>
          rw [← Option.some.inj hs]
          exact .beginApply hplace (by simpa using hfree)
      case idle.setSwitch enabled =>
        rw [← Option.some.inj h]
        exact .setSwitch hplace
      case fetching.fetchPackages assess lastTime packages =>
        rw [← Option.some.inj h]
        exact .fetchPackages hplace
      case listed.fetchNews assess lastTime packages after news =>
        rw [← Option.some.inj h]
        exact .fetchNews hplace
      case fetched.clone assess lastTime f after =>
        rw [← Option.some.inj h]
        exact .clone hplace
      case cloned.refresh assess lastTime f s after checkedAt lastUpdate =>
        rw [← Option.some.inj h]
        exact .refresh hplace
      case refreshed.store s after asks =>
        rw [← Option.some.inj h]
        cases asks with
        | true => exact .storeAsking hplace
        | false => exact .store hplace
      case rating.verdict s answer =>
        rw [← Option.some.inj h]
        exact .verdict hplace
      case upgrading.endApply ok lu =>
        rw [← Option.some.inj h]
        exact .endApply hplace
      case switching.publishSwitch enabled saved =>
        rw [← Option.some.inj h]
        exact .publishSwitch hplace

end System
end MindOS.Updates
