import MindOS.Daemon.Updates.LostUpdates
import MindOS.Daemon.Web.Basic

/-!
# Packages and what is remembered of them

## What checkupdates says

The list of pending packages, out of the text of a program whose end is written into
its output as a line. Success, nothing to do, failure and a run out of time all come
back as such a text, and a check stores what it makes of it.
-/

namespace MindOS.Updates

open Text

/-! ### The program and its text -/

/-- How a run of `checkupdates` ended. A program that could not be started ends with a
code of the shell, like any other. -/
inductive Outcome where
  /-- It exited; what it wrote, and what the shell around it wrote to stderr. -/
  | exited (code : Nat) (output stderr : Text)
  /-- Neither it nor the shell ended in time, or the shell could not be started. -/
  | timedOut

/-- The text that `sh` returns for `checkupdates 2>&1; echo "[rc $?]"`. -/
def Outcome.report : Outcome → Text
  | .exited code output stderr =>
      output ++ "[rc ".toList ++ decimal code ++ "]\n".toList ++
        if (trim stderr).isEmpty then []
        else "\n[stderr]\n".toList ++ stderr.rdropWhile isWhitespace
  | .timedOut => "timed out"

/-- What a package's breakage would hit; drives the rule-based risk. -/
def tagFor (name : Text) : Text :=
  let is (names : List Text) := names.contains name
  let starts (prefixes : List Text) := prefixes.any name.startsWith
  if is ["linux", "mkinitcpio", "limine", "dkms"]
      || starts ["linux-", "amd-ucode", "intel-ucode"] then "kernel"
  else if starts ["nvidia", "lib32-nvidia", "mesa", "lib32-mesa", "vulkan-", "lib32-vulkan"] then
    "gpu"
  else if is ["systemd", "glibc", "lib32-glibc", "pacman", "dbus", "greetd", "seatd", "btrfs-progs",
      "snapper", "openssl"] || starts ["systemd-"] then "core"
  else if starts ["mind", "ggml", "mindos-"] || is ["llama-cpp"] then "mindos"
  else if is ["steam", "gamescope", "gamemode", "lutris", "wireplumber"]
      || starts ["wine", "lib32-gamemode", "mangohud", "pipewire", "lib32-pipewire"] then "gaming"
  else if starts ["gtk4", "webkitgtk", "wayland", "libinput", "xorg-xwayland"] then "graphics"
  else []

/-- One line of the list: `name 1.0-1 -> 1.1-1`. -/
def parseLine (line : Text) : Option PackageUpdate :=
  match words line with
  | [name, old, arrow, new] =>
      if arrow = "->".toList then some ⟨name, old, new, tagFor name⟩ else none
  | _ => none

def checkPackages (out : Text) : Except Text (List PackageUpdate) :=
  if out.contains "[rc 1]" && !out.contains " -> " then
    .error ("checkupdates failed: ".toList ++ trim ((Web.lines out).headD []))
  else .ok ((Web.lines out).filterMap parseLine)

/-! ### A check -/

/-- The program exited with 0, or with 2 because there is nothing to update. -/
def Outcome.Succeeded : Outcome → Prop
  | .exited code _ _ => code = 0 ∨ code = 2
  | .timedOut => False

/-- The text that counts as a failure. -/
def Outcome.SaysFailed (o : Outcome) : Prop :=
  o.report.contains "[rc 1]" = true ∧ o.report.contains " -> " = false

/-- A check in which `checkupdates` ended in this way. -/
def checkAfter (day : Nat → Text) (s : UpdateStatus) (i : CheckInput) (o : Outcome) :
    UpdateStatus :=
  completeCheck day s { i with fetched := ⟨checkPackages o.report, i.fetched.news⟩ }

/-- A list comes from a success alone, and a failed check leaves the known list and the
time of the last successful check as they were. -/
def FailureKeeps (day : Nat → Text) (s : UpdateStatus) (i : CheckInput) (o : Outcome) : Prop :=
  ((∃ packages, checkPackages o.report = .ok packages) → o.Succeeded) ∧
    (¬o.Succeeded →
      (checkAfter day s i o).packages = s.packages ∧
        (checkAfter day s i o).checkedAt = s.checkedAt)

section Check

variable {o : Outcome}

theorem checkPackages_of_saysFailed (h : o.SaysFailed) :
    ∃ e, checkPackages o.report = .error e := by
  refine ⟨_, if_pos ?_⟩
  rw [h.1, h.2]
  rfl

theorem saysFailed_of_not_ok (h : ¬∃ packages, checkPackages o.report = .ok packages) :
    o.SaysFailed := by
  by_contra hno
  apply h
  refine ⟨_, if_neg fun htext => hno ?_⟩
  rw [Bool.and_eq_true, Bool.not_eq_true'] at htext
  exact htext

theorem landVerdict_checkedAt (cur t : UpdateStatus) :
    (landVerdict cur t).checkedAt = cur.checkedAt := by
  simp only [landVerdict]
  split <;> rfl

variable (day : Nat → Text) (s : UpdateStatus) (i : CheckInput)

theorem refresh_packages (f : Fetched) (lastTime checkedAt : Nat) (lastUpdate : Option LastUpdate)
    (autoApply : Bool) : (refresh day s f lastTime checkedAt lastUpdate autoApply).packages =
      f.list s.packages := by
  simp only [refresh]
  split <;> rfl

theorem refresh_checkedAt (f : Fetched) (lastTime checkedAt : Nat)
    (lastUpdate : Option LastUpdate) (autoApply : Bool) :
    (refresh day s f lastTime checkedAt lastUpdate autoApply).checkedAt = checkedAt := by
  simp only [refresh]
  split <;> rfl

theorem completeCheck_packages :
    (completeCheck day s i).packages = i.fetched.list s.packages := by
  have hrefresh := refresh_packages day (underCheck s) i.fetched i.lastTime i.checkedAt
    i.lastUpdate i.autoUpdate
  simp only [completeCheck]
  split
  · rw [landVerdict_packages]
    exact hrefresh
  · exact hrefresh

theorem completeCheck_checkedAt : (completeCheck day s i).checkedAt = i.checkedAt := by
  have hrefresh := refresh_checkedAt day (underCheck s) i.fetched i.lastTime i.checkedAt
    i.lastUpdate i.autoUpdate
  simp only [completeCheck]
  split
  · rw [landVerdict_checkedAt]
    exact hrefresh
  · exact hrefresh

end Check

/-- A check is right about how the program ended exactly when that was a success, or its
text counts as a failure and no time has passed since the check before. -/
theorem failureKeeps_iff (day : Nat → Text) (s : UpdateStatus) (i : CheckInput) (o : Outcome) :
    FailureKeeps day s i o ↔ o.Succeeded ∨ (o.SaysFailed ∧ i.checkedAt = s.checkedAt) := by
  have htime : (checkAfter day s i o).checkedAt = i.checkedAt := completeCheck_checkedAt ..
  constructor
  · rintro ⟨hok, hkeeps⟩
    by_cases hsucceeded : o.Succeeded
    · exact .inl hsucceeded
    · have hfailed := saysFailed_of_not_ok fun h => hsucceeded (hok h)
      exact .inr ⟨hfailed, htime.symm.trans (hkeeps hsucceeded).2⟩
  · rintro (hsucceeded | ⟨hfailed, hnow⟩)
    · exact ⟨fun _ => hsucceeded, fun hno => absurd hsucceeded hno⟩
    · obtain ⟨e, he⟩ := checkPackages_of_saysFailed hfailed
      have hlist : (checkAfter day s i o).packages = s.packages := by
        rw [checkAfter, completeCheck_packages, Fetched.list, he]
      refine ⟨?_, fun _ => ⟨hlist, htime.trans hnow⟩⟩
      rintro ⟨packages, hpackages⟩
      rw [he] at hpackages
      cases hpackages

/-- A status that knows of one package, and a check an hour after the last one. -/
def knownFirefox : UpdateStatus :=
  { checkedAt := 1, packages := [⟨"firefox", "1", "2", []⟩], risk := "low" }

def hourLater : CheckInput :=
  { assess := false, lastTime := 0, fetched := ⟨.ok [], []⟩, checkedAt := 3601, lastUpdate := none,
    autoUpdate := false, answer := none }

/-- A run out of time is a list without packages; a failure counts as a check. -/
theorem not_failureKeeps :
    ¬FailureKeeps (fun _ => []) knownFirefox hourLater .timedOut ∧
      ¬FailureKeeps (fun _ => []) knownFirefox hourLater
        (.exited 1 "==> ERROR: Cannot fetch updates\n" []) := by
  constructor
  · rintro ⟨hok, -⟩
    exact hok ⟨_, rfl⟩
  · rintro ⟨-, hkeeps⟩
    have htime := (hkeeps (by rintro (h | h) <;> cases h)).2
    rw [checkAfter, completeCheck_checkedAt] at htime
    exact absurd htime (by decide)

/-!
## What an assessment by rules remembers

Two checks that end with the same packages and the same news, the last update at the
same time, and what the statuses before them can still change about the assessment.
-/

/-- What an assessment says. -/
structure Verdict where
  risk : Text
  summary : Text
  warnings : List Text
  manualIntervention : Bool
  reboot : Bool
  deriving DecidableEq

def UpdateStatus.verdict (s : UpdateStatus) : Verdict :=
  ⟨s.risk, s.summary, s.warnings, s.manualIntervention, s.reboot⟩

/-- A package is pending that the rules ask to reboot for. -/
def asksReboot (packages : List PackageUpdate) : Bool :=
  hasTag packages "kernel" || hasTag packages "gpu"

/-- What the rules say to packages and news; `before` is the flag they find. -/
def ruleVerdict (day : Nat → Text) (packages : List PackageUpdate) (news : List NewsItem)
    (lastTime : Nat) (before : Bool) : Verdict :=
  let manual := manualPending day news lastTime
  { risk := ruleRisk packages manual
    summary := ruleSummary packages
    warnings := (if manual then [manualWarning] else []) ++ tagWarnings packages ++
      newsWarnings (newsSince day news lastTime) ++ batchWarnings packages
    manualIntervention := manual
    reboot := before || asksReboot packages }

section Rules

variable (day : Nat → Text) (s : UpdateStatus)

theorem verdict_ruleAssessment (lastTime : Nat) :
    (ruleAssessment day s lastTime).verdict =
      ruleVerdict day s.packages s.news lastTime s.reboot := by
  simp only [UpdateStatus.verdict, ruleAssessment, ruleVerdict, asksReboot, Bool.or_assoc]

theorem ruleVerdict_eq_iff (packages : List PackageUpdate) (news : List NewsItem) (lastTime : Nat)
    (a b : Bool) :
    ruleVerdict day packages news lastTime a = ruleVerdict day packages news lastTime b ↔
      a = b ∨ asksReboot packages = true := by
  simp only [ruleVerdict, Verdict.mk.injEq, true_and]
  cases a <;> cases b <;> simp

section Refresh

variable (f : Fetched) (lastTime checkedAt : Nat) (lastUpdate : Option LastUpdate)
  (autoApply : Bool)

theorem verdict_refresh (h : (changed s f || !s.assessedByModel) = true) :
    (refresh day s f lastTime checkedAt lastUpdate autoApply).verdict =
      ruleVerdict day (f.list s.packages) (f.newsOr s.news) lastTime s.reboot := by
  simp only [refresh, h, if_true]
  exact verdict_ruleAssessment day _ lastTime

theorem assessedByModel_refresh :
    (refresh day s f lastTime checkedAt lastUpdate autoApply).assessedByModel =
      !(changed s f || !s.assessedByModel) := by
  simp only [refresh]
  split
  case isTrue h =>
    rw [h]
    rfl
  case isFalse h =>
    rw [Bool.or_eq_true, not_or, Bool.not_eq_true, Bool.not_eq_true, Bool.not_eq_false'] at h
    rw [h.1, h.2]
    rfl

end Refresh

theorem modelAssessment_cases (s : UpdateStatus) (answer : Option Json) :
    modelAssessment s answer = s ∨ (modelAssessment s answer).assessedByModel = true := by
  simp only [modelAssessment]
  split
  · exact .inl rfl
  · cases answer with
    | none => exact .inl rfl
    | some v =>
        simp only [mergeVerdict]
        split
        · exact .inl rfl
        · exact .inr rfl

theorem verdict_landVerdict {s : UpdateStatus} {answer : Option Json}
    (h : (landVerdict s (modelAssessment s answer)).assessedByModel = false) :
    (landVerdict s (modelAssessment s answer)).verdict = s.verdict := by
  obtain hsame | hmodel := modelAssessment_cases s answer
  · rw [hsame, landVerdict, if_pos ⟨rfl, rfl⟩]
    rfl
  · simp only [landVerdict] at h ⊢
    split
    case isTrue hmatch =>
      rw [if_pos hmatch] at h
      rw [h] at hmodel
      cases hmodel
    case isFalse => rfl

end Rules

/-- The check assessed by rules alone. -/
def ByRules (day : Nat → Text) (s : UpdateStatus) (i : CheckInput) : Prop :=
  (completeCheck day s i).assessedByModel = false

theorem verdict_completeCheck (day : Nat → Text) {s : UpdateStatus} {i : CheckInput}
    (h : ByRules day s i) :
    (completeCheck day s i).verdict =
      ruleVerdict day (completeCheck day s i).packages (completeCheck day s i).news i.lastTime
        s.reboot := by
  have hrefresh := verdict_refresh day (underCheck s) i.fetched i.lastTime i.checkedAt
    i.lastUpdate i.autoUpdate
  rw [completeCheck_packages, completeCheck_news]
  simp only [ByRules, completeCheck] at h ⊢
  split
  case isTrue hask =>
    -- The model was asked, so the rules were applied before.
    rw [if_pos hask] at h
    simp only [assessNow, Bool.and_eq_true] at hask
    exact (verdict_landVerdict h).trans (hrefresh hask.1.1.2)
  case isFalse hask =>
    rw [if_neg hask, assessedByModel_refresh, Bool.not_eq_false'] at h
    exact hrefresh h

/-- Two checks by rules that end with the same packages and news, and read the same time of
the last update, agree exactly when the reboot flags before them do, or a package asks for a
reboot. -/
theorem verdict_eq_iff (day : Nat → Text) {s t : UpdateStatus} {i j : CheckInput}
    (hs : ByRules day s i) (ht : ByRules day t j)
    (hpackages : (completeCheck day s i).packages = (completeCheck day t j).packages)
    (hnews : (completeCheck day s i).news = (completeCheck day t j).news)
    (htime : i.lastTime = j.lastTime) :
    (completeCheck day s i).verdict = (completeCheck day t j).verdict ↔
      s.reboot = t.reboot ∨ asksReboot (completeCheck day s i).packages = true := by
  rw [verdict_completeCheck day hs, verdict_completeCheck day ht, ← hpackages, ← hnews, ← htime]
  exact ruleVerdict_eq_iff ..

/-! ### A run -/

/-- A check without the model that finds one package. -/
def checkOf (name tag : Text) : CheckInput :=
  { assess := false, lastTime := 0, fetched := ⟨.ok [⟨name, "1", "2", tag⟩], []⟩, checkedAt := 0,
    lastUpdate := none, autoUpdate := false, answer := none }

/-- The status after a kernel update was found, installed and rebooted into. -/
def afterKernelUpdate : UpdateStatus :=
  load (endApply (completeCheck (fun _ => []) {} (checkOf "linux" "kernel")) true { time := 0 })

/-- Both statuses have the reboot flag, which the first package does not ask for. -/
theorem verdict_eq_iff_firefox :
    (completeCheck (fun _ => []) afterKernelUpdate (checkOf "firefox" [])).verdict =
        (completeCheck (fun _ => []) { reboot := true } (checkOf "firefox" [])).verdict ↔
      afterKernelUpdate.reboot = true ∨
        asksReboot (completeCheck (fun _ => []) afterKernelUpdate
          (checkOf "firefox" [])).packages = true :=
  verdict_eq_iff (fun _ => []) (t := { reboot := true }) rfl rfl rfl rfl rfl

/-- After a kernel update every later check asks to reboot, which a fresh status does not. -/
theorem verdict_remembers :
    ¬∀ (day : Nat → Text) (s t : UpdateStatus) (i j : CheckInput),
      ByRules day s i → ByRules day t j →
      (completeCheck day s i).packages = (completeCheck day t j).packages →
      (completeCheck day s i).news = (completeCheck day t j).news → i.lastTime = j.lastTime →
      (completeCheck day s i).verdict = (completeCheck day t j).verdict := by
  intro h
  have hsame := h (fun _ => []) afterKernelUpdate {} (checkOf "firefox" []) (checkOf "firefox" [])
    rfl rfl rfl rfl rfl
  exact absurd (congrArg Verdict.reboot hsame) (by decide)

end MindOS.Updates
