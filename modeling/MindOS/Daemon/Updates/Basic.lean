import MindOS.Json.Basic
import MindOS.Text.Words

/-!
# The update status and its assessments

What the update watcher knows, the assessment by rules, the merge of the model's
verdict, and the pieces of a check and of an apply that work on one status. The
day a time falls on is what the calendar library prints for it, a parameter.
-/

namespace MindOS.Updates

open Text

/-! ### The status -/

/-- One package the update check found. -/
structure PackageUpdate where
  name : Text
  old : Text
  new : Text
  /-- What a breakage would hit. -/
  tag : Text
  deriving DecidableEq

structure NewsItem where
  title : Text
  date : Text
  url : Text
  deriving DecidableEq

/-- The last pacman transaction. -/
structure LastUpdate where
  time : Nat
  packages : List Text := []
  preSnapshot : Option Nat := none
  ok : Bool := false
  verified : Text := []
  report : Text := []
  deriving DecidableEq

/-- What the update watcher knows. -/
structure UpdateStatus where
  checkedAt : Nat := 0
  packages : List PackageUpdate := []
  news : List NewsItem := []
  risk : Text := []
  summary : Text := []
  warnings : List Text := []
  manualIntervention : Bool := false
  reboot : Bool := false
  assessedByModel : Bool := false
  assessing : Bool := false
  checking : Bool := false
  applying : Bool := false
  autoApply : Bool := false
  lastUpdate : Option LastUpdate := none
  error : Text := []
  deriving DecidableEq

/-- A status read back from its file: nothing is under way. -/
def load (s : UpdateStatus) : UpdateStatus :=
  { s with assessing := false, checking := false, applying := false }

/-! ### The assessment by rules -/

def decimal (n : Nat) : Text := n.repr.toList

def hasTag (packages : List PackageUpdate) (tag : Text) : Bool :=
  packages.any fun p => p.tag == tag

/-- The names of the packages with one tag. -/
def tagNames (packages : List PackageUpdate) (tag : Text) : Text :=
  join ", " ((packages.filter fun p => p.tag == tag).map (·.name))

/-- The news of the day of `since` and of the days after it. -/
def newsSince (day : Nat → Text) (news : List NewsItem) (since : Nat) : List NewsItem :=
  news.filter fun n => !decide (n.date < day since)

/-- A headline that asks for manual steps. -/
def asksManual (title : Text) : Bool :=
  let t := title.toLowercase
  t.contains "manual intervention" || t.contains "requires manual" ||
    t.contains "action required" || t.contains "breaking"

/-- Some news since the last update asks for manual intervention. -/
def manualPending (day : Nat → Text) (news : List NewsItem) (lastTime : Nat) : Bool :=
  (newsSince day news lastTime).any fun n => asksManual n.title

/-- The risk of a package list, before the news. -/
def packageRisk (packages : List PackageUpdate) : Nat :=
  let risk := 0
  let risk := if hasTag packages "kernel" then max risk 2 else risk
  let risk := if hasTag packages "gpu" then max risk 2 else risk
  let risk := if hasTag packages "core" then max risk 2 else risk
  let risk := if hasTag packages "mindos" then max risk 1 else risk
  let risk := if hasTag packages "gaming" then max risk 1 else risk
  if packages.length > 150 then max risk 2 else risk

/-- The risk by rules alone. -/
def ruleRisk (packages : List PackageUpdate) (manual : Bool) : Text :=
  let risk := if manual then 3 else packageRisk packages
  (["low", "low", "medium", "high"] : List Text).getD (min risk 3) []

/-- The warnings about the tagged packages. -/
def tagWarnings (packages : List PackageUpdate) : List Text :=
  let warn (tag before after : Text) : List Text :=
    if hasTag packages tag then [before ++ tagNames packages tag ++ after] else []
  warn "kernel" "Kernel or boot stack changes ("
      "): a reboot is needed and the NVIDIA module is rebuilt for the new kernel." ++
    warn "gpu" "GPU driver or Vulkan changes ("
      "): games may behave differently; reboot afterwards." ++
    warn "core" "Core system packages (" "): pay attention to .pacnew files." ++
    warn "mindos" "MindOS components (" "): the desktop or the Mind may restart." ++
    warn "gaming" "Gaming stack ("
      "): Proton prefixes and Wine apps may need a first-run update."

def manualWarning : Text :=
  "Arch news announces a manual intervention since your last update; read it before updating."

/-- One news item as a warning quotes it. -/
def newsLine (n : NewsItem) : Text := n.date ++ " — ".toList ++ n.title

/-- The warning about the news since the last update. -/
def newsWarnings (recent : List NewsItem) : List Text :=
  if recent.isEmpty then []
  else ["Arch news since your last update: ".toList ++ join "; " (recent.map newsLine)]

def batchWarnings (packages : List PackageUpdate) : List Text :=
  if packages.length > 150 then
    ["A big batch (".toList ++ decimal packages.length ++
      (" packages): more can go wrong at once; the pre-update snapshot is your way back." :
        Text)]
  else []

/-- The sentence about a package list. -/
def ruleSummary (packages : List PackageUpdate) : Text :=
  let n := packages.length
  if n = 0 then "The system is up to date."
  else
    let tagged := (["kernel", "gpu", "core", "mindos", "gaming", "graphics"] : List Text).filter
      (hasTag packages)
    decimal n ++ " package".toList ++ (if n = 1 then [] else "s".toList) ++ " to update".toList ++
      (if tagged.isEmpty then " (applications and libraries only)".toList
        else ", touching ".toList ++ join ", " tagged) ++ ".".toList

/-- Risk from rules alone. -/
def ruleAssessment (day : Nat → Text) (s : UpdateStatus) (lastTime : Nat) : UpdateStatus :=
  let manual := manualPending day s.news lastTime
  { s with
    risk := ruleRisk s.packages manual
    warnings := (if manual then [manualWarning] else []) ++ tagWarnings s.packages ++
      newsWarnings (newsSince day s.news lastTime) ++ batchWarnings s.packages
    manualIntervention := manual
    reboot := s.reboot || hasTag s.packages "kernel" || hasTag s.packages "gpu"
    assessedByModel := false
    summary := ruleSummary s.packages }

/-! ### The model's verdict -/

/-- The order of the risks; anything but low and medium counts as high. -/
def riskOrder (risk : Text) : Nat :=
  if risk = "low".toList then 0 else if risk = "medium".toList then 1 else 2

def riskOfOrder (n : Nat) : Text := (["low", "medium", "high"] : List Text).getD n []

/-- The model may lower the rule risk by one step at most, never below a manual
intervention. -/
def chosenRisk (rules : Text) (manual : Bool) (answer : Text) : Nat :=
  if manual then 2
  else if riskOrder answer + 1 < riskOrder rules then riskOrder rules - 1
  else riskOrder answer

/-- The warnings of a verdict: trimmed, the empty ones left out, at most four. -/
def verdictWarnings (v : Json) : List Text :=
  ((((v.get "warnings").asArray).map fun items =>
    ((Json.strings items).map trim).filter fun w => !w.isEmpty).getD []).take 4

/-- Merge a verdict into the status it is about. -/
def mergeVerdict (s : UpdateStatus) (v : Json) : UpdateStatus :=
  let answer := ((v.getStr "risk").getD []).toLowercase
  if !(["low", "medium", "high"] : List Text).contains answer then s
  else
    let given := verdictWarnings v
    { s with
      risk := riskOfOrder (chosenRisk s.risk s.manualIntervention answer)
      summary :=
        match v.getStr "summary" with
        | some sum => if (trim sum).isEmpty then s.summary else trim sum
        | none => s.summary
      warnings :=
        if given.isEmpty then s.warnings
        else if s.manualIntervention then manualWarning :: given
        else given
      reboot := s.reboot || ((v.get "reboot").asBool).getD false
      assessedByModel := true }

/-- The model's assessment; without a usable answer the rules stand. -/
def modelAssessment (s : UpdateStatus) (answer : Option Json) : UpdateStatus :=
  if s.packages.isEmpty then s
  else
    match answer with
    | none => s
    | some v => mergeVerdict s v

/-! ### The pieces of a check -/

/-- What an assessment is about: the packages and their target versions. -/
def packageKey (packages : List PackageUpdate) : List Text :=
  packages.map fun p => p.name ++ "=".toList ++ p.new

/-- What a check fetched. -/
structure Fetched where
  packages : Except Text (List PackageUpdate)
  news : List NewsItem

/-- The package list a check goes on with. -/
def Fetched.list (f : Fetched) (known : List PackageUpdate) : List PackageUpdate :=
  match f.packages with
  | .ok p => p
  | .error _ => known

/-- The error a check goes on with. -/
def Fetched.errorOr (f : Fetched) (known : Text) : Text :=
  match f.packages with
  | .ok _ => known
  | .error e => e

/-- The news a check goes on with. -/
def Fetched.newsOr (f : Fetched) (known : List NewsItem) : List NewsItem :=
  if f.news.isEmpty then known else f.news

/-- A check has to assess again: the list is another, or nothing was assessed. -/
def changed (s : UpdateStatus) (f : Fetched) : Bool :=
  packageKey (f.list s.packages) != packageKey s.packages || s.risk.isEmpty

/-- A status with a check under way. -/
def underCheck (s : UpdateStatus) : UpdateStatus := { s with checking := true, error := [] }

/-- The first lock section of a check; nothing when one is already under way. -/
def startCheck (s : UpdateStatus) : Option UpdateStatus :=
  if s.checking then none else some (underCheck s)

/-- What a check makes of its copy of the status before it stores it. -/
def refresh (day : Nat → Text) (s : UpdateStatus) (f : Fetched) (lastTime checkedAt : Nat)
    (lastUpdate : Option LastUpdate) (autoApply : Bool) : UpdateStatus :=
  let again := changed s f || !s.assessedByModel
  let s := { s with
    packages := f.list s.packages
    error := f.errorOr s.error
    news := f.newsOr s.news
    checkedAt := checkedAt
    checking := false }
  let s := if again then ruleAssessment day s lastTime else s
  { s with lastUpdate := lastUpdate, autoApply := autoApply }

/-- The check asks the model: it wants to, the list is not rated yet, and no other
check is asking. -/
def assessNow (assess : Bool) (s : UpdateStatus) (f : Fetched) : Bool :=
  assess && (changed s f || !s.assessedByModel) && !(f.list s.packages).isEmpty && !s.assessing

/-- The last lock section of a check that asked the model: the verdict on `s` lands
in the current status while that is still about the same list. -/
def landVerdict (cur s : UpdateStatus) : UpdateStatus :=
  if packageKey cur.packages = packageKey s.packages ∧
      cur.manualIntervention = s.manualIntervention then
    { cur with
      risk := s.risk, summary := s.summary, warnings := s.warnings, reboot := s.reboot
      assessedByModel := s.assessedByModel, assessing := false }
  else { cur with assessing := false }

/-! ### The pieces of an apply, and the watcher -/

/-- The first lock section of an apply; an error when one is already running. -/
def beginApply (s : UpdateStatus) : Option UpdateStatus :=
  if s.applying then none else some { s with applying := true }

/-- The last lock section of an apply. -/
def endApply (s : UpdateStatus) (ok : Bool) (lu : LastUpdate) : UpdateStatus :=
  let s := { s with applying := false, lastUpdate := some lu }
  if ok then
    { s with packages := [], risk := "low", summary := "The system is up to date.", warnings := [] }
  else s

/-- The watcher applies what its check returned. -/
def watchApplies (autoUpdate gameRunning : Bool) (s : UpdateStatus) : Bool :=
  autoUpdate && !s.packages.isEmpty && s.risk == "low" && !s.manualIntervention &&
    s.error.isEmpty && !gameRunning

end MindOS.Updates
