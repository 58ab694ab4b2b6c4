import MindOS.Text.Basic
import MindOS.Transition

/-!
# Performance modes and games

`mindos-perf` keeps the mode that the user chose, the mode in effect, the number of games
that run and a mark that Mind sleeps in a file each. While games run the mode of
`GAME_MODE` is in effect; the chosen one takes over when the last game ends. Each command
is one step, under a lock; a command that fails is not a step. What a mode does to the
hardware is left out.
-/

namespace MindOS.Base.Perf

open Transition

inductive Mode where
  | balanced
  | performance
  | quiet
  deriving DecidableEq

def Mode.name : Mode → Text
  | .balanced => "balanced".toList
  | .performance => "performance".toList
  | .quiet => "quiet".toList

def validMode (t : Text) : Option Mode :=
  [Mode.balanced, .performance, .quiet].find? fun m => m.name == t

/-- The settings in `perf.conf`; no `gameMode` is the empty one, which keeps the current
mode. -/
structure Conf where
  gameMode : Option Mode := some .performance
  mindSleepsWhileGaming : Bool := true
  scxScheduler : Text := "scx_lavd".toList
  scxArgs : Text := []
  nvidiaPowerLimit : Text := "default".toList
  deriving DecidableEq

section Checks

def isDigit (c : Char) : Bool := c.isDigit

/-- `^scx_[a-z0-9_]+$` -/
def isScx (t : Text) : Bool :=
  t.startsWith "scx_".toList && !(t.drop 4).isEmpty &&
    (t.drop 4).all fun c => c.isLower || isDigit c || c == '_'

/-- `^[0-9]+([.][0-9]+)?$` -/
def isWatts (t : Text) : Bool :=
  let fraction := t.dropWhile isDigit
  !(t.takeWhile isDigit).isEmpty &&
    (fraction.isEmpty ||
      fraction.head? == some '.' && !(fraction.drop 1).isEmpty && (fraction.drop 1).all isDigit)

def hasQuoting (t : Text) : Bool := t.any "'\"`$".toList.contains

end Checks

/-- The file with one setting replaced, if the value is one that the key takes. -/
def Conf.put (c : Conf) (key val : Text) : Except Text Conf :=
  if key = "GAME_MODE".toList then
    if val = [] then .ok { c with gameMode := none }
    else
      match validMode val with
      | some g => .ok { c with gameMode := some g }
      | none => .error "GAME_MODE: balanced|performance|quiet or empty".toList
  else if key = "MIND_SLEEPS_WHILE_GAMING".toList then
    if val = "1".toList then .ok { c with mindSleepsWhileGaming := true }
    else if val = "0".toList then .ok { c with mindSleepsWhileGaming := false }
    else .error "MIND_SLEEPS_WHILE_GAMING: 0|1".toList
  else if key = "SCX_SCHEDULER".toList then
    if val = [] ∨ isScx val then .ok { c with scxScheduler := val }
    else .error "SCX_SCHEDULER: scx_* or empty".toList
  else if key = "SCX_ARGS".toList then
    if hasQuoting val then .error "SCX_ARGS: no quotes or expansions".toList
    else .ok { c with scxArgs := val }
  else if key = "NVIDIA_POWER_LIMIT".toList then
    if val = "default".toList ∨ val = "max".toList ∨ isWatts val then
      .ok { c with nvidiaPowerLimit := val }
    else .error "NVIDIA_POWER_LIMIT: default|max|<watts>".toList
  else .error ("config: unknown key '".toList ++ key ++ "'".toList)

theorem Conf.put_gameMode {c c' : Conf} {key val : Text} (h : c.put key val = .ok c')
    (hkey : key ≠ "GAME_MODE".toList) : c'.gameMode = c.gameMode := by
  rw [Conf.put, if_neg hkey] at h
  split_ifs at h <;> cases h <;> rfl

/-- What is on disk; `none` is a file that is missing. -/
structure Files where
  conf : Conf := {}
  mode : Option Mode := none
  game : Option Nat := none
  prevMode : Option Mode := none
  effective : Option Mode := none
  mindSlept : Bool := false
  deriving DecidableEq

/-- What `set` and `config` print. -/
inductive Answer where
  | nothing
  | mode (m : Mode)
  /-- The mode is saved, and another stays in effect until the game ends. -/
  | stays (m g : Mode)
  | setting (key val : Text)
  deriving DecidableEq

/-- What a command leaves behind, prints, and tells Mind. -/
structure Done where
  files : Files
  answer : Answer := .nothing
  slept : Bool := false
  woke : Bool := false
  deriving DecidableEq

inductive Command where
  | set (arg : Text)
  | config (key val : Text)
  | apply
  | gameStart
  | gameEnd
  deriving DecidableEq

namespace Files

/-- A number of more than nine digits reads as 0. -/
def gameCount (s : Files) : Nat := (s.game.filter fun n => decide (n < 1000000000)).getD 0

def modeGet (s : Files) : Mode := s.mode.getD .balanced

/-- The mode in effect, as `status` reports it. -/
def statusEffective (s : Files) : Mode := s.effective.getD s.modeGet

def applyMode (s : Files) (m : Mode) : Files := { s with effective := some m }

/-- The mode for games, while one runs. -/
def held (s : Files) : Option Mode := if s.gameCount = 0 then none else s.conf.gameMode

def setMode (s : Files) (m : Mode) : Done :=
  match s.held with
  | some g => { files := { s with prevMode := some m }, answer := .stays m g }
  | none => { files := s.applyMode m, answer := .mode m }

def set (s : Files) (arg : Text) : Except Text Done :=
  match validMode arg with
  | some m => .ok ({ s with mode := some m }.setMode m)
  | none => .error "usage: mindos-perf set balanced|performance|quiet".toList

def config (s : Files) (key val : Text) : Except Text Done :=
  (s.conf.put key val).map fun c =>
    { files := { s with conf := c }, answer := .setting key val }

/-- A restart of the service must not make the shell think that the game ended. -/
def apply (s : Files) : Done := { files := s.applyMode (s.held.getD s.modeGet) }

/-- Remembers what this gaming interval did, even if its preference changes. -/
def mindSleepOn (s : Files) (hasMind : Bool) : Done :=
  if s.conf.mindSleepsWhileGaming && hasMind then
    { files := { s with mindSlept := true }, slept := true }
  else { files := s }

def mindSleepOff (s : Files) (hasMind : Bool) : Done :=
  if s.mindSlept && hasMind then { files := { s with mindSlept := false }, woke := true }
  else { files := s }

/-- The first game's own part of `game-start`. -/
def enterGame (s : Files) (hasMind : Bool) : Done :=
  let d := s.mindSleepOn hasMind
  match s.conf.gameMode with
  | some g => { d with files := { d.files with prevMode := some s.modeGet }.applyMode g }
  | none => d

def gameStart (s : Files) (hasMind : Bool) : Done :=
  if s.gameCount = 0 then { s with game := some 1 }.enterGame hasMind
  else { files := { s with game := some (s.gameCount + 1) } }

/-- The last game's own part of `game-end`. -/
def leaveGame (s : Files) (hasMind : Bool) : Done :=
  ({ s with prevMode := none }.applyMode s.modeGet).mindSleepOff hasMind

def gameEnd (s : Files) (hasMind : Bool) : Done :=
  if s.gameCount = 0 then { files := s }
  else if s.gameCount = 1 then { s with game := some 0 }.leaveGame hasMind
  else { files := { s with game := some (s.gameCount - 1) } }

/-- Runs a command; `hasMind` is whether Mind is installed. -/
def run (s : Files) (hasMind : Bool) : Command → Except Text Done
  | .set arg => s.set arg
  | .config key val => s.config key val
  | .apply => .ok s.apply
  | .gameStart => .ok (s.gameStart hasMind)
  | .gameEnd => .ok (s.gameEnd hasMind)

/-- The files when the system has started: those below `/run` are gone. -/
def boot (conf : Conf) (mode : Option Mode) : Files := { conf := conf, mode := mode }

/-- The mode for games is one that is not in effect. -/
def off (s : Files) : Bool := s.held.any fun g => s.effective != some g

end Files

/-- The files and the last command's answer, with what happened so far. -/
structure Watched extends Done where
  /-- How often a game started. -/
  started : Nat := 0
  /-- How often one ended of those that were counted. -/
  ended : Nat := 0
  /-- The games that run now put Mind to sleep. -/
  putToSleep : Bool := false
  /-- While games run, `GAME_MODE` was last changed to a mode that was not in effect, and was
  not applied since. -/
  switched : Bool := false
  deriving DecidableEq

namespace Watched

def step (hasMind : Bool) (w : Watched) (a : Command) : Option Watched :=
  match w.files.run hasMind a with
  | .error _ => none
  | .ok d => some {
      toDone := d
      started := if a = .gameStart then w.started + 1 else w.started
      ended := if a = .gameEnd ∧ w.files.gameCount ≠ 0 then w.ended + 1 else w.ended
      putToSleep :=
        if a = .gameStart ∧ w.files.gameCount = 0 then d.slept else w.putToSleep
      switched :=
        match a with
        | .set _ => w.switched
        | .config key _ => if key = "GAME_MODE".toList then d.files.off else w.switched
        | .apply => false
        | .gameStart => w.switched && w.files.gameCount != 0
        | .gameEnd => w.switched && d.files.gameCount != 0 }

def boot (conf : Conf) (mode : Option Mode) : Watched := { files := .boot conf mode }

/-- What is asked of a command. -/
structure Good (w : Watched) (a : Command) (t : Watched) : Prop where
  counted : t.files.gameCount + t.ended = t.started
  settled : (∃ arg, a = .set arg) ∨ a = .apply ∨ a = .gameEnd → t.files.gameCount = 0 →
    t.files.statusEffective = t.files.modeGet
  truthful : ∀ m g, t.answer = .stays m g → t.files.statusEffective = g
  woken : w.files.gameCount ≠ 0 → t.files.gameCount = 0 → (t.woke = true ↔ w.putToSleep = true)

/-- Fewer than a thousand million games are open. -/
def FewGames (t : Watched) : Prop := t.started < t.ended + 1000000000

instance (t : Watched) : Decidable (FewGames t) :=
  inferInstanceAs (Decidable (t.started < t.ended + 1000000000))

/-- No mode is set while `GAME_MODE` names one that was not applied. Before any mode is in
effect at all, the one that is set may be that of `GAME_MODE`. -/
def Applied (w : Watched) : Command → Prop
  | .set arg => ∀ m, validMode arg = some m → w.switched = true →
      w.files.effective = none ∧ w.files.held = some m
  | _ => True

end Watched

namespace Files

variable {s : Files} {hasMind : Bool} {m g : Mode}

theorem gameCount_of_lt {n : Nat} (hn : n < 1000000000) (hs : s.game = some n) :
    s.gameCount = n := by
  rw [gameCount, hs, Option.filter_some, if_pos (decide_eq_true hn), Option.getD_some]

theorem gameCount_lt (s : Files) : s.gameCount < 1000000000 := by
  rw [gameCount]
  cases h : s.game.filter fun n => decide (n < 1000000000) with
  | none => exact Nat.zero_lt_succ _
  | some n => exact of_decide_eq_true (Option.filter_eq_some_iff.mp h).2

theorem off_eq_false (h : s.gameCount = 0) : s.off = false := by
  rw [off, held, if_pos h, Option.any_none]

theorem off_applyMode : (s.applyMode (s.held.getD m)).off = false := by
  change (s.held.any fun g => some (s.held.getD m) != some g) = false
  cases s.held with
  | none => rfl
  | some g => simp

theorem setMode_of_held (h : s.held = some g) :
    s.setMode m = { files := { s with prevMode := some m }, answer := .stays m g } := by
  rw [setMode, h]

theorem setMode_of_not_held (h : s.held = none) :
    s.setMode m = { files := s.applyMode m, answer := .mode m } := by
  rw [setMode, h]

theorem enterGame_files (s : Files) (hasMind : Bool) :
    ((s.enterGame hasMind).files.game = s.game ∧ (s.enterGame hasMind).files.mode = s.mode) ∧
      (s.enterGame hasMind).files.conf = s.conf ∧
      (∀ g, s.conf.gameMode = some g → (s.enterGame hasMind).files.effective = some g) ∧
      (s.enterGame hasMind).slept = (s.conf.mindSleepsWhileGaming && hasMind) ∧
      (s.enterGame hasMind).files.mindSlept =
        (s.mindSlept || s.conf.mindSleepsWhileGaming && hasMind) ∧
      (s.enterGame hasMind).answer = .nothing := by
  rw [enterGame, mindSleepOn]
  cases s.conf.mindSleepsWhileGaming && hasMind <;> cases hg : s.conf.gameMode <;>
    simp [applyMode]

theorem leaveGame_files (hmind : s.mindSlept = true → hasMind = true) :
    s.leaveGame hasMind =
      { files := { s with prevMode := none, effective := some s.modeGet, mindSlept := false }
        woke := s.mindSlept } := by
  rw [leaveGame, mindSleepOff]
  cases h : s.mindSlept with
  | false => simp [applyMode]
  | true => simp [applyMode, hmind h]

end Files

namespace Watched

variable {hasMind : Bool} {w t : Watched} {a : Command}

/-- The files agree with what happened. -/
structure Inv (hasMind : Bool) (w : Watched) : Prop where
  counted : w.files.gameCount + w.ended = w.started
  settled : w.files.gameCount = 0 → w.files.statusEffective = w.files.modeGet
  awake : w.files.gameCount = 0 → w.files.mindSlept = false
  asleep : w.files.gameCount ≠ 0 → w.files.mindSlept = w.putToSleep
  mind : w.files.mindSlept = true → hasMind = true
  switched : w.switched = w.files.off

theorem Inv.boot (conf : Conf) (mode : Option Mode) : Inv hasMind (boot conf mode) where
  counted := rfl
  settled _ := rfl
  awake _ := rfl
  asleep h := absurd rfl h
  mind h := absurd h Bool.false_ne_true
  switched := rfl

theorem step_eq_some {d : Done} (hrun : w.files.run hasMind a = .ok d)
    (ht : step hasMind w a = some t) : t.toDone = d ∧
      t.started = (if a = .gameStart then w.started + 1 else w.started) ∧
      t.ended = (if a = .gameEnd ∧ w.files.gameCount ≠ 0 then w.ended + 1 else w.ended) ∧
      t.putToSleep = if a = .gameStart ∧ w.files.gameCount = 0 then d.slept else w.putToSleep := by
  rw [step, hrun] at ht
  obtain rfl := Option.some.inj ht
  exact ⟨rfl, rfl, rfl, rfl⟩

theorem Inv.frame (h : Inv hasMind w) {d : Done} (hrun : w.files.run hasMind a = .ok d)
    (ht : step hasMind w a = some t) (hstart : a ≠ .gameStart) (hend : a ≠ .gameEnd)
    (hgame : d.files.game = w.files.game) (hslept : d.files.mindSlept = w.files.mindSlept)
    (hsettled : d.files.gameCount = 0 → d.files.statusEffective = d.files.modeGet)
    (hswitched : t.switched = d.files.off) : Inv hasMind t := by
  obtain ⟨hdone, hstarted, hended, hput⟩ := step_eq_some hrun ht
  have hcount : d.files.gameCount = w.files.gameCount := by
    rw [Files.gameCount, hgame, Files.gameCount]
  rw [if_neg hstart] at hstarted
  rw [if_neg fun hc => hend hc.1] at hended
  rw [if_neg fun hc => hstart hc.1] at hput
  constructor
  · rw [hdone, hcount, hended, hstarted, h.counted]
  · rw [hdone]
    exact hsettled
  · rw [hdone, hcount, hslept]
    exact h.awake
  · rw [hdone, hcount, hslept, hput]
    exact h.asleep
  · rw [hdone, hslept]
    exact h.mind
  · rw [hswitched, hdone]

theorem Inv.good (h : Inv hasMind t) (htruthful : ∀ m g, t.answer ≠ .stays m g)
    (hwoken : w.files.gameCount ≠ 0 → t.files.gameCount = 0 →
      (t.woke = true ↔ w.putToSleep = true)) : Good w a t :=
  ⟨h.counted, fun _ => h.settled, fun m g hanswer => absurd hanswer (htruthful m g), hwoken⟩

theorem Inv.setFree (h : Inv hasMind w) {arg : Text} {m : Mode}
    (hrun : w.files.run hasMind (.set arg) = .ok ({ w.files with mode := some m }.setMode m))
    (hheld : w.files.held = none) (hswitched : t.switched = w.files.off)
    (ht : step hasMind w (.set arg) = some t) :
    Inv hasMind t ∧ (Good w (.set arg) t ↔ Applied w (.set arg)) := by
  have hset : { w.files with mode := some m }.setMode m =
      { files := { w.files with mode := some m }.applyMode m, answer := .mode m } :=
    Files.setMode_of_not_held hheld
  rw [hset] at hrun
  have hdone := (step_eq_some hrun ht).1
  have hoff : w.files.off = false := by rw [Files.off, hheld, Option.any_none]
  have hinv : Inv hasMind t := by
    refine h.frame hrun ht Command.noConfusion Command.noConfusion rfl rfl
      (fun _ => rfl) (hswitched.trans (hoff.trans ?_))
    change false = Option.any _ w.files.held
    rw [hheld, Option.any_none]
  refine ⟨hinv, iff_of_true (hinv.good (fun m g => ?_) fun hne hzero => ?_) ?_⟩
  · rw [hdone]
    exact Answer.noConfusion
  · rw [hdone] at hzero
    exact absurd hzero hne
  · intro m' _ hsw
    rw [h.switched, hoff] at hsw
    exact absurd hsw Bool.false_ne_true

theorem Inv.setHeld (h : Inv hasMind w) {arg : Text} {m g : Mode} (hm : validMode arg = some m)
    (hrun : w.files.run hasMind (.set arg) = .ok ({ w.files with mode := some m }.setMode m))
    (hheld : w.files.held = some g) (hswitched : t.switched = w.files.off)
    (ht : step hasMind w (.set arg) = some t) :
    Inv hasMind t ∧ (Good w (.set arg) t ↔ Applied w (.set arg)) := by
  have hset : { w.files with mode := some m }.setMode m =
      { files := { w.files with mode := some m, prevMode := some m }, answer := .stays m g } :=
    Files.setMode_of_held hheld
  rw [hset] at hrun
  have hdone := (step_eq_some hrun ht).1
  have hcount : w.files.gameCount ≠ 0 := by
    intro hzero
    rw [Files.held, if_pos hzero] at hheld
    cases hheld
  have hinv : Inv hasMind t :=
    h.frame hrun ht Command.noConfusion Command.noConfusion rfl rfl
      (fun hzero => absurd hzero hcount) hswitched
  have heffective : t.files.statusEffective = w.files.effective.getD m := by
    rw [hdone]
    rfl
  have hoff : w.files.off = (w.files.effective != some g) := by
    rw [Files.off, hheld, Option.any_some]
  refine ⟨hinv, fun hgood m' hm' hsw => ?_, fun hap => ?_⟩
  · obtain rfl := Option.some.inj (hm.symm.trans hm')
    have htruth := hgood.truthful m g (by rw [hdone])
    rw [heffective] at htruth
    rw [h.switched, hoff, bne_iff_ne] at hsw
    cases heff : w.files.effective with
    | some e =>
        rw [heff, Option.getD_some] at htruth
        exact absurd (heff.trans (congrArg some htruth)) hsw
    | none =>
        rw [heff, Option.getD_none] at htruth
        exact ⟨rfl, htruth ▸ hheld⟩
  · refine ⟨hinv.counted, fun _ => hinv.settled, fun m' g' hanswer => ?_, fun _ hzero => ?_⟩
    · rw [hdone] at hanswer
      obtain ⟨rfl, rfl⟩ := Answer.stays.inj hanswer
      rw [heffective]
      cases hsw : w.files.effective != some g with
      | false =>
          rw [bne_eq_false_iff_eq] at hsw
          rw [hsw, Option.getD_some]
      | true =>
          obtain ⟨heff, hg⟩ := hap m hm (by rw [h.switched, hoff, hsw])
          rw [heff, Option.getD_none]
          exact Option.some.inj (hg.symm.trans hheld)
    · rw [hdone] at hzero
      exact absurd hzero hcount

theorem Inv.set (h : Inv hasMind w) {arg : Text} (ht : step hasMind w (.set arg) = some t) :
    Inv hasMind t ∧ (Good w (.set arg) t ↔ Applied w (.set arg)) := by
  cases hm : validMode arg with
  | none =>
      rw [step, Files.run, Files.set, hm] at ht
      cases ht
  | some m =>
      have hrun : w.files.run hasMind (.set arg) =
          .ok ({ w.files with mode := some m }.setMode m) := by
        rw [Files.run, Files.set, hm]
      have hswitched : t.switched = w.files.off := by
        rw [← h.switched]
        have ht' := ht
        rw [step, hrun] at ht'
        cases ht'
        rfl
      cases hheld : w.files.held with
      | none => exact h.setFree hrun hheld hswitched ht
      | some g => exact h.setHeld hm hrun hheld hswitched ht

theorem Inv.config (h : Inv hasMind w) {key val : Text}
    (ht : step hasMind w (.config key val) = some t) :
    Inv hasMind t ∧ Good w (.config key val) t := by
  cases hput : w.files.conf.put key val with
  | error e =>
      rw [step, Files.run, Files.config, hput] at ht
      cases ht
  | ok c =>
      have hrun : w.files.run hasMind (.config key val) =
          .ok { files := { w.files with conf := c }, answer := .setting key val } := by
        rw [Files.run, Files.config, hput]
        rfl
      have hdone := (step_eq_some hrun ht).1
      have hswitched : t.switched = Files.off { w.files with conf := c } := by
        rw [step, hrun] at ht
        cases ht
        change (if key = _ then _ else w.switched) = _
        split
        · rfl
        · next hkey =>
            rw [h.switched]
            have hmode := Conf.put_gameMode hput hkey
            rw [Files.off, Files.off, Files.held, Files.held, hmode]
            rfl
      have hinv := h.frame hrun ht Command.noConfusion Command.noConfusion rfl rfl h.settled
        hswitched
      refine ⟨hinv, hinv.good (fun m g => ?_) fun hne hzero => ?_⟩
      · rw [hdone]
        exact Answer.noConfusion
      · rw [hdone] at hzero
        exact absurd hzero hne

theorem Inv.apply (h : Inv hasMind w) (ht : step hasMind w .apply = some t) :
    Inv hasMind t ∧ Good w .apply t := by
  have hrun : w.files.run hasMind .apply = .ok w.files.apply := rfl
  have hdone := (step_eq_some hrun ht).1
  have hswitched : t.switched = w.files.apply.files.off := by
    rw [step, hrun] at ht
    cases ht
    exact Files.off_applyMode.symm
  have hinv : Inv hasMind t := by
    refine h.frame hrun ht Command.noConfusion Command.noConfusion rfl rfl (fun hzero => ?_)
      hswitched
    have hheld : w.files.held = none := if_pos hzero
    change w.files.held.getD w.files.modeGet = w.files.modeGet
    rw [hheld, Option.getD_none]
  refine ⟨hinv, hinv.good (fun m g => ?_) fun hne hzero => ?_⟩
  · rw [hdone]
    exact Answer.noConfusion
  · rw [hdone] at hzero
    exact absurd hzero hne

theorem Inv.firstGame (h : Inv hasMind w) (hzero : w.files.gameCount = 0)
    (ht : step hasMind w .gameStart = some t) : Inv hasMind t ∧ Good w .gameStart t := by
  have hrun : w.files.run hasMind .gameStart =
      .ok ({ w.files with game := some 1 }.enterGame hasMind) := by
    rw [Files.run, Files.gameStart, if_pos hzero]
  obtain ⟨⟨hgame, -⟩, hconf, happlied, hslept, hmind, hanswer⟩ :=
    Files.enterGame_files { w.files with game := some 1 } hasMind
  obtain ⟨hdone, hstarted, hended, hput⟩ := step_eq_some hrun ht
  have hcount : t.files.gameCount = 1 := by
    rw [hdone]
    exact Files.gameCount_of_lt (by decide) hgame
  rw [if_pos rfl] at hstarted
  rw [if_neg fun hc => Command.noConfusion hc.1] at hended
  rw [if_pos ⟨rfl, hzero⟩, hslept] at hput
  have hcounted := h.counted
  have hasleep : t.files.mindSlept = (w.files.conf.mindSleepsWhileGaming && hasMind) := by
    rw [hdone, hmind]
    change (w.files.mindSlept || _) = _
    rw [h.awake hzero, Bool.false_or]
  have hinv : Inv hasMind t := by
    constructor
    · omega
    · intro hc
      omega
    · intro hc
      omega
    · intro _
      rw [hasleep, hput]
    · intro hs
      rw [hasleep] at hs
      exact (Bool.and_eq_true_iff.mp hs).2
    · have hswitched : t.switched = false := by
        rw [step, hrun] at ht
        cases ht
        change (w.switched && w.files.gameCount != 0) = false
        rw [hzero]
        exact Bool.and_false _
      have hheld : t.files.held = w.files.conf.gameMode := by
        rw [Files.held, hcount, if_neg Nat.one_ne_zero, hdone, hconf]
      rw [hswitched, Files.off, hheld]
      cases hg : w.files.conf.gameMode with
      | none => rfl
      | some g => rw [Option.any_some, hdone, happlied g hg, bne_self_eq_false]
  refine ⟨hinv, hinv.good (fun m g => ?_) fun hne _ => absurd hzero hne⟩
  rw [hdone, hanswer]
  exact Answer.noConfusion

theorem Inv.nextGame (h : Inv hasMind w) (hne : w.files.gameCount ≠ 0)
    (ht : step hasMind w .gameStart = some t) (hfew : FewGames t) :
    Inv hasMind t ∧ Good w .gameStart t := by
  have hrun : w.files.run hasMind .gameStart =
      .ok { files := { w.files with game := some (w.files.gameCount + 1) } } := by
    rw [Files.run, Files.gameStart, if_neg hne]
  obtain ⟨hdone, hstarted, hended, hput⟩ := step_eq_some hrun ht
  rw [if_pos rfl] at hstarted
  rw [if_neg fun hc => Command.noConfusion hc.1] at hended
  rw [if_neg fun hc => hne hc.2] at hput
  have hcounted := h.counted
  have hcount : t.files.gameCount = w.files.gameCount + 1 := by
    rw [FewGames] at hfew
    exact Files.gameCount_of_lt (by omega) (by rw [hdone])
  have hinv : Inv hasMind t := by
    constructor
    · omega
    · intro hc
      omega
    · intro hc
      omega
    · intro _
      rw [hput, hdone]
      exact h.asleep hne
    · rw [hdone]
      exact h.mind
    · have hswitched : t.switched = w.switched := by
        rw [step, hrun] at ht
        cases ht
        change (w.switched && w.files.gameCount != 0) = _
        rw [bne_iff_ne.mpr hne, Bool.and_true]
      have hheld : t.files.held = w.files.held := by
        rw [Files.held, hcount, if_neg (Nat.succ_ne_zero _), Files.held, if_neg hne, hdone]
      rw [hswitched, h.switched, Files.off, Files.off, hheld, hdone]
  refine ⟨hinv, hinv.good (fun m g => ?_) fun _ hzero => ?_⟩
  · rw [hdone]
    exact Answer.noConfusion
  · omega

theorem Inv.noGame (h : Inv hasMind w) (hzero : w.files.gameCount = 0)
    (ht : step hasMind w .gameEnd = some t) : Inv hasMind t ∧ Good w .gameEnd t := by
  have hrun : w.files.run hasMind .gameEnd = .ok { files := w.files } := by
    rw [Files.run, Files.gameEnd, if_pos hzero]
  obtain ⟨hdone, hstarted, hended, hput⟩ := step_eq_some hrun ht
  rw [if_neg Command.noConfusion] at hstarted
  rw [if_neg fun hc => hc.2 hzero] at hended
  have hcounted := h.counted
  have hfiles : t.files = w.files := by rw [hdone]
  have hinv : Inv hasMind t := by
    constructor
    · rw [hfiles, hended, hstarted, hcounted]
    · rw [hfiles]
      exact h.settled
    · rw [hfiles]
      exact h.awake
    · rw [hfiles]
      exact fun hne => absurd hzero hne
    · rw [hfiles]
      exact h.mind
    · have hswitched : t.switched = false := by
        rw [step, hrun] at ht
        cases ht
        change (w.switched && w.files.gameCount != 0) = false
        rw [hzero]
        exact Bool.and_false _
      rw [hswitched, hfiles, Files.off_eq_false hzero]
  refine ⟨hinv, hinv.good (fun m g => ?_) fun hne _ => absurd hzero hne⟩
  rw [hdone]
  exact Answer.noConfusion

theorem Inv.lastGame (h : Inv hasMind w) (hone : w.files.gameCount = 1)
    (ht : step hasMind w .gameEnd = some t) : Inv hasMind t ∧ Good w .gameEnd t := by
  have hne : w.files.gameCount ≠ 0 := by omega
  have hrun : w.files.run hasMind .gameEnd =
      .ok ({ w.files with game := some 0 }.leaveGame hasMind) := by
    rw [Files.run, Files.gameEnd, if_neg hne, if_pos hone]
  have hleave := Files.leaveGame_files (s := { w.files with game := some 0 }) h.mind
  rw [hleave] at hrun
  obtain ⟨hdone, hstarted, hended, -⟩ := step_eq_some hrun ht
  rw [if_neg Command.noConfusion] at hstarted
  rw [if_pos ⟨rfl, hne⟩] at hended
  have hcounted := h.counted
  have hcount : t.files.gameCount = 0 := by
    rw [hdone]
    rfl
  have hinv : Inv hasMind t := by
    constructor
    · omega
    · intro _
      rw [hdone]
      rfl
    · intro _
      rw [hdone]
    · exact fun hc => absurd hcount hc
    · intro hs
      rw [hdone] at hs
      exact absurd hs Bool.false_ne_true
    · have hswitched : t.switched = false := by
        rw [step, hrun] at ht
        cases ht
        exact Bool.and_false _
      rw [hswitched, Files.off_eq_false hcount]
  refine ⟨hinv, hinv.good (fun m g => ?_) fun _ _ => ?_⟩
  · rw [hdone]
    exact Answer.noConfusion
  · rw [hdone]
    change w.files.mindSlept = true ↔ _
    rw [h.asleep hne]

theorem Inv.otherGame (h : Inv hasMind w) (hne : w.files.gameCount ≠ 0)
    (hone : w.files.gameCount ≠ 1) (ht : step hasMind w .gameEnd = some t) :
    Inv hasMind t ∧ Good w .gameEnd t := by
  have hrun : w.files.run hasMind .gameEnd =
      .ok { files := { w.files with game := some (w.files.gameCount - 1) } } := by
    rw [Files.run, Files.gameEnd, if_neg hne, if_neg hone]
  obtain ⟨hdone, hstarted, hended, hput⟩ := step_eq_some hrun ht
  rw [if_neg Command.noConfusion] at hstarted
  rw [if_pos ⟨rfl, hne⟩] at hended
  rw [if_neg fun hc => Command.noConfusion hc.1] at hput
  have hcounted := h.counted
  have hlt := w.files.gameCount_lt
  have hcount : t.files.gameCount = w.files.gameCount - 1 :=
    Files.gameCount_of_lt (by omega) (by rw [hdone])
  have hne' : t.files.gameCount ≠ 0 := by omega
  have hinv : Inv hasMind t := by
    constructor
    · omega
    · exact fun hc => absurd hc hne'
    · exact fun hc => absurd hc hne'
    · intro _
      rw [hput, hdone]
      exact h.asleep hne
    · rw [hdone]
      exact h.mind
    · have hswitched : t.switched = (w.switched && t.files.gameCount != 0) := by
        rw [step, hrun] at ht
        cases ht
        rfl
      have hheld : t.files.held = w.files.held := by
        rw [Files.held, if_neg hne', Files.held, if_neg hne, hdone]
      rw [hswitched, bne_iff_ne.mpr hne', Bool.and_true, h.switched, Files.off, Files.off, hheld,
        hdone]
  refine ⟨hinv, hinv.good (fun m g => ?_) fun _ hzero => absurd hzero hne'⟩
  rw [hdone]
  exact Answer.noConfusion

theorem Inv.step (h : Inv hasMind w) (ht : step hasMind w a = some t) (hfew : FewGames t) :
    Inv hasMind t ∧ (Good w a t ↔ Applied w a) := by
  cases a with
  | set arg => exact h.set ht
  | config key val => exact (h.config ht).imp_right fun hgood => iff_of_true hgood trivial
  | apply => exact (h.apply ht).imp_right fun hgood => iff_of_true hgood trivial
  | gameStart =>
      by_cases hzero : w.files.gameCount = 0
      · exact (h.firstGame hzero ht).imp_right fun hgood => iff_of_true hgood trivial
      · exact (h.nextGame hzero ht hfew).imp_right fun hgood => iff_of_true hgood trivial
  | gameEnd =>
      by_cases hzero : w.files.gameCount = 0
      · exact (h.noGame hzero ht).imp_right fun hgood => iff_of_true hgood trivial
      · by_cases hone : w.files.gameCount = 1
        · exact (h.lastGame hone ht).imp_right fun hgood => iff_of_true hgood trivial
        · exact (h.otherGame hzero hone ht).imp_right fun hgood => iff_of_true hgood trivial

/-- The commands keep what is asked of them in exactly the runs in which no mode is set while
`GAME_MODE` names one that was not applied. -/
theorem good_iff_applied (hasMind : Bool) (conf : Conf) (mode : Option Mode)
    (commands : List Command)
    (hfew : Along (step hasMind) (fun _ _ t => FewGames t) (boot conf mode) commands) :
    Along (step hasMind) Good (boot conf mode) commands ↔
      Along (step hasMind) (fun w a _ => Applied w a) (boot conf mode) commands :=
  Along.iff (Inv hasMind) (fun _ _ _ h ht hf => (h.step ht hf).1)
    (fun _ _ _ h ht hf => (h.step ht hf).2) (Inv.boot conf mode) hfew

/-- A game starts, `GAME_MODE` is changed and applied, another mode is chosen, the game ends. -/
theorem good_iff_applied_game :
    Along (step true) Good (boot {} none)
        [.gameStart, .config "GAME_MODE".toList "quiet".toList, .apply,
          .set "performance".toList, .gameEnd] ↔
      Along (step true) (fun w a _ => Applied w a) (boot {} none)
        [.gameStart, .config "GAME_MODE".toList "quiet".toList, .apply,
          .set "performance".toList, .gameEnd] :=
  good_iff_applied true {} none _ <|
    .cons rfl (by decide) <| .cons rfl (by decide) <|
    .cons rfl (by decide) <| .cons rfl (by decide) <|
    .cons rfl (by decide) <| trivial

/-- `GAME_MODE` is changed while a game runs: `set` then says that the new one stays in
effect, and the old one is. -/
theorem not_always_applied :
    ¬∀ hasMind conf mode commands,
      Along (step hasMind) (fun _ _ t => FewGames t) (boot conf mode) commands →
        Along (step hasMind) Good (boot conf mode) commands := by
  intro h
  have hfew : Along (step true) (fun _ _ t => FewGames t) (boot {} none)
      [.gameStart, .config "GAME_MODE".toList "quiet".toList, .set "balanced".toList] :=
    .cons rfl (by decide) <| .cons rfl (by decide) <|
    .cons rfl (by decide) <| trivial
  have hgood := h true {} none _ hfew
  have htruthful := ((((hgood _ rfl).2 _ rfl).2 _ rfl).1).truthful .balanced .quiet rfl
  exact absurd htruthful (by decide)

end Watched

end MindOS.Base.Perf
