import MindOS.Text.Words

/-!
# The mindos-pkg script

`mindos-pkg install NAME...`: the loop that takes the flags out of the argument
list, the configuration file, and the three sources tried in order
(repositories, Flathub, AUR). What pacman, flatpak and paru answer and do is a
parameter, `Sources`, over an arbitrary state of the system. The sentences the
script prints are left out; what it hands to paru is recorded.
-/

namespace MindOS.Pkg

open Text

/-! ### Options -/

def repoOnlyFlag : Text := "--repo-only"

def aurFlag : Text := "--aur"

def noAurFlag : Text := "--no-aur"

/-- The pattern `-*`. -/
def isOption (a : Text) : Bool := a.startsWith "-"

/-- What the flags say so far; `allowAur` is unset until `--aur` or `--no-aur`. -/
structure Flags where
  repoOnly : Bool := false
  allowAur : Option Bool := none
  deriving DecidableEq

/-- The option loop. An unknown option ends the script. -/
def takeFlags (fl : Flags) : List Text → Option (Flags × List Text)
  | [] => some (fl, [])
  | a :: rest =>
      if a = repoOnlyFlag then takeFlags { fl with repoOnly := true } rest
      else if a = aurFlag then takeFlags { fl with allowAur := some true } rest
      else if a = noAurFlag then takeFlags { fl with allowAur := some false } rest
      else if isOption a then none
      else (takeFlags fl rest).map fun (fl, args) => (fl, a :: args)

/-! ### The configuration file -/

/-- `[[:space:]]` in the C locale. -/
def confSpace (c : Char) : Bool := c == ' ' || (9 ≤ c.toNat && c.toNat ≤ 13)

/-- `[A-Za-z01]`. -/
def confLetter (c : Char) : Bool := c.isAlpha || c == '0' || c == '1'

/-- The value of a line `aur = value`. -/
def confValue (line : Text) : Option Text :=
  let rest := line.dropWhile confSpace
  if Text.startsWith rest "aur" then
    match (rest.drop 3).dropWhile confSpace with
    | '=' :: v =>
        let value := (v.dropWhile confSpace).takeWhile confLetter
        if value.isEmpty then none else some value
    | _ => none
  else none

/-- The last value the file gives to `aur`. -/
def confAur (conf : Text) : Option Text := ((conf.splitOn '\n').filterMap confValue).getLast?

/-- The AUR is on unless it is turned off; `conf` is the readable file's text. -/
def aurEnabled (allowAur : Option Bool) (conf : Option Text) : Bool :=
  match allowAur with
  | some b => b
  | none =>
      match conf.bind confAur with
      | none => true
      | some v => !(["no", "false", "off", "0"] : List Text).contains v.toLowercase

/-- A package name: a letter or digit, then letters, digits and `@._+-`. -/
def valid : Text → Bool
  | [] => false
  | c :: cs => c.isAlphanum && cs.all fun c => c.isAlphanum || "@._+-".toList.contains c

/-! ### The sources -/

/-- What the system answers and what its package managers do to it. -/
structure Sources (W : Type) where
  /-- `pacman -Q` -/
  installed : W → Text → Bool
  /-- `flatpak_installed_id` names an application. -/
  flatpakInstalled : W → Text → Bool
  /-- `pacman -Si` -/
  repoHas : W → Text → Bool
  dbStale : W → Bool
  /-- `pacman -Sy` -/
  syncDb : W → W × Bool
  /-- `pacman -Syu --needed` -/
  upgradeWith : W → List Text → W × Bool
  /-- `flathub_ready`, which may add the remote. -/
  flathubReady : W → W × Bool
  flatpakMatch : W → Text → Option Text
  flatpakInstall : W → Text → W × Bool
  aurHas : W → Text → Bool
  /-- `paru -S` -/
  paruBuild : W → Text → W × Bool

/-- A running script: the system, the script's own `refreshed`, and the packages
it gave to paru to build. -/
structure Machine (W : Type) where
  world : W
  refreshed : Bool := false
  built : List Text := []

section Install

variable {W : Type} (src : Sources W)

def refreshDb (m : Machine W) : Machine W × Bool :=
  if m.refreshed then (m, true)
  else
    let (w, ok) := src.syncDb m.world
    ({ m with world := w, refreshed := ok }, ok)

/-- `repo_has "$n" || { db_stale && refresh_db && repo_has "$n"; }` -/
def lookupRepo (m : Machine W) (n : Text) : Machine W × Bool :=
  if src.repoHas m.world n then (m, true)
  else if !src.dbStale m.world then (m, false)
  else
    let (m, ok) := refreshDb src m
    (m, ok && src.repoHas m.world n)

def installRepo (m : Machine W) (names : List Text) : Machine W × Bool :=
  if !names.all valid then (m, false)
  else
    let pending := names.filter fun n => !src.installed m.world n
    if pending.isEmpty then (m, true)
    else
      let (w, ok) := src.upgradeWith m.world pending
      ({ m with world := w }, ok)

/-- The last of the three sources. -/
def installAur (fl : Flags) (conf : Option Text) (m : Machine W) (n : Text) : Machine W × Bool :=
  if src.aurHas m.world n then
    if !aurEnabled fl.allowAur conf then (m, false)
    else
      let (w, ok) := src.paruBuild m.world n
      ({ m with world := w, built := m.built ++ [n] }, ok && src.installed w n)
  else (m, false)

/-- What is in no repository: Flathub, then the AUR. -/
def installFlathub (fl : Flags) (conf : Option Text) (m : Machine W) (n : Text) :
    Machine W × Bool :=
  let (w, ready) := src.flathubReady m.world
  let m := { m with world := w }
  match if ready then src.flatpakMatch w n else none with
  | some id =>
      let (w, ok) := src.flatpakInstall w id
      ({ m with world := w }, ok)
  | none => installAur src fl conf m n

def installOne (fl : Flags) (conf : Option Text) (m : Machine W) (n : Text) : Machine W × Bool :=
  if !valid n then (m, false)
  else if src.installed m.world n then (m, true)
  else if src.flatpakInstalled m.world n then (m, true)
  else
    let (m, found) := lookupRepo src m n
    if found then installRepo src m [n]
    else if fl.repoOnly then (m, false)
    else installFlathub src fl conf m n

/-- `for n in "${args[@]}"; do install_one "$n" || rc=1; done` -/
def installEach (fl : Flags) (conf : Option Text) : Machine W → List Text → Machine W × Bool
  | m, [] => (m, true)
  | m, n :: ns =>
      let (m, ok) := installOne src fl conf m n
      let (m, rest) := installEach fl conf m ns
      (m, ok && rest)

/-- `mindos-pkg install` with the words behind it, and its exit status. -/
def install (root : Bool) (conf : Option Text) (m : Machine W) (argv : List Text) :
    Machine W × Nat :=
  match takeFlags {} argv with
  | none => (m, 2)
  | some (fl, args) =>
      if args.isEmpty then (m, 2)
      else if !root then (m, 1)
      else
        let (m, ok) :=
          if fl.repoOnly then installRepo src m args else installEach src fl conf m args
        (m, if ok then 0 else 1)

end Install

/-! ### What the flags come to -/

def isAurFlag (a : Text) : Bool := a == aurFlag || a == noAurFlag

/-- The `--aur` or `--no-aur` that counts. -/
def lastAurFlag (argv : List Text) : Option Text := (argv.filter isAurFlag).getLast?

/-- An option that the script does not know. -/
def unknownOption (a : Text) : Bool := isOption a && a != repoOnlyFlag && !isAurFlag a

theorem lastAurFlag_cons (a : Text) (rest : List Text) :
    lastAurFlag (a :: rest) =
      (lastAurFlag rest).or (if isAurFlag a then some a else none) := by
  cases h : isAurFlag a <;> simp [lastAurFlag, h, List.getLast?_cons]

/-- The flags, wherever they stand: the script ends at an unknown option, and else
the last of `--aur` and `--no-aur` counts. -/
theorem takeFlags_eq (fl : Flags) (argv : List Text) :
    takeFlags fl argv =
      if argv.any unknownOption then none
      else some (⟨fl.repoOnly || argv.contains repoOnlyFlag,
        ((lastAurFlag argv).map (· == aurFlag)).or fl.allowAur⟩,
        argv.filter fun a => !isOption a) := by
  induction argv generalizing fl with
  | nil => simp [takeFlags, lastAurFlag]
  | cons a rest ih =>
      have hknown : ∀ f : Text, f = repoOnlyFlag ∨ f = aurFlag ∨ f = noAurFlag →
          isOption f = true ∧ unknownOption f = false := by
        rintro f (rfl | rfl | rfl) <;> decide
      rw [takeFlags, List.any_cons, lastAurFlag_cons, List.contains_cons]
      by_cases hrepo : a = repoOnlyFlag
      · have haur : isAurFlag repoOnlyFlag = false := by decide
        obtain ⟨hdash, hunknown⟩ := hknown a (.inl hrepo)
        rw [if_pos hrepo, ih, hunknown]
        simp [hrepo, haur, hrepo ▸ hdash]
      · have hrepo' : (repoOnlyFlag == a) = false :=
          beq_eq_false_iff_ne.mpr fun h => hrepo h.symm
        rw [if_neg hrepo]
        by_cases hon : a = aurFlag
        · have haur : isAurFlag aurFlag = true := by decide
          obtain ⟨hdash, hunknown⟩ := hknown a (.inr (.inl hon))
          rw [if_pos hon, ih, hunknown, hrepo']
          cases lastAurFlag rest <;> simp [hon, haur, hon ▸ hdash]
        · rw [if_neg hon]
          by_cases hoff : a = noAurFlag
          · have haur : isAurFlag noAurFlag = true ∧ (noAurFlag == aurFlag) = false := by decide
            obtain ⟨hdash, hunknown⟩ := hknown a (.inr (.inr hoff))
            rw [if_pos hoff, ih, hunknown, hrepo']
            cases lastAurFlag rest <;> simp [hoff, haur, hoff ▸ hdash]
          · have haur : isAurFlag a = false := by simp [isAurFlag, hon, hoff]
            rw [if_neg hoff, haur, hrepo']
            cases hdash : isOption a with
            | true =>
                have hunknown : unknownOption a = true := by
                  simp [unknownOption, hdash, hrepo, haur]
                simp [hunknown]
            | false =>
                have hunknown : unknownOption a = false := by simp [unknownOption, hdash]
                rw [if_neg (by simp), ih, hunknown]
                cases hrest : rest.any unknownOption <;> simp [hdash]

/-! ### Who builds from the AUR -/

/-- The option parsing ends with the AUR out of use: an option it does not know, a
limitation to the repositories, or the AUR turned off. -/
def AurDisabled (conf : Option Text) (argv : List Text) : Prop :=
  ∀ fl args, takeFlags {} argv = some (fl, args) →
    fl.repoOnly = true ∨ aurEnabled fl.allowAur conf = false

section Built

variable {W : Type} (src : Sources W)

theorem refreshDb_built (m : Machine W) : (refreshDb src m).1.built = m.built := by
  unfold refreshDb
  split <;> rfl

theorem lookupRepo_built (m : Machine W) (n : Text) :
    (lookupRepo src m n).1.built = m.built := by
  unfold lookupRepo
  split
  · rfl
  · split
    · rfl
    · exact refreshDb_built src m

theorem installRepo_built (m : Machine W) (names : List Text) :
    (installRepo src m names).1.built = m.built := by
  simp only [installRepo]
  split
  · rfl
  · split <;> rfl

theorem installAur_built {fl : Flags} {conf : Option Text}
    (h : aurEnabled fl.allowAur conf = false) (m : Machine W) (n : Text) :
    (installAur src fl conf m n).1.built = m.built := by
  rw [installAur, h]
  split <;> rfl

theorem installFlathub_built {fl : Flags} {conf : Option Text}
    (h : aurEnabled fl.allowAur conf = false) (m : Machine W) (n : Text) :
    (installFlathub src fl conf m n).1.built = m.built := by
  simp only [installFlathub]
  split
  · rfl
  · rw [installAur_built src h]

/-- Only the last source builds, and it is reached neither under `--repo-only` nor
with the AUR turned off. -/
theorem installOne_built {fl : Flags} {conf : Option Text}
    (h : fl.repoOnly = true ∨ aurEnabled fl.allowAur conf = false) (m : Machine W) (n : Text) :
    (installOne src fl conf m n).1.built = m.built := by
  have hlookup := lookupRepo_built src m n
  simp only [installOne]
  split_ifs with _ _ _ hfound hrepo
  · rfl
  · rfl
  · rfl
  · rw [installRepo_built, hlookup]
  · exact hlookup
  · rw [installFlathub_built src (h.resolve_left hrepo), hlookup]

theorem installEach_built {fl : Flags} {conf : Option Text}
    (h : fl.repoOnly = true ∨ aurEnabled fl.allowAur conf = false) (m : Machine W)
    (names : List Text) : (installEach src fl conf m names).1.built = m.built := by
  induction names generalizing m with
  | nil => rfl
  | cons n ns ih =>
      simp only [installEach]
      rw [ih, installOne_built src h]

theorem install_built {conf : Option Text} {argv : List Text} (h : AurDisabled conf argv)
    (root : Bool) (m : Machine W) : (install src root conf m argv).1.built = m.built := by
  unfold install
  split
  case h_1 => rfl
  case h_2 fl args hflags =>
    split_ifs
    · rfl
    · rfl
    · exact installRepo_built src m args
    · exact installEach_built src (h fl args hflags) m args

end Built

theorem aurDisabled_iff (conf : Option Text) (argv : List Text) :
    AurDisabled conf argv ↔
      (∃ a ∈ argv, unknownOption a = true) ∨ repoOnlyFlag ∈ argv ∨
        lastAurFlag argv = some noAurFlag ∨
        (lastAurFlag argv = none ∧ aurEnabled none conf = false) := by
  have hset : ∀ fl args, takeFlags {} argv = some (fl, args) ↔
      argv.any unknownOption = false ∧ fl = ⟨argv.contains repoOnlyFlag,
        (lastAurFlag argv).map (· == aurFlag)⟩ ∧ args = argv.filter fun a => !isOption a := by
    intro fl args
    rw [takeFlags_eq]
    cases argv.any unknownOption <;> simp [eq_comm]
  cases hunknown : argv.any unknownOption with
  | true =>
      simp only [AurDisabled, hset, hunknown]
      simp [List.any_eq_true.mp hunknown]
  | false =>
      have hnone : ¬ ∃ a ∈ argv, unknownOption a = true := by
        rw [← List.any_eq_true, hunknown]
        exact Bool.false_ne_true
      have hflags : AurDisabled conf argv ↔ argv.contains repoOnlyFlag = true ∨
          aurEnabled ((lastAurFlag argv).map (· == aurFlag)) conf = false := by
        simp only [AurDisabled, hset, hunknown]
        exact ⟨fun h => h _ _ ⟨trivial, rfl, rfl⟩, fun h fl args ⟨_, hfl, _⟩ => hfl ▸ h⟩
      rw [hflags, List.contains_iff_mem]
      simp only [hnone, false_or]
      refine or_congr_right ?_
      cases hlast : lastAurFlag argv with
      | none => simp
      | some a =>
          have haur : isAurFlag a = true :=
            (List.mem_filter.mp (List.mem_of_getLast? hlast)).2
          have hdiffer : noAurFlag ≠ aurFlag := by decide
          simp only [isAurFlag, Bool.or_eq_true, beq_iff_eq] at haur
          rcases haur with rfl | rfl
          · simp [aurEnabled, hdiffer.symm]
          · simp [aurEnabled, hdiffer]

end MindOS.Pkg
