import MindOS.Daemon.Tools.Refusals
import MindOS.Pkg.Script
import MindOS.Text.Paths
import MindOS.Text.Tokens
import Mathlib.Data.List.Forall2

/-!
# The guards of the tools

## Installing with the AUR switched off

With the switch off `install_packages` hands the package names to `mindos-pkg`
and no flag at all, and the script takes a missing flag for permission: only its
own configuration file can still turn the AUR off. The names travel through the
same option loop as the flags, so they can settle the question either way.
-/

namespace MindOS.Tools

open Text Pkg

/-- The words `/bin/sh` makes of a text of plain words and blanks, behind the
script's name and its command. -/
def scriptArgs (text : Text) : List Text := (words text).drop 2

/-- What precedes the package list. -/
def installation : Text := "mindos-pkg install"

theorem installPackagesCommand_eq_ok {args : Json} {text : Text}
    (h : installPackagesCommand false args = .ok text) :
    ∃ list, pkgList args = .ok list ∧ text = installation ++ ' ' :: list := by
  cases hlist : pkgList args with
  | error e =>
      rw [installPackagesCommand, hlist] at h
      cases h
  | ok list =>
      rw [installPackagesCommand, hlist] at h
      exact ⟨list, rfl, (Except.ok.inj h).symm.trans (by rw [if_neg (by simp)]; rfl)⟩

/-- The script's name, its command, the flag for the AUR and the names. -/
def installWords (aur : Bool) (names : List Text) : List Text :=
  "mindos-pkg".toList :: "install".toList :: ((if aur then ["--aur".toList] else []) ++ names)

/-- Whatever packages are asked for, `/bin/sh` finds in the text one call of the script with
exactly their names, and nothing to expand. -/
theorem plainWords_installPackages {aur : Bool} {args : Json} {text : Text}
    (h : installPackagesCommand aur args = .ok text) :
    plainWords text = some (installWords aur (requestedNames args)) := by
  cases hlist : pkgList args with
  | error e =>
      rw [installPackagesCommand, hlist] at h
      cases h
  | ok list =>
      obtain ⟨hne, hchars, rfl⟩ := pkgList_eq_ok hlist
      have htext : text = unwords (installWords aur (requestedNames args)) := by
        rw [installPackagesCommand, hlist] at h
        rw [← Except.ok.inj h, installWords, unwords_cons (List.cons_ne_nil _ _)]
        cases aur with
        | false =>
          rw [if_neg (by decide), if_neg (by decide), List.nil_append, unwords_cons hne]; rfl
        | true =>
            rw [if_pos rfl, if_pos rfl, unwords_cons (by simp), List.singleton_append,
              unwords_cons hne]
            rfl
      have hread : ∀ w ∈ installWords aur (requestedNames args), ReadsAs w w := by
        intro w hw
        rw [installWords, List.mem_cons, List.mem_cons, List.mem_append] at hw
        obtain rfl | rfl | hw | hw := hw
        · exact readsAs_bare (by decide) (by decide)
        · exact readsAs_bare (by decide) (by decide)
        · cases aur with
          | false => cases hw
          | true =>
              obtain rfl := List.mem_singleton.mp hw
              exact readsAs_bare (by decide) (by decide)
        · obtain ⟨hne, hname⟩ := hchars w hw
          exact readsAs_bare hne fun c hc =>
            packageChar_forall (P := fun c => ordinary c = true) (by decide) (hname c hc)
      rw [htext]
      exact plainWords_unwords (List.forall₂_same.mpr hread)

theorem scriptArgs_install {args : Json} {text : Text}
    (h : installPackagesCommand false args = .ok text) :
    scriptArgs text = requestedNames args := by
  obtain ⟨list, hlist, rfl⟩ := installPackagesCommand_eq_ok h
  have hwords : words installation = ["mindos-pkg", "install"] := by decide
  rw [scriptArgs, words_append_blank, hwords, (pkgList_eq_ok hlist).2.2,
    words_unwords (isWord_of_pkgList hlist)]
  rfl

/-- The run of the script builds nothing from the AUR, whatever the system is like. -/
def NoAurBuild (conf : Option Text) (argv : List Text) : Prop :=
  ∀ (W : Type) (src : Sources W) (root : Bool) (w : W),
    (install src root conf ⟨w, false, []⟩ argv).1.built = []

/-- What turns the AUR off when the daemon does not: an option the script refuses,
`--repo-only`, a last word of `--no-aur` between the two AUR flags, or, with neither
of them among the names, the script's configuration file. -/
def NamesOrConfTurnAurOff (conf : Option Text) (args : Json) : Prop :=
  (∃ n ∈ requestedNames args, unknownOption n = true) ∨ repoOnlyFlag ∈ requestedNames args ∨
    lastAurFlag (requestedNames args) = some noAurFlag ∨
    (lastAurFlag (requestedNames args) = none ∧ aurEnabled none conf = false)

/-- With the switch off, an installation ends with the AUR disabled and builds
nothing from it exactly when the names or the script's configuration say so. -/
theorem install_without_aur_iff (conf : Option Text) {args : Json} {text : Text}
    (h : installPackagesCommand false args = .ok text) :
    (AurDisabled conf (scriptArgs text) ∧ NoAurBuild conf (scriptArgs text)) ↔
      NamesOrConfTurnAurOff conf args := by
  rw [scriptArgs_install h, NamesOrConfTurnAurOff, ← aurDisabled_iff]
  constructor
  · exact fun hboth => hboth.1
  · intro hdisabled
    exact ⟨hdisabled, fun W src root w => install_built src hdisabled root ⟨w, false, []⟩⟩

/-- One package that only the AUR has. -/
def googleChrome : Json := .obj [("packages", .arr [.str "google-chrome"])]

theorem plainWords_installPackages_googleChrome :
    plainWords "mindos-pkg install --aur google-chrome" =
      some (installWords true (requestedNames googleChrome)) :=
  plainWords_installPackages (by decide)

theorem install_without_aur_iff_googleChrome :
    (AurDisabled (some "aur = no") ["google-chrome"] ∧
        NoAurBuild (some "aur = no") ["google-chrome"]) ↔
      NamesOrConfTurnAurOff (some "aur = no") googleChrome :=
  @install_without_aur_iff (some "aur = no") googleChrome "mindos-pkg install google-chrome"
    (by decide)

/-- A system on which nothing is installed and only the AUR has packages. -/
def onlyAur : Sources Unit where
  installed := fun _ _ => false
  flatpakInstalled := fun _ _ => false
  repoHas := fun _ _ => false
  dbStale := fun _ => false
  syncDb := fun w => (w, true)
  upgradeWith := fun w _ => (w, false)
  flathubReady := fun w => (w, true)
  flatpakMatch := fun _ _ => none
  flatpakInstall := fun w _ => (w, false)
  aurHas := fun _ _ => true
  paruBuild := fun w _ => (w, true)

/-- With the switch off and the shipped configuration, the script builds from the AUR. -/
theorem install_without_aur_builds :
    ¬ ∀ (conf : Option Text) (args : Json) (text : Text),
      installPackagesCommand false args = .ok text →
        AurDisabled conf (scriptArgs text) ∧ NoAurBuild conf (scriptArgs text) := by
  intro h
  have hbuilt := (h (some "aur = yes") googleChrome "mindos-pkg install google-chrome"
    (by decide)).2 Unit onlyAur true ()
  revert hbuilt
  decide

/-!
## The guards of write_file and remove_packages

Both guards judge the text of an argument, and the tool acts on what the text comes to:
the path after its components are resolved, the name after its blanks are off. A path may
leave the directory that its beginning names, and a name in blanks is in no list.
-/

open Text Walk Policy

/-! ### write_file -/

theorem policyFor_writeFile {d : ToolDef} (hd : d.name = "write_file".toList) {args : Json}
    {p : Text} (hp : args.getStr "path" = some p) (cfg : Config) :
    policyFor d args cfg ≠ .forbidden ↔ ∃ root ∈ writableRoots, ∃ rest, p = root ++ rest := by
  have hverdict : policyFor d args cfg =
      if writableRoots.any p.startsWith then .change else .forbidden := by
    unfold policyFor
    rw [hd, if_neg (by decide), if_neg (by decide), if_pos rfl, hp, Option.getD_some]
  have hroot : writableRoots.any p.startsWith = true ↔
      ∃ root ∈ writableRoots, ∃ rest, p = root ++ rest := by
    simp only [List.any_eq_true, startsWith_iff, List.IsPrefix, eq_comm (a := p)]
  rw [hverdict, ← hroot]
  split
  case isTrue h => exact iff_of_true (by decide) h
  case isFalse h => exact iff_of_false (by decide) h

/-- The place is inside a directory that may be written to. -/
def InWritable (place : List Text) : Prop := ∃ dir ∈ writableRoots, Below (resolve dir) place

instance (place : List Text) : Decidable (InWritable place) :=
  inferInstanceAs (Decidable (∃ dir ∈ writableRoots, _))

/-- No beginning of the path has more `..` than names. -/
def NeverAbove (rest : Text) : Prop :=
  ∀ front, front <+: moves rest → ups front ≤ downs front

/-- Behind the directory the path never climbs over it, and names something that it does
not leave again; or it does, and what it takes from there leads into a directory that may
be written to. -/
def ComesToRest (root rest : Text) : Prop :=
  (NeverAbove rest ∧ settled (moves rest) ≠ []) ∨
    (¬NeverAbove rest ∧ InWritable ((resolve root).take ((resolve root).length -
      climb (moves rest)) ++ (settled (moves rest)).reverse))

theorem neverAbove_iff (rest : Text) : NeverAbove rest ↔ climb (moves rest) = 0 := by
  rw [← Nat.le_zero, climb_le_iff]
  rfl

theorem not_inWritable_root :
    ∀ root ∈ writableRoots, ¬InWritable (resolve root) := by decide

theorem root_eq : ∀ root ∈ writableRoots,
    root = root.dropLast ++ ['/'] ∧ resolve root.dropLast = resolve root := by decide

theorem inWritable_iff {root : Text} (hroot : root ∈ writableRoots) (rest : Text) :
    InWritable (resolve (root ++ rest)) ↔ ComesToRest root rest := by
  obtain ⟨hslash, hresolve⟩ := root_eq root hroot
  have hplace : resolve (root ++ rest) =
      (resolve root).take ((resolve root).length - climb (moves rest)) ++
        (settled (moves rest)).reverse := by
    rw [hslash, List.append_assoc, List.singleton_append, resolve_append, ← hslash, hresolve]
  by_cases habove : NeverAbove rest
  · have hclimb := (neverAbove_iff rest).mp habove
    rw [hplace, hclimb, Nat.sub_zero, List.take_length, ComesToRest]
    simp only [habove, true_and, not_true_eq_false, false_and, or_false]
    constructor
    · intro hin hnone
      rw [hnone, List.reverse_nil, List.append_nil] at hin
      exact not_inWritable_root root hroot hin
    · intro hsome
      refine ⟨root, hroot, List.prefix_append _ _, ?_⟩
      rw [List.length_append, List.length_reverse]
      exact Nat.lt_add_of_pos_right (List.length_pos_iff.mpr hsome)
  · rw [hplace, ComesToRest]
    simp only [habove, false_and, not_false_eq_true, true_and, false_or]

/-- A write that the policy lets through stays inside a writable directory exactly when the
part of its path behind the directory comes to rest in one. -/
theorem write_inside_iff {d : ToolDef} (hd : d.name = "write_file".toList) {args : Json}
    {p : Text} (hp : args.getStr "path" = some p) (cfg : Config) :
    (policyFor d args cfg ≠ .forbidden → InWritable (resolve p)) ↔
      ∀ root ∈ writableRoots, ∀ rest, p = root ++ rest → ComesToRest root rest := by
  rw [policyFor_writeFile hd hp]
  constructor
  · rintro h root hroot rest rfl
    exact (inWritable_iff hroot rest).mp (h ⟨root, hroot, rest, rfl⟩)
  · rintro h ⟨root, hroot, rest, rfl⟩
    exact (inWritable_iff hroot rest).mpr (h root hroot rest rfl)

theorem write_inside_iff_hosts :
    (policyFor ⟨"write_file", .change, "files"⟩ (.obj [("path", .str "/etc/./hosts")]) {} ≠
        .forbidden → InWritable (resolve "/etc/./hosts")) ↔
      ∀ root ∈ writableRoots, ∀ rest, "/etc/./hosts".toList = root ++ rest →
        ComesToRest root rest :=
  write_inside_iff rfl (by decide) {}

/-- A path that begins with a writable directory may lead out of it. -/
theorem write_not_inside :
    ¬ ∀ (d : ToolDef) (args : Json) (p : Text) (cfg : Config), d.name = "write_file".toList →
      args.getStr "path" = some p → policyFor d args cfg ≠ .forbidden →
      InWritable (resolve p) := by
  intro h
  have hpath : (Json.obj [("path", .str "/etc/../root/.profile")]).getStr "path" =
      some "/etc/../root/.profile".toList := by decide
  have hin := h ⟨"write_file", .change, "files"⟩ _ _ {} rfl hpath
    ((policyFor_writeFile rfl hpath {}).mpr ⟨"/etc/", by decide, "../root/.profile", by decide⟩)
  revert hin
  decide

/-! ### remove_packages -/

/-- The strings of the package list, as the policy reads them. -/
def listedNames (args : Json) : List Text :=
  (((args.get "packages").asArray).map Json.strings).getD []

theorem policyFor_removePackages {d : ToolDef} (hd : d.name = "remove_packages".toList)
    (args : Json) (cfg : Config) :
    policyFor d args cfg ≠ .forbidden ↔ ∀ n ∈ listedNames args, n ∉ protectedPackages := by
  have hverdict : policyFor d args cfg =
      if (listedNames args).any protectedPackages.contains then .forbidden else .change := by
    unfold policyFor
    rw [hd, if_neg (by decide), if_neg (by decide), if_neg (by decide), if_neg (by decide),
      if_neg (by decide), if_pos rfl]
    rfl
  have hlisted : (listedNames args).any protectedPackages.contains = false ↔
      ∀ n ∈ listedNames args, n ∉ protectedPackages := by
    simp only [List.any_eq_false, List.contains_iff_mem]
  rw [hverdict, ← hlisted]
  cases (listedNames args).any protectedPackages.contains <;> decide

theorem mem_requestedNames {args : Json} {n : Text} :
    n ∈ requestedNames args ↔ n ≠ [] ∧ ∃ s ∈ listedNames args, n = trim s := by
  rw [requestedNames, listedNames]
  cases (args.get "packages").asArray with
  | none => simp
  | some items =>
      simp only [Option.map_some, Option.getD_some, packageNames, List.mem_filter, List.mem_map,
        Bool.not_eq_true', List.isEmpty_eq_false_iff, eq_comm (a := n)]
      exact and_comm

theorem scriptArgs_remove {args : Json} {text : Text}
    (h : removePackagesCommand args = .ok text) : scriptArgs text = requestedNames args := by
  obtain ⟨list, hlist, rfl⟩ := removePackagesCommand_eq_ok h
  have hwords : words "mindos-pkg remove".toList = ["mindos-pkg", "remove"] := by decide
  have hblank : "mindos-pkg remove ".toList = "mindos-pkg remove".toList ++ [' '] := by decide
  rw [scriptArgs, hblank, List.append_assoc, List.singleton_append, words_append_blank, hwords,
    (pkgList_eq_ok hlist).2.2, words_unwords (isWord_of_pkgList hlist)]
  rfl

theorem exists_removePackagesCommand {args : Json} (hne : requestedNames args ≠ [])
    (hchars : ∀ n ∈ requestedNames args, ∀ c ∈ n, packageChar c = true) :
    ∃ text, removePackagesCommand args = .ok text := by
  have hlist : ∃ list, pkgList args = .ok list := by
    unfold requestedNames at hne hchars
    unfold pkgList
    cases hitems : (args.get "packages").asArray with
    | none =>
        rw [hitems] at hne
        exact absurd rfl hne
    | some items =>
        rw [hitems, Option.map_some, Option.getD_some] at hne hchars
        have hfind : (packageNames items).find? (fun n => !n.all packageChar) = none := by
          simpa [List.find?_eq_none, List.all_eq_true] using hchars
        dsimp only
        rw [if_neg (by simpa using hne), hfind]
        exact ⟨_, rfl⟩
  obtain ⟨list, hlist⟩ := hlist
  exact ⟨_, by rw [removePackagesCommand, hlist]; rfl⟩

theorem protected_ne_nil : ∀ n ∈ protectedPackages, n ≠ [] := by decide

/-- A name the policy does not know for protected because of the blanks around it. -/
def Disguised (s : Text) : Prop := s ∉ protectedPackages ∧ trim s ∈ protectedPackages

/-- A removal that the policy lets through hands the script no protected package exactly
when no protected name stands in blanks, unless the list also has a protected name without
blanks or a name with a character that no package name has. -/
theorem remove_unprotected_iff {d : ToolDef} (hd : d.name = "remove_packages".toList)
    (args : Json) (cfg : Config) :
    (policyFor d args cfg ≠ .forbidden → ∀ text, removePackagesCommand args = .ok text →
        ∀ n ∈ scriptArgs text, n ∉ protectedPackages) ↔
      ((∃ s ∈ listedNames args, Disguised s) →
        (∃ s ∈ listedNames args, s ∈ protectedPackages) ∨
          ∃ s ∈ listedNames args, ∃ c ∈ trim s, packageChar c = false) := by
  rw [policyFor_removePackages hd]
  constructor
  · rintro h ⟨s, hs, -, htrim⟩
    by_contra hpass
    rw [not_or] at hpass
    have hname : trim s ∈ requestedNames args :=
      mem_requestedNames.mpr ⟨protected_ne_nil _ htrim, s, hs, rfl⟩
    obtain ⟨text, htext⟩ := exists_removePackagesCommand (List.ne_nil_of_mem hname)
      fun n hn c hc => by
        obtain ⟨-, t, ht, rfl⟩ := mem_requestedNames.mp hn
        by_contra hbad
        exact hpass.2 ⟨t, ht, c, hc, by simpa using hbad⟩
    refine h (fun n hn hprotected => hpass.1 ⟨n, hn, hprotected⟩) text htext (trim s) ?_ htrim
    rwa [scriptArgs_remove htext]
  · intro h hpass text htext n hn hprotected
    obtain ⟨list, hlist, -⟩ := removePackagesCommand_eq_ok htext
    rw [scriptArgs_remove htext] at hn
    obtain ⟨-, s, hs, rfl⟩ := mem_requestedNames.mp hn
    obtain ⟨s', hs', hin⟩ | ⟨s', hs', c, hc, hbad⟩ := h ⟨s, hs, hpass s hs, hprotected⟩
    · exact hpass s' hs' hin
    · have hname : trim s' ∈ requestedNames args :=
        mem_requestedNames.mpr ⟨List.ne_nil_of_mem hc, s', hs', rfl⟩
      rw [((pkgList_eq_ok hlist).2.1 _ hname).2 c hc] at hbad
      cases hbad

theorem remove_unprotected_iff_firefox :
    (policyFor ⟨"remove_packages", .change, "packages"⟩
        (.obj [("packages", .arr [.str " firefox "])]) {} ≠ .forbidden →
      ∀ text, removePackagesCommand (.obj [("packages", .arr [.str " firefox "])]) = .ok text →
        ∀ n ∈ scriptArgs text, n ∉ protectedPackages) ↔
      ((∃ s ∈ listedNames (.obj [("packages", .arr [.str " firefox "])]), Disguised s) →
        (∃ s ∈ listedNames (.obj [("packages", .arr [.str " firefox "])]),
            s ∈ protectedPackages) ∨
          ∃ s ∈ listedNames (.obj [("packages", .arr [.str " firefox "])]),
            ∃ c ∈ trim s, packageChar c = false) :=
  remove_unprotected_iff rfl _ {}

/-- The kernel behind a blank is removed. -/
theorem remove_not_unprotected :
    ¬ ∀ (d : ToolDef) (args : Json) (cfg : Config), d.name = "remove_packages".toList →
      policyFor d args cfg ≠ .forbidden → ∀ text, removePackagesCommand args = .ok text →
        ∀ n ∈ scriptArgs text, n ∉ protectedPackages := by
  intro h
  have hpass := (policyFor_removePackages (d := ⟨"remove_packages", .change, "packages"⟩) rfl
    (.obj [("packages", .arr [.str " linux"])]) {}).mpr (by decide)
  exact h _ _ {} rfl hpass "mindos-pkg remove linux" (by decide) "linux" (by decide) (by decide)

end MindOS.Tools
