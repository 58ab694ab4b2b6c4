import MindOS.Daemon.Web.Basic

/-!
# Desktop entries

The shell and the compositor's launcher read desktop files each by a function of its own.
They take the keys of an application alike, and differ in how they read the lists of
desktops it is shown in: the shell takes the last list and asks for the current desktop, in
any case; the launcher hides the entry for each list that does not have, or has, `MindOS`.
-/

namespace MindOS.Apps

open Text

/-- What is asked of other libraries: how GLib splits a command line, and how letters of any
script are lowered. -/
structure Lib where
  shellParseArgv : Text → Option (List Text)
  toLowercase : Text → Text

/-! ## The command -/

/-- Field codes are left out, and two signs are one. -/
def fieldCodes : Text → Text
  | [] => []
  | ['%'] => []
  | '%' :: '%' :: t => '%' :: fieldCodes t
  | '%' :: _ :: t => fieldCodes t
  | c :: t => c :: fieldCodes t

def cleanExec (exec : Text) : Text := squeeze (fieldCodes exec)

/-- The programs that run a Windows program. -/
def winePrograms : List Text := [
  "wine".toList, "wine64".toList, "wine-preloader".toList, "wine64-preloader".toList,
  "proton".toList, "mindos-win".toList, "mindos-win-open".toList]

/-- What `env` is given before the program. -/
def afterEnv (words : List Text) : List Text :=
  if words.head?.any fun w => afterLast w '/' = "env".toList then
    (words.drop 1).dropWhile fun w => w.contains ['='] || w = "--".toList
  else words

/-- Does this (cleaned) line run a Windows program? -/
def execIsWine (lib : Lib) (exec : Text) : Bool :=
  match lib.shellParseArgv exec with
  | none => false
  | some words => (afterEnv words).head?.any fun w => winePrograms.contains (afterLast w '/')

/-! ## The lines -/

/-- `str::split_once` -/
def splitOnce (t : Text) (c : Char) : Option (Text × Text) :=
  match t.dropWhile (· != c) with
  | _ :: value => some (t.takeWhile (· != c), value)
  | [] => none

theorem splitOnce_append {front : Text} {c : Char} (h : c ∉ front) (rest : Text) :
    splitOnce (front ++ c :: rest) c = some (front, rest) := by
  have hfront : ∀ d ∈ front, (d != c) = true := fun d hd =>
    bne_iff_ne.mpr (ne_of_mem_of_not_mem hd h)
  rw [splitOnce, List.dropWhile_append_of_pos hfront, List.dropWhile_cons_of_neg (by simp),
    List.takeWhile_append_of_pos hfront, List.takeWhile_cons_of_neg (by simp), List.append_nil]

theorem splitOnce_eq_some {t front rest : Text} {c : Char}
    (h : splitOnce t c = some (front, rest)) : t = front ++ c :: rest := by
  have hcut := List.takeWhile_append_dropWhile (p := (· != c)) (l := t)
  rw [splitOnce] at h
  split at h
  case h_1 d value hdrop =>
    obtain ⟨rfl, rfl⟩ := Prod.mk.inj (Option.some.inj h)
    have hd : ¬(d != c) = true := by
      have hhead := List.head_dropWhile_not (· != c) (l := t)
        (by rw [hdrop]; exact List.cons_ne_nil _ _)
      simpa [hdrop] using hhead
    obtain rfl : d = c := by simpa using hd
    rw [← hdrop, hcut]
  case h_2 => cases h

theorem splitOnce_none {t : Text} {c : Char} (h : c ∉ t) : splitOnce t c = none := by
  rw [splitOnce, List.dropWhile_eq_nil_iff.mpr fun d hd =>
    bne_iff_ne.mpr (ne_of_mem_of_not_mem hd h)]

/-- The loop over the lines, as far as the keys go. -/
structure Group where
  inEntry : Bool := false
  /-- The keys, and their values as they stand in the line. -/
  pairs : List (Text × Text) := []

/-- A reader may pass over comments. -/
def Group.line (comments : Bool) (g : Group) (line : Text) : Group :=
  let line := trim line
  if line.startsWith ['['] then { g with inEntry := line == "[Desktop Entry]".toList }
  else if !g.inEntry || (comments && line.startsWith ['#']) then g
  else
    match splitOnce line '=' with
    | some (key, value) => { g with pairs := g.pairs ++ [(trim key, value)] }
    | none => g

def pairs (comments : Bool) (text : Text) : List (Text × Text) :=
  ((Web.lines text).foldl (Group.line comments) {}).pairs

/-! ## The keys that both take alike -/

structure Common where
  name : Option Text := none
  exec : Option Text := none
  icon : Text := []
  generic : Text := []
  comment : Text := []
  keywords : Text := []
  terminal : Bool := false
  hidden : Bool := false
  isApp : Bool := true

def Common.set (f : Common) (key value : Text) : Common :=
  let value := trim value
  if key = "Type".toList then { f with isApp := value == "Application".toList }
  else if key = "Name".toList then { f with name := some value }
  else if key = "Exec".toList then { f with exec := some value }
  else if key = "Icon".toList then { f with icon := value }
  else if key = "GenericName".toList then { f with generic := value }
  else if key = "Comment".toList then { f with comment := value }
  else if key = "Keywords".toList then { f with keywords := value.replaceChar ';' [' '] }
  else if key = "Terminal".toList then { f with terminal := value == "true".toList }
  else if key = "NoDisplay".toList ∨ key = "Hidden".toList then
    { f with hidden := f.hidden || value == "true".toList }
  else f

/-- The name and the command of what is to be listed. -/
def Common.listed (f : Common) : Option (Text × Text) :=
  if !f.isApp || f.hidden then none
  else
    match f.name, f.exec with
    | some name, some exec => if cleanExec exec = [] then none else some (name, cleanExec exec)
    | _, _ => none

def Common.haystack (lib : Lib) (f : Common) (name exec : Text) : Text :=
  lib.toLowercase (unwords [name, f.generic, f.comment, f.keywords]) ++
    if execIsWine lib exec then " windows wine".toList else []

/-- What is between the semicolons. -/
def semicolons (t : Text) : List Text := t.splitOnP (· == ';')

/-! ## The launcher's reader -/

namespace Launcher

structure AppEntry where
  id : Text
  name : Text
  exec : Text
  desktopFile : Text
  terminal : Bool
  icon : Text
  wine : Bool
  haystack : Text

/-- A list of desktops that hides the entry. -/
def hides (key value : Text) : Bool :=
  if key = "OnlyShowIn".toList then !(semicolons value).any fun v => v == "MindOS".toList
  else if key = "NotShowIn".toList then (semicolons value).any fun v => v == "MindOS".toList
  else false

def set (f : Common) (key value : Text) : Common :=
  if key = "OnlyShowIn".toList ∨ key = "NotShowIn".toList then
    { f with hidden := f.hidden || hides key value }
  else f.set key value

def fields (text : Text) : Common := (pairs false text).foldl (fun f p => set f p.1 p.2) {}

def parseDesktopFile (lib : Lib) (path text id : Text) : Option AppEntry :=
  (fields text).listed.map fun p =>
    { id := id
      name := p.1
      exec := p.2
      desktopFile := path
      terminal := (fields text).terminal
      icon := (fields text).icon
      wine := execIsWine lib p.2
      haystack := (fields text).haystack lib p.1 p.2 }

end Launcher

/-! ## The shell's reader -/

namespace Shell

structure AppEntry where
  id : Text
  name : Text
  comment : Text
  exec : Text
  desktopFile : Text
  icon : Text
  categories : List Text
  terminal : Bool
  wmClass : Text
  wine : Bool
  haystack : Text

structure Fields where
  common : Common := {}
  categories : List Text := []
  wmClass : Text := []
  onlyShowIn : Option (List Text) := none
  notShowIn : List Text := []

/-- The values of a list, without empty ones. -/
def values (value : Text) : List Text := (semicolons (trim value)).filter fun v => !v.isEmpty

def set (f : Fields) (key value : Text) : Fields :=
  if key = "Categories".toList then { f with categories := values value }
  else if key = "StartupWMClass".toList then { f with wmClass := trim value }
  else if key = "OnlyShowIn".toList then { f with onlyShowIn := some (values value) }
  else if key = "NotShowIn".toList then { f with notShowIn := values value }
  else { f with common := f.common.set key value }

def fields (text : Text) : Fields := (pairs true text).foldl (fun f p => set f p.1 p.2) {}

/-- One of the desktops is in the list. -/
def anyOf (desktops list : List Text) : Bool :=
  list.any fun d => desktops.any fun c => eqIgnoreAsciiCase c d

/-- The entry is shown on one of the desktops. -/
def shows (f : Fields) (desktops : List Text) : Bool :=
  (f.onlyShowIn.all fun only => anyOf desktops only) && !anyOf desktops f.notShowIn

def parseDesktopEntry (lib : Lib) (text id : Text) (desktops : List Text) : Option AppEntry :=
  if shows (fields text) desktops then
    (fields text).common.listed.map fun p =>
      let f := (fields text).common
      { id := id
        name := p.1
        comment := if f.comment.isEmpty then f.generic else f.comment
        exec := p.2
        desktopFile := []
        icon := f.icon
        categories := (fields text).categories
        terminal := f.terminal
        wmClass := (fields text).wmClass
        wine := execIsWine lib p.2
        haystack := f.haystack lib p.1 p.2 }
  else none

end Shell

/-! ## What the readers have in common -/

theorem startsWith_trim {c : Char} (hc : isWhitespace c = false) (t : Text) :
    ∃ u, trim (c :: t) = c :: u := by
  rw [trim, List.dropWhile_cons_of_neg (by simp [hc])]
  obtain ⟨u, hu⟩ := List.rdropWhile_prefix isWhitespace (c :: t)
  cases hdrop : (c :: t).rdropWhile isWhitespace with
  | nil =>
      have hall := List.rdropWhile_eq_nil_iff.mp hdrop c List.mem_cons_self
      exact absurd (hc.symm.trans hall) Bool.false_ne_true
  | cons d v =>
      rw [hdrop] at hu
      exact ⟨v, by rw [(List.cons.inj hu).1]⟩

theorem isWhitespace_of_trim {t u : Text} {c : Char} (h : trim t = c :: u) :
    isWhitespace c = false := by
  obtain ⟨v, hv⟩ := List.rdropWhile_prefix isWhitespace (t.dropWhile isWhitespace)
  have hhead := List.head?_dropWhile_not isWhitespace t
  rw [← hv, show List.rdropWhile isWhitespace _ = c :: u from h] at hhead
  simpa using hhead

theorem trim_key {line key value : Text} (h : splitOnce line '=' = some (key, value)) :
    key = [] ∨ ∃ c t u, line = c :: t ∧ key = c :: u := by
  unfold splitOnce at h
  split at h
  · obtain ⟨rfl, -⟩ := Prod.mk.inj (Option.some.inj h)
    cases line with
    | nil => exact .inl rfl
    | cons c t =>
        by_cases hc : (c != '=') = true
        · exact .inr ⟨c, t, _, rfl, List.takeWhile_cons_of_pos hc⟩
        · exact .inl (List.takeWhile_cons_of_neg hc)
  · cases h

theorem key_of_comment {line key value : Text} (hline : line.startsWith ['#'] = true)
    (h : splitOnce line '=' = some (key, value)) : ∃ t, trim key = '#' :: t := by
  obtain ⟨t, rfl⟩ := startsWith_iff.mp hline
  have hkey : ∃ u, key = '#' :: u := by
    unfold splitOnce at h
    split at h
    · obtain ⟨rfl, -⟩ := Prod.mk.inj (Option.some.inj h)
      exact ⟨_, rfl⟩
    · cases h
  obtain ⟨u, rfl⟩ := hkey
  exact startsWith_trim (by decide) u

/-- The keys that are no comments. -/
def noComments (ps : List (Text × Text)) : List (Text × Text) :=
  ps.filter fun p => !p.1.startsWith ['#']

theorem line_comments (inEntry : Bool) (ps : List (Text × Text)) (line : Text) :
    ∃ inEntry' ps', Group.line false ⟨inEntry, ps⟩ line = ⟨inEntry', ps'⟩ ∧
      Group.line true ⟨inEntry, noComments ps⟩ line = ⟨inEntry', noComments ps'⟩ := by
  unfold Group.line
  generalize hl : trim line = l
  by_cases hgroup : l.startsWith ['['] = true
  · simp only [if_pos hgroup]
    exact ⟨_, _, rfl, rfl⟩
  · simp only [if_neg hgroup]
    cases inEntry with
    | false => exact ⟨false, ps, rfl, rfl⟩
    | true =>
        cases hsplit : splitOnce l '=' with
        | none => exact ⟨true, ps, rfl, by simp⟩
        | some p =>
            obtain ⟨key, value⟩ := p
            refine ⟨true, ps ++ [(trim key, value)], rfl, ?_⟩
            cases hcomment : l.startsWith ['#'] with
            | true =>
                obtain ⟨t, ht⟩ := key_of_comment hcomment hsplit
                have hkey : Text.startsWith (trim key) ['#'] = true := by
                  rw [ht]
                  exact startsWith_iff.mpr ⟨t, rfl⟩
                simp [noComments, hkey]
            | false =>
                have hkey : Text.startsWith (trim key) ['#'] = false := by
                  refine Bool.eq_false_iff.mpr fun hstarts => ?_
                  obtain ⟨t, ht⟩ := startsWith_iff.mp hstarts
                  obtain rfl | ⟨c, u, v, rfl, rfl⟩ := trim_key hsplit
                  · cases ht
                  · obtain ⟨w, hw⟩ := startsWith_trim (isWhitespace_of_trim hl) v
                    obtain ⟨rfl, -⟩ := List.cons.inj (ht.trans hw)
                    exact Bool.eq_false_iff.mp hcomment (startsWith_iff.mpr ⟨u, rfl⟩)
                simp [noComments, hkey]

theorem pairs_comments (text : Text) : pairs true text = noComments (pairs false text) := by
  have hlines : ∀ (lines : List Text) (inEntry : Bool) (ps : List (Text × Text)),
      (lines.foldl (Group.line true) ⟨inEntry, noComments ps⟩).pairs =
        noComments (lines.foldl (Group.line false) ⟨inEntry, ps⟩).pairs := by
    intro lines
    induction lines with
    | nil => exact fun _ _ => rfl
    | cons line lines ih =>
        intro inEntry ps
        obtain ⟨inEntry', ps', hwith, hwithout⟩ := line_comments inEntry ps line
        rw [List.foldl_cons, List.foldl_cons, hwith, hwithout]
        exact ih inEntry' ps'
  exact hlines (Web.lines text) false []

/-- What hides an entry besides its keys changes nothing but that it is hidden. -/
def Common.hide (f : Common) (b : Bool) : Common := { f with hidden := f.hidden || b }

theorem Common.ite_hide {p : Prop} [Decidable p] {f f' g g' : Common} {b : Bool}
    (hf : f = f'.hide b) (hg : g = g'.hide b) :
    (if p then f else g) = (if p then f' else g').hide b := by
  split
  · exact hf
  · exact hg

theorem Common.set_hide (f : Common) (b : Bool) (key value : Text) :
    (f.hide b).set key value = (f.set key value).hide b := by
  unfold Common.set
  dsimp only
  iterate 8 refine ite_hide rfl ?_
  refine ite_hide ?_ rfl
  simp only [Common.hide, Bool.or_right_comm]

theorem Common.hide_false (f : Common) : f.hide false = f := by
  rw [Common.hide, Bool.or_false]

theorem Common.hide_hide (f : Common) (a b : Bool) : (f.hide a).hide b = f.hide (a || b) := by
  rw [Common.hide, Common.hide, Common.hide, Bool.or_assoc]

/-- The keys that an application has for both readers. -/
def commonKeys : List Text := [
  "Type".toList, "Name".toList, "Exec".toList, "Icon".toList, "GenericName".toList,
  "Comment".toList, "Keywords".toList, "Terminal".toList, "NoDisplay".toList, "Hidden".toList]

theorem Common.set_of_not_mem {f : Common} {key value : Text} (h : key ∉ commonKeys) :
    f.set key value = f := by
  simp only [commonKeys, List.mem_cons, List.not_mem_nil, or_false, not_or] at h
  obtain ⟨h₁, h₂, h₃, h₄, h₅, h₆, h₇, h₈, h₉, h₁₀⟩ := h
  rw [Common.set, if_neg h₁, if_neg h₂, if_neg h₃, if_neg h₄, if_neg h₅, if_neg h₆, if_neg h₇,
    if_neg h₈, if_neg (not_or.mpr ⟨h₉, h₁₀⟩)]

/-- A key does to what both readers take what it does for the launcher, but for lists of
desktops. -/
theorem set_common (f : Shell.Fields) (b : Bool) (key value : Text) :
    Launcher.set (f.common.hide b) key value =
      ((Shell.set f key value).common.hide (b || Launcher.hides key value)) := by
  unfold Launcher.set
  by_cases honly : key = "OnlyShowIn".toList
  · subst honly
    rw [if_pos (.inl rfl), ← Common.hide_hide]
    rfl
  by_cases hnot : key = "NotShowIn".toList
  · subst hnot
    rw [if_pos (.inr rfl), ← Common.hide_hide]
    rfl
  have hhides : Launcher.hides key value = false := by
    rw [Launcher.hides, if_neg honly, if_neg hnot]
  rw [if_neg (not_or.mpr ⟨honly, hnot⟩), Common.set_hide, hhides, Bool.or_false]
  unfold Shell.set
  by_cases hcategories : key = "Categories".toList
  · subst hcategories
    rw [if_pos rfl, Common.set_of_not_mem (by decide)]
  by_cases hclass : key = "StartupWMClass".toList
  · subst hclass
    rw [if_neg hcategories, if_pos rfl, Common.set_of_not_mem (by decide)]
  rw [if_neg hcategories, if_neg hclass, if_neg honly, if_neg hnot]

theorem set_comment {f : Common} {key value : Text} (h : key.startsWith ['#'] = true) :
    Launcher.set f key value = f ∧ Launcher.hides key value = false := by
  have hkey : ∀ k : Text, k.startsWith ['#'] = false → key ≠ k := by
    rintro k hk rfl
    exact nomatch h.symm.trans hk
  have hnone : key ∉ commonKeys := by
    intro hmem
    have hall : ∀ k ∈ commonKeys, k.startsWith ['#'] = false := by decide
    exact hkey key (hall key hmem) rfl
  have honly : key ≠ "OnlyShowIn".toList := hkey _ (by decide)
  have hnot : key ≠ "NotShowIn".toList := hkey _ (by decide)
  constructor
  · rw [Launcher.set, if_neg (not_or.mpr ⟨honly, hnot⟩), Common.set_of_not_mem hnone]
  · rw [Launcher.hides, if_neg honly, if_neg hnot]

/-- Some list of desktops hides the entry from the launcher. -/
def Launcher.shows (text : Text) : Bool :=
  !(pairs false text).any fun p => hides p.1 p.2

theorem launcher_fields (text : Text) : Launcher.fields text =
    (Shell.fields text).common.hide (!Launcher.shows text) := by
  have hpairs : ∀ (ps : List (Text × Text)) (f : Shell.Fields) (b : Bool),
      ps.foldl (fun f p => Launcher.set f p.1 p.2) (f.common.hide b) =
        ((noComments ps).foldl (fun f p => Shell.set f p.1 p.2) f).common.hide
          (b || ps.any fun p => Launcher.hides p.1 p.2) := by
    intro ps
    induction ps with
    | nil =>
        intro f b
        rw [List.any_nil, Bool.or_false]
        rfl
    | cons p ps ih =>
        intro f b
        rw [List.foldl_cons, List.any_cons]
        cases hcomment : p.1.startsWith ['#'] with
        | true =>
            obtain ⟨hset, hhides⟩ : Launcher.set (f.common.hide b) p.1 p.2 = f.common.hide b ∧
                Launcher.hides p.1 p.2 = false := set_comment hcomment
            rw [hset, hhides, Bool.false_or, ih]
            simp [noComments, hcomment]
        | false =>
            rw [set_common, ih, ← Bool.or_assoc]
            simp [noComments, hcomment]
  have hall := hpairs (pairs false text) {} false
  rw [Common.hide_false, Bool.false_or, ← pairs_comments] at hall
  rw [Launcher.shows, Bool.not_not]
  exact hall

theorem Common.listed_hide (f : Common) (b : Bool) :
    (f.hide b).listed = if b then none else f.listed := by
  unfold Common.listed
  cases b with
  | false => rw [Common.hide_false, if_neg Bool.false_ne_true]
  | true =>
      rw [Common.hide, Bool.or_true, Bool.or_true]
      rfl

theorem launcher_listed (text : Text) : (Launcher.fields text).listed =
    if Launcher.shows text then (Shell.fields text).common.listed else none := by
  rw [launcher_fields, Common.listed_hide]
  cases Launcher.shows text <;> rfl

/-! ## What is visible -/

/-- The entry is of an application that is not hidden and can be run. -/
def Runs (text : Text) : Prop := (Shell.fields text).common.listed.isSome = true

/-- The shell lists an entry of the text on one of the desktops. -/
def Shell.Visible (desktops : List Text) (text : Text) : Prop :=
  Shell.shows (Shell.fields text) desktops = true ∧ Runs text

/-- The launcher lists an entry of the text. -/
def Launcher.Visible (text : Text) : Prop := Launcher.shows text = true ∧ Runs text

/-- The lists of desktops, if it depends on them, say the same to both readers. -/
def ReadAlike (text : Text) : Prop :=
  Runs text →
    (Shell.shows (Shell.fields text) ["MindOS".toList] = true ↔ Launcher.shows text = true)

theorem readAlike_iff (text : Text) : ReadAlike text ↔
    (Launcher.Visible text ↔ Shell.Visible ["MindOS".toList] text) := by
  unfold ReadAlike Launcher.Visible Shell.Visible
  constructor
  · intro h
    exact ⟨fun hv => ⟨(h hv.2).mpr hv.1, hv.2⟩, fun hv => ⟨(h hv.2).mp hv.1, hv.2⟩⟩
  · intro h hruns
    exact ⟨fun hshows => (h.mpr ⟨hshows, hruns⟩).1, fun hshows => (h.mp ⟨hshows, hruns⟩).1⟩

section Parse

variable (lib : Lib) (text id : Text)

theorem Shell.parse_isSome (desktops : List Text) :
    (Shell.parseDesktopEntry lib text id desktops).isSome = true ↔
      Shell.Visible desktops text := by
  unfold Shell.parseDesktopEntry Shell.Visible Runs
  split
  next h => rw [Option.isSome_map, and_iff_right h]
  next h => exact iff_of_false (by simp) fun hv => h hv.1

theorem Launcher.parse_isSome (path : Text) :
    (Launcher.parseDesktopFile lib path text id).isSome = true ↔ Launcher.Visible text := by
  unfold Launcher.parseDesktopFile Launcher.Visible Runs
  rw [Option.isSome_map, launcher_listed]
  split
  next h => rw [and_iff_right h]
  next h => exact iff_of_false (by simp) fun hv => h hv.1

theorem parse_same {desktops : List Text} {path : Text} {a : Shell.AppEntry}
    {b : Launcher.AppEntry} (ha : Shell.parseDesktopEntry lib text id desktops = some a)
    (hb : Launcher.parseDesktopFile lib path text id = some b) :
    a.id = id ∧ b.id = id ∧ b.name = a.name ∧ b.exec = a.exec ∧ b.terminal = a.terminal ∧
      b.desktopFile = path := by
  obtain ⟨p, hp, rfl⟩ := Option.map_eq_some_iff.mp hb
  obtain ⟨-, ha⟩ := Option.ite_none_right_eq_some.mp ha
  obtain ⟨q, hq, rfl⟩ := Option.map_eq_some_iff.mp ha
  rw [launcher_listed] at hp
  obtain ⟨hshows, hp⟩ := Option.ite_none_right_eq_some.mp hp
  obtain rfl := Option.some.inj (hp.symm.trans hq)
  refine ⟨rfl, rfl, rfl, rfl, ?_, rfl⟩
  rw [launcher_fields]
  rfl

end Parse

end MindOS.Apps
