import Mathlib.Data.List.Nodup
import MindOS.Apps.Entry

/-!
# The application index

The shell and the launcher walk the same data directories, in their order, and list an
application once for each id. The shell passes over an id that it has listed already; the
launcher passes over an id that it has seen already, whether it listed it or not. The
launcher enters no directory twice, by whatever path it comes to it.
-/

namespace MindOS.Apps

open Text

/-- What a name in a directory leads to. -/
inductive Entry where
  /-- What can be read of a file. -/
  | file (content : Option Text)
  /-- The canonical directory, and what is in it. -/
  | dir (real : Nat) (entries : List (Text × Entry))

/-- A directory that the walk comes to, by its path from where the walk began. -/
structure Dir where
  path : Text := []
  real : Nat
  entries : List (Text × Entry)

structure File where
  path : Text
  content : Option Text

/-- The path of the file with dashes. -/
def File.id (f : File) : Text := f.path.replaceChar '/' ['-']

/-- The extension is `desktop`. -/
def isDesktop (name : Text) : Bool :=
  name.endsWith ".desktop".toList && name != ".desktop".toList

namespace Dir

def join (d : Dir) (name : Text) : Text :=
  if d.path.isEmpty then name else d.path ++ '/' :: name

def subdirs (d : Dir) : List Dir :=
  d.entries.filterMap fun e =>
    match e.2 with
    | .dir real entries => some ⟨d.join e.1, real, entries⟩
    | .file _ => none

def files (d : Dir) : List File :=
  d.entries.filterMap fun e =>
    match e.2 with
    | .file content => if isDesktop e.1 then some ⟨d.join e.1, content⟩ else none
    | .dir _ _ => none

noncomputable def size (d : Dir) : Nat := 1 + sizeOf d.entries

theorem sum_size_subdirs (d : Dir) : (d.subdirs.map size).sum < d.size := by
  obtain ⟨path, real, entries⟩ := d
  have hentries : ∀ entries : List (Text × Entry),
      ((Dir.subdirs ⟨path, real, entries⟩).map size).sum ≤ sizeOf entries := by
    intro entries
    induction entries with
    | nil => exact Nat.zero_le _
    | cons e entries ih =>
        obtain ⟨name, content | ⟨real', entries'⟩⟩ := e
        · exact ih.trans (by simp)
        · have hrest : (Dir.subdirs ⟨path, real, (name, .dir real' entries') :: entries⟩) =
              ⟨Dir.join ⟨path, real, entries⟩ name, real', entries'⟩ ::
                Dir.subdirs ⟨path, real, entries⟩ := rfl
          rw [hrest, List.map_cons, List.sum_cons]
          simp only [size, List.cons.sizeOf_spec, Prod.mk.sizeOf_spec,
            Entry.dir.sizeOf_spec] at ih ⊢
          omega
  exact Nat.lt_one_add_iff.mpr (hentries entries)

end Dir

/-- What is left to walk. -/
noncomputable def left (stack : List Dir) : Nat := (stack.map Dir.size).sum

theorem left_subdirs (d : Dir) (stack : List Dir) :
    left (d.subdirs.reverse ++ stack) < left (d :: stack) := by
  have hd := d.sum_size_subdirs
  simp only [left, List.map_append, List.map_reverse, List.sum_append, List.sum_reverse,
    List.map_cons, List.sum_cons]
  omega

theorem left_tail (d : Dir) (stack : List Dir) : left stack < left (d :: stack) := by
  simp only [left, List.map_cons, List.sum_cons, Dir.size]
  omega

/-- The loop over a stack of directories: each that is entered has its desktop files looked
at, and its directories put on the stack. -/
def walk {σ : Type} (enter : Dir → σ → Option σ) (look : σ → File → σ) : List Dir → σ → σ
  | [], s => s
  | d :: stack, s =>
      match enter d s with
      | some t => walk enter look (d.subdirs.reverse ++ stack) (d.files.foldl look t)
      | none => walk enter look stack s
termination_by stack => left stack
decreasing_by
  · exact left_subdirs d stack
  · exact left_tail d stack

/-- A data directory's `applications`. -/
structure Base where
  path : Text
  real : Nat
  entries : List (Text × Entry)

def Base.dir (b : Base) : Dir := { real := b.real, entries := b.entries }

/-- Where a file below the directory is. -/
def Base.join (b : Base) (f : File) : Text := b.path ++ '/' :: f.path

/-- The order of texts, that of their code points. -/
def notAfter : Text → Text → Bool
  | [], _ => true
  | _ :: _, [] => false
  | c :: t, d :: u => c.toNat.blt d.toNat || c.toNat.beq d.toNat && notAfter t u

/-- The values in the order of their keys, then by the names in lower case. -/
def listed {α : Type} (lib : Lib) (name : α → Text) (apps : List (Text × α)) : List α :=
  ((apps.mergeSort fun p q => notAfter p.1 q.1).map Prod.snd).mergeSort fun a b =>
    notAfter (lib.toLowercase (name a)) (lib.toLowercase (name b))

/-- `launch_command`: a desktop file is for GIO to interpret. -/
def launchCommand (exec desktopFile : Text) (terminal : Bool) : Text :=
  if terminal || desktopFile.isEmpty then exec
  else "gio launch '".toList ++ desktopFile.replaceChar '\'' "'\\''".toList ++ "'".toList

namespace Shell

def currentDesktop (env : Option Text) : List Text :=
  (env.getD "MindOS".toList).splitOnP (· == ':')

/-- Earlier data directories take precedence. -/
def look (lib : Lib) (desktops : List Text) (base : Base) (apps : List (Text × AppEntry))
    (f : File) : List (Text × AppEntry) :=
  if apps.any fun p => decide (p.1 = f.id) then apps
  else
    match f.content.bind fun text => parseDesktopEntry lib text f.id desktops with
    | some app => apps ++ [(f.id, { app with desktopFile := base.join f })]
    | none => apps

def loadApps (lib : Lib) (dirs : List Base) (env : Option Text) : List AppEntry :=
  listed lib AppEntry.name <| dirs.foldl
    (fun apps base =>
      walk (fun _ s => some s) (look lib (currentDesktop env) base) [base.dir] apps) []

def AppEntry.launchCommand (a : AppEntry) : Text :=
  Apps.launchCommand a.exec a.desktopFile a.terminal

end Shell

namespace Launcher

structure Index where
  apps : List (Text × AppEntry) := []
  seen : List Text := []

structure Scan where
  index : Index := {}
  visited : List Nat := []

/-- Earlier data directories take precedence. -/
def look (lib : Lib) (base : Base) (s : Index) (f : File) : Index :=
  if s.seen.contains f.id then s
  else
    { apps :=
        match f.content.bind fun text => parseDesktopFile lib (base.join f) text f.id with
        | some app => s.apps ++ [(f.id, app)]
        | none => s.apps
      seen := f.id :: s.seen }

def enter (d : Dir) (s : Scan) : Option Scan :=
  if s.visited.contains d.real then none else some { s with visited := d.real :: s.visited }

def loadApps (lib : Lib) (dirs : List Base) : List AppEntry :=
  listed lib AppEntry.name (dirs.foldl
    (fun s base =>
      walk enter (fun s f => { s with index := look lib base s.index f }) [base.dir] s)
    ({} : Scan)).index.apps

def AppEntry.launchCommand (a : AppEntry) : Text :=
  Apps.launchCommand a.exec a.desktopFile a.terminal

end Launcher

/-! ## What a walk comes to -/

/-- The directories of a walk that enters all of them. -/
def order : List Dir → List Dir
  | [] => []
  | d :: stack => d :: order (d.subdirs.reverse ++ stack)
termination_by stack => left stack
decreasing_by exact left_subdirs d stack

def Base.dirs (b : Base) : List Dir := order [b.dir]

/-- The desktop files below a data directory. -/
def Base.files (b : Base) : List File := b.dirs.flatMap Dir.files

/-- All desktop files, with the data directories they are below. -/
def allFiles (dirs : List Base) : List (Base × File) :=
  dirs.flatMap fun b => b.files.map fun f => (b, f)

theorem mem_allFiles {dirs : List Base} {x : Base × File} :
    x ∈ allFiles dirs ↔ x.1 ∈ dirs ∧ x.2 ∈ x.1.files := by
  obtain ⟨b, f⟩ := x
  simp [allFiles]

theorem allFiles_cons (b : Base) (dirs : List Base) :
    allFiles (b :: dirs) = (b.files.map fun f => (b, f)) ++ allFiles dirs :=
  List.flatMap_cons

theorem Base.files_of_subdirs {b : Base} (h : b.dir.subdirs = []) : b.files = b.dir.files := by
  rw [Base.files, Base.dirs, order, h]
  show (b.dir :: order []).flatMap Dir.files = _
  rw [order, List.flatMap_cons, List.flatMap_nil, List.append_nil]

theorem walk_all {σ : Type} (look : σ → File → σ) (stack : List Dir) (s : σ) :
    walk (fun _ s => some s) look stack s = ((order stack).flatMap Dir.files).foldl look s := by
  induction stack using order.induct generalizing s with
  | case1 =>
      rw [walk, order]
      rfl
  | case2 d stack ih =>
      rw [walk, order, List.flatMap_cons, List.foldl_append]
      exact ih _

theorem Shell.scan_eq (lib : Lib) (desktops : List Text) (dirs : List Base)
    (apps : List (Text × Shell.AppEntry)) :
    dirs.foldl (fun apps base =>
      walk (fun _ s => some s) (Shell.look lib desktops base) [base.dir] apps) apps =
      (allFiles dirs).foldl (fun apps x => Shell.look lib desktops x.1 apps x.2) apps := by
  induction dirs generalizing apps with
  | nil => rfl
  | cons b dirs ih =>
      rw [List.foldl_cons, allFiles_cons, List.foldl_append, List.foldl_map, walk_all]
      exact ih _

namespace Launcher

/-- The directories that the launcher enters. -/
def entered : List Dir → List Nat → List Dir
  | [], _ => []
  | d :: stack, visited =>
      if visited.contains d.real then entered stack visited
      else d :: entered (d.subdirs.reverse ++ stack) (d.real :: visited)
termination_by stack => left stack
decreasing_by
  · exact left_tail d stack
  · exact left_subdirs d stack

/-- The files that the launcher comes to, with the data directories they are below. -/
def comesTo : List Base → List Nat → List (Base × File)
  | [], _ => []
  | b :: dirs, visited =>
      (((entered [b.dir] visited).flatMap Dir.files).map fun f => (b, f)) ++
        comesTo dirs (((entered [b.dir] visited).map Dir.real).reverse ++ visited)

theorem foldl_index (look : Index → File → Index) (fs : List File) (s : Scan) :
    fs.foldl (fun s f => { s with index := look s.index f }) s =
      { s with index := fs.foldl look s.index } := by
  induction fs generalizing s with
  | nil => rfl
  | cons f fs ih => exact ih _

theorem walk_enter (look : Index → File → Index) (stack : List Dir) (s : Scan) :
    walk enter (fun s f => { s with index := look s.index f }) stack s =
      { index := ((entered stack s.visited).flatMap Dir.files).foldl look s.index
        visited := ((entered stack s.visited).map Dir.real).reverse ++ s.visited } := by
  obtain ⟨index, visited⟩ := s
  dsimp only
  induction stack, visited using entered.induct generalizing index with
  | case1 visited =>
      rw [walk, entered]
      rfl
  | case2 d stack visited hvisited ih =>
      rw [walk, entered, if_pos hvisited, show enter d ⟨index, visited⟩ = none from if_pos hvisited]
      exact ih index
  | case3 d stack visited hnew ih =>
      rw [walk, entered, if_neg hnew,
        show enter d ⟨index, visited⟩ = some ⟨index, d.real :: visited⟩ from if_neg hnew]
      show walk _ _ _ _ = _
      rw [foldl_index, ih, List.flatMap_cons, List.foldl_append, List.map_cons,
        List.reverse_cons, List.append_assoc]
      rfl

theorem scan_eq (lib : Lib) (dirs : List Base) (s : Scan) :
    (dirs.foldl (fun s base => walk enter
      (fun s f => { s with index := look lib base s.index f }) [base.dir] s) s).index =
      (comesTo dirs s.visited).foldl (fun i x => look lib x.1 i x.2) s.index := by
  induction dirs generalizing s with
  | nil => rfl
  | cons b dirs ih =>
      rw [List.foldl_cons, walk_enter, ih, comesTo, List.foldl_append, List.foldl_map]

end Launcher

theorem order_append (front back : List Dir) :
    order (front ++ back) = order front ++ order back := by
  induction front using order.induct with
  | case1 =>
      rw [order.eq_1]
      rfl
  | case2 d front ih =>
      rw [List.cons_append, order, order, ← List.append_assoc, ih, List.cons_append]

theorem Launcher.entered_subset (stack : List Dir) (visited : List Nat) :
    ∀ d ∈ entered stack visited, d ∈ order stack := by
  induction stack, visited using entered.induct with
  | case1 visited =>
      rw [entered]
      exact fun d hd => nomatch hd
  | case2 d stack visited hvisited ih =>
      intro e he
      rw [entered, if_pos hvisited] at he
      rw [order, order_append]
      exact List.mem_cons_of_mem d (List.mem_append_right _ (ih e he))
  | case3 d stack visited hnew ih =>
      intro e he
      rw [entered, if_neg hnew] at he
      rw [order]
      obtain rfl | he := List.mem_cons.mp he
      · exact List.mem_cons_self
      · exact List.mem_cons_of_mem d (ih e he)

theorem Launcher.comesTo_subset (dirs : List Base) (visited : List Nat) :
    ∀ x ∈ comesTo dirs visited, x ∈ allFiles dirs := by
  induction dirs generalizing visited with
  | nil => exact fun x hx => nomatch hx
  | cons b dirs ih =>
      intro x hx
      rw [allFiles_cons]
      obtain hx | hx := List.mem_append.mp hx
      · obtain ⟨f, hf, rfl⟩ := List.mem_map.mp hx
        obtain ⟨d, hd, hf⟩ := List.mem_flatMap.mp hf
        have hfile : f ∈ b.files :=
          List.mem_flatMap.mpr ⟨d, entered_subset _ visited d hd, hf⟩
        exact List.mem_append_left _ (List.mem_map_of_mem hfile)
      · exact List.mem_append_right _ (ih _ x hx)

/-! ## What is listed -/

/-- The first in a list that something holds of. -/
def First {α : Type} (P : α → Prop) (xs : List α) (x : α) : Prop :=
  ∃ front back, xs = front ++ x :: back ∧ P x ∧ ∀ y ∈ front, ¬ P y

theorem First.mem {α : Type} {P : α → Prop} {xs : List α} {x : α} (h : First P xs x) :
    x ∈ xs := by
  obtain ⟨front, back, rfl, -, -⟩ := h
  exact List.mem_append_right front List.mem_cons_self

theorem First.holds {α : Type} {P : α → Prop} {xs : List α} {x : α} (h : First P xs x) : P x := by
  obtain ⟨front, back, -, hx, -⟩ := h
  exact hx

theorem first_nil {α : Type} {P : α → Prop} {x : α} : ¬ First P [] x :=
  fun h => nomatch h.mem

theorem first_cons {α : Type} {P : α → Prop} {y : α} {xs : List α} {x : α} :
    First P (y :: xs) x ↔ P y ∧ x = y ∨ ¬ P y ∧ First P xs x := by
  constructor
  · rintro ⟨front, back, heq, hx, hfront⟩
    cases front with
    | nil =>
        obtain ⟨rfl, -⟩ := List.cons.inj heq
        exact .inl ⟨hx, rfl⟩
    | cons z front =>
        obtain ⟨rfl, rfl⟩ := List.cons.inj heq
        exact .inr ⟨hfront y List.mem_cons_self, front, back, rfl, hx,
          fun w hw => hfront w (List.mem_cons_of_mem y hw)⟩
  · rintro (⟨hy, rfl⟩ | ⟨hy, front, back, rfl, hx, hfront⟩)
    · exact ⟨[], xs, rfl, hy, fun z hz => nomatch hz⟩
    · refine ⟨y :: front, back, rfl, hx, fun w hw => ?_⟩
      obtain rfl | hw := List.mem_cons.mp hw
      · exact hy
      · exact hfront w hw

theorem First.unique {α : Type} {P : α → Prop} {xs : List α} {x y : α} (hx : First P xs x)
    (hy : First P xs y) : x = y := by
  induction xs with
  | nil => exact absurd hx first_nil
  | cons z xs ih =>
      obtain ⟨hz, rfl⟩ | ⟨hz, hx⟩ := first_cons.mp hx
      · obtain ⟨-, rfl⟩ | ⟨hz', -⟩ := first_cons.mp hy
        · rfl
        · exact absurd hz hz'
      · obtain ⟨hz', -⟩ | ⟨-, hy⟩ := first_cons.mp hy
        · exact absurd hz' hz
        · exact ih hx hy

theorem exists_first {α : Type} {P : α → Prop} {xs : List α} (h : ∃ x ∈ xs, P x) :
    ∃ x, First P xs x := by
  induction xs with
  | nil =>
      obtain ⟨x, hx, -⟩ := h
      cases hx
  | cons y xs ih =>
      by_cases hy : P y
      · exact ⟨y, first_cons.mpr (.inl ⟨hy, rfl⟩)⟩
      · obtain ⟨x, hx, hP⟩ := h
        obtain rfl | hx := List.mem_cons.mp hx
        · exact absurd hP hy
        · obtain ⟨z, hz⟩ := ih ⟨x, hx, hP⟩
          exact ⟨z, first_cons.mpr (.inr ⟨hy, hz⟩)⟩

theorem findSome?_iff_first {α β : Type} {P : α → Prop} {f : α → Option β}
    (hP : ∀ x, P x ↔ (f x).isSome = true) (xs : List α) (b : β) :
    xs.findSome? f = some b ↔ ∃ x, First P xs x ∧ f x = some b := by
  rw [List.findSome?_eq_some_iff]
  constructor
  · rintro ⟨front, x, back, rfl, hx, hfront⟩
    refine ⟨x, ⟨front, back, rfl, (hP x).mpr (Option.isSome_iff_exists.mpr ⟨b, hx⟩), ?_⟩, hx⟩
    intro y hy hPy
    rw [hP, hfront y hy] at hPy
    cases hPy
  · rintro ⟨x, ⟨front, back, rfl, -, hfront⟩, hx⟩
    refine ⟨front, x, back, rfl, hx, fun y hy => ?_⟩
    rw [← Option.not_isSome_iff_eq_none, ← hP]
    exact hfront y hy

/-- What can be read of the file is as stated. -/
def File.Holds (f : File) (P : Text → Prop) : Prop := ∃ text, f.content = some text ∧ P text

/-- It is a file of the id. -/
def Has (id : Text) (x : Base × File) : Prop := x.2.id = id

/-- It is a file of the id that the shell would list on one of the desktops. -/
def Seen (desktops : List Text) (id : Text) (x : Base × File) : Prop :=
  x.2.id = id ∧ x.2.Holds (Shell.Visible desktops)

/-- Where the file is. -/
def pathOf (x : Base × File) : Text := x.1.join x.2

theorem mem_listed {α : Type} {lib : Lib} {name : α → Text} {apps : List (Text × α)} {a : α} :
    a ∈ listed lib name apps ↔ ∃ id, (id, a) ∈ apps := by
  simp [listed]

namespace Shell

variable (lib : Lib) (desktops : List Text)

/-- What a file is listed as, if it is of the id. -/
def read (id : Text) (x : Base × File) : Option AppEntry :=
  if x.2.id = id then
    (x.2.content.bind fun text => parseDesktopEntry lib text id desktops).map fun app =>
      { app with desktopFile := pathOf x }
  else none

theorem read_isSome (id : Text) (x : Base × File) :
    Seen desktops id x ↔ (read lib desktops id x).isSome = true := by
  unfold Seen read File.Holds
  split
  next hid =>
    rw [and_iff_right hid, Option.isSome_map]
    cases x.2.content with
    | none => simp
    | some text =>
        rw [Option.bind_some, parse_isSome]
        simp
  next hid => exact iff_of_false (fun h => hid h.1) (by simp)

theorem read_of_ne {id : Text} {x : Base × File} (h : x.2.id ≠ id) :
    read lib desktops id x = none :=
  if_neg h

theorem look_of_listed {base : Base} {f : File} {apps : List (Text × AppEntry)} {b : AppEntry}
    (h : (f.id, b) ∈ apps) : look lib desktops base apps f = apps := by
  have hany : apps.any (fun p => decide (p.1 = f.id)) = true :=
    List.any_eq_true.mpr ⟨(f.id, b), h, decide_eq_true rfl⟩
  rw [look, if_pos hany]

theorem look_of_new {base : Base} {f : File} {apps : List (Text × AppEntry)}
    (h : ∀ b, (f.id, b) ∉ apps) : look lib desktops base apps f =
      apps ++ ((read lib desktops f.id (base, f)).map fun a => (f.id, a)).toList := by
  have hany : ¬ apps.any (fun p => decide (p.1 = f.id)) = true := by
    intro hany
    obtain ⟨p, hp, hid⟩ := List.any_eq_true.mp hany
    exact h p.2 (of_decide_eq_true hid ▸ hp)
  rw [look, if_neg hany, read, if_pos rfl]
  cases f.content.bind fun text => parseDesktopEntry lib text f.id desktops with
  | none => exact (List.append_nil apps).symm
  | some app => rfl

theorem mem_look (base : Base) (f : File) (apps : List (Text × AppEntry)) (id : Text)
    (a : AppEntry) : (id, a) ∈ look lib desktops base apps f ↔
      (id, a) ∈ apps ∨ (∀ b, (id, b) ∉ apps) ∧ read lib desktops id (base, f) = some a := by
  by_cases hlisted : ∃ b, (f.id, b) ∈ apps
  · obtain ⟨b, hb⟩ := hlisted
    rw [look_of_listed lib desktops hb]
    refine (or_iff_left ?_).symm
    rintro ⟨hnew, hread⟩
    by_cases hid : f.id = id
    · exact hnew b (hid ▸ hb)
    · rw [read_of_ne lib desktops hid] at hread
      cases hread
  · have hnew := not_exists.mp hlisted
    rw [look_of_new lib desktops hnew, List.mem_append, Option.mem_toList,
      Option.map_eq_some_iff]
    refine or_congr_right ⟨?_, ?_⟩
    · rintro ⟨b, hread, heq⟩
      obtain ⟨rfl, rfl⟩ := Prod.mk.inj heq
      exact ⟨hnew, hread⟩
    · rintro ⟨-, hread⟩
      by_cases hid : f.id = id
      · subst hid
        exact ⟨a, hread, rfl⟩
      · rw [read_of_ne lib desktops hid] at hread
        cases hread

theorem mem_scan (xs : List (Base × File)) (apps : List (Text × AppEntry)) (id : Text)
    (a : AppEntry) :
    (id, a) ∈ xs.foldl (fun apps x => look lib desktops x.1 apps x.2) apps ↔
      (id, a) ∈ apps ∨
        (∀ b, (id, b) ∉ apps) ∧ xs.findSome? (read lib desktops id) = some a := by
  induction xs generalizing apps with
  | nil => simp
  | cons x xs ih =>
      rw [List.foldl_cons, ih, List.findSome?_cons]
      simp only [mem_look]
      cases read lib desktops id x with
      | none => simp
      | some b =>
          simp only [Option.some.injEq]
          constructor
          · rintro (h | ⟨hnone, -⟩)
            · exact h
            · by_cases hnew : ∀ c, (id, c) ∉ apps
              · exact absurd (.inr ⟨hnew, rfl⟩) (hnone b)
              · obtain ⟨c, hc⟩ := not_forall_not.mp hnew
                exact absurd (.inl hc) (hnone c)
          · exact .inl

theorem read_eq_some {id : Text} {x : Base × File} {a : AppEntry}
    (h : read lib desktops id x = some a) : ∃ text app, x.2.content = some text ∧
      parseDesktopEntry lib text id desktops = some app ∧
      a = { app with desktopFile := pathOf x } := by
  obtain ⟨-, h⟩ := Option.ite_none_right_eq_some.mp h
  obtain ⟨app, happ, rfl⟩ := Option.map_eq_some_iff.mp h
  obtain ⟨text, htext, happ⟩ := Option.bind_eq_some_iff.mp happ
  exact ⟨text, app, htext, happ, rfl⟩

theorem read_id {id : Text} {x : Base × File} {a : AppEntry}
    (h : read lib desktops id x = some a) : a.id = id := by
  obtain ⟨text, app, -, happ, rfl⟩ := read_eq_some lib desktops h
  obtain ⟨-, happ⟩ := Option.ite_none_right_eq_some.mp happ
  obtain ⟨p, -, rfl⟩ := Option.map_eq_some_iff.mp happ
  rfl

theorem read_desktopFile {id : Text} {x : Base × File} {a : AppEntry}
    (h : read lib desktops id x = some a) : a.desktopFile = pathOf x := by
  obtain ⟨text, app, -, -, rfl⟩ := read_eq_some lib desktops h
  rfl

theorem mem_loadApps (dirs : List Base) (env : Option Text) (a : AppEntry) :
    a ∈ loadApps lib dirs env ↔ ∃ x, First (Seen (currentDesktop env) a.id) (allFiles dirs) x ∧
      read lib (currentDesktop env) a.id x = some a := by
  rw [← findSome?_iff_first (read_isSome lib (currentDesktop env) a.id), loadApps, mem_listed,
    scan_eq]
  simp only [mem_scan, List.not_mem_nil, not_false_eq_true, implies_true, true_and, false_or]
  constructor
  · rintro ⟨id, h⟩
    obtain ⟨x, -, hread⟩ := List.exists_of_findSome?_eq_some h
    obtain rfl := read_id lib _ hread
    exact h
  · exact fun h => ⟨a.id, h⟩

theorem lists_iff (dirs : List Base) (env : Option Text) (id : Text) :
    (∃ a ∈ loadApps lib dirs env, a.id = id) ↔
      ∃ x ∈ allFiles dirs, Seen (currentDesktop env) id x := by
  constructor
  · rintro ⟨a, ha, rfl⟩
    obtain ⟨x, hx, -⟩ := (mem_loadApps lib dirs env a).mp ha
    exact ⟨x, hx.mem, hx.holds⟩
  · intro h
    obtain ⟨x, hx⟩ := exists_first h
    obtain ⟨a, ha⟩ := Option.isSome_iff_exists.mp ((read_isSome lib _ id x).mp hx.holds)
    obtain rfl := read_id lib _ ha
    exact ⟨a, (mem_loadApps lib dirs env a).mpr ⟨x, hx, ha⟩, rfl⟩

end Shell

namespace Launcher

variable (lib : Lib)

/-- What a file is listed as. -/
def read (x : Base × File) : Option AppEntry :=
  x.2.content.bind fun text => parseDesktopFile lib (pathOf x) text x.2.id

theorem read_isSome (x : Base × File) :
    (read lib x).isSome = true ↔ x.2.Holds Visible := by
  unfold read File.Holds
  cases x.2.content with
  | none => simp
  | some text =>
      rw [Option.bind_some, parse_isSome]
      simp

theorem read_eq_some {x : Base × File} {a : AppEntry} (h : read lib x = some a) :
    ∃ text, x.2.content = some text ∧
      parseDesktopFile lib (pathOf x) text x.2.id = some a :=
  Option.bind_eq_some_iff.mp h

theorem read_id {x : Base × File} {a : AppEntry} (h : read lib x = some a) :
    a.id = x.2.id := by
  obtain ⟨text, -, h⟩ := read_eq_some lib h
  obtain ⟨p, -, rfl⟩ := Option.map_eq_some_iff.mp h
  rfl

theorem read_desktopFile {x : Base × File} {a : AppEntry} (h : read lib x = some a) :
    a.desktopFile = pathOf x := by
  obtain ⟨text, -, h⟩ := read_eq_some lib h
  obtain ⟨p, -, rfl⟩ := Option.map_eq_some_iff.mp h
  rfl

theorem look_of_seen {base : Base} {f : File} {i : Index} (h : f.id ∈ i.seen) :
    look lib base i f = i :=
  if_pos (List.contains_iff_mem.mpr h)

theorem look_of_new {base : Base} {f : File} {i : Index} (h : f.id ∉ i.seen) :
    look lib base i f =
      { apps := i.apps ++ ((read lib (base, f)).map fun a => (f.id, a)).toList
        seen := f.id :: i.seen } := by
  have hread : (f.content.bind fun text => parseDesktopFile lib (base.join f) text f.id) =
      read lib (base, f) := rfl
  rw [look, if_neg fun hseen => h (List.contains_iff_mem.mp hseen), hread]
  cases read lib (base, f) with
  | none => rw [Option.map_none, Option.toList_none, List.append_nil]
  | some app => rfl

theorem mem_seen_look (base : Base) (f : File) (i : Index) (id : Text) :
    id ∈ (look lib base i f).seen ↔ id ∈ i.seen ∨ f.id = id := by
  by_cases hseen : f.id ∈ i.seen
  · rw [look_of_seen lib hseen]
    exact (or_iff_left_of_imp fun hid => hid ▸ hseen).symm
  · rw [look_of_new lib hseen, List.mem_cons, or_comm, eq_comm]

theorem mem_look (base : Base) (f : File) (i : Index) (id : Text) (a : AppEntry) :
    (id, a) ∈ (look lib base i f).apps ↔
      (id, a) ∈ i.apps ∨ id ∉ i.seen ∧ f.id = id ∧ read lib (base, f) = some a := by
  by_cases hseen : f.id ∈ i.seen
  · rw [look_of_seen lib hseen]
    refine (or_iff_left ?_).symm
    rintro ⟨hnew, rfl, -⟩
    exact hnew hseen
  · rw [look_of_new lib hseen, List.mem_append, Option.mem_toList, Option.map_eq_some_iff]
    refine or_congr_right ⟨?_, ?_⟩
    · rintro ⟨b, hread, heq⟩
      obtain ⟨rfl, rfl⟩ := Prod.mk.inj heq
      exact ⟨hseen, rfl, hread⟩
    · rintro ⟨-, rfl, hread⟩
      exact ⟨a, hread, rfl⟩

/-- The launcher adds of each id what the first file of the id is listed as, if the id was not
seen before. -/
theorem mem_scan (xs : List (Base × File)) (i : Index) (id : Text) (a : AppEntry) :
    (id, a) ∈ (xs.foldl (fun i x => look lib x.1 i x.2) i).apps ↔
      (id, a) ∈ i.apps ∨
        id ∉ i.seen ∧ ∃ x, First (Has id) xs x ∧ read lib x = some a := by
  induction xs generalizing i with
  | nil => simp [first_nil]
  | cons x xs ih =>
      rw [List.foldl_cons, ih, mem_look, mem_seen_look]
      simp only [first_cons, Has]
      by_cases hid : x.2.id = id
      · simp [hid]
      · simp [hid]

theorem mem_loadApps (dirs : List Base) (a : AppEntry) : a ∈ loadApps lib dirs ↔
    ∃ x, First (Has a.id) (comesTo dirs []) x ∧ read lib x = some a := by
  rw [loadApps, mem_listed, scan_eq]
  simp only [mem_scan, List.not_mem_nil, not_false_eq_true, true_and, false_or]
  constructor
  · rintro ⟨id, x, hx, hread⟩
    obtain rfl : x.2.id = id := hx.holds
    rw [read_id lib hread]
    exact ⟨x, hx, hread⟩
  · exact fun h => ⟨a.id, h⟩

end Launcher

/-! ## One index -/

/-- Data directories of one file system: there is one file at a path. -/
structure DataDirs where
  dirs : List Base
  one : ∀ x ∈ allFiles dirs, ∀ y ∈ allFiles dirs,
    pathOf x = pathOf y → x.2.content = y.2.content

/-- The first directory that has a file of the id holds one that is as stated. -/
def FirstHolds (dirs : List Base) (id : Text) (P : Text → Prop) : Prop :=
  ∃ b, First (fun b => ∃ f ∈ b.files, f.id = id) dirs b ∧ ∃ f ∈ b.files, f.id = id ∧ f.Holds P

/-- Both entries are of the same file, with the same name and command. -/
structure Same (a : Shell.AppEntry) (b : Launcher.AppEntry) : Prop where
  id : b.id = a.id
  name : b.name = a.name
  exec : b.exec = a.exec
  desktopFile : b.desktopFile = a.desktopFile
  command : b.launchCommand = a.launchCommand

/-- Both list the same. -/
def Agree (apps : List Shell.AppEntry) (launches : List Launcher.AppEntry) : Prop :=
  (∀ a ∈ apps, ∃ b ∈ launches, Same a b) ∧ ∀ b ∈ launches, ∃ a ∈ apps, Same a b

abbrev mindOS : List Text := ["MindOS".toList]

/-- An id is listed if the first directory that has it holds a visible file, and on this
desktop the launcher lists the same. -/
structure OneIndex (lib : Lib) (d : DataDirs) (env : Option Text) : Prop where
  listed : ∀ id, (∃ a ∈ Shell.loadApps lib d.dirs env, a.id = id) ↔
    FirstHolds d.dirs id (Shell.Visible (Shell.currentDesktop env))
  agree : Shell.currentDesktop env = mindOS →
    Agree (Shell.loadApps lib d.dirs env) (Launcher.loadApps lib d.dirs)

/-- An id that has a visible file has one in the first directory that has the id. -/
def Unshadowed (dirs : List Base) (desktops : List Text) : Prop :=
  ∀ id, (∃ x ∈ allFiles dirs, Seen desktops id x) →
    FirstHolds dirs id (Shell.Visible desktops)

/-- The first visible file of an id is the first of the id that the launcher comes to. -/
def SeenFirst (dirs : List Base) : Prop :=
  ∀ id x, First (Seen mindOS id) (allFiles dirs) x →
    ∃ y, First (Has id) (Launcher.comesTo dirs []) y ∧ pathOf y = pathOf x

/-- The first file of each id that the launcher comes to says the same to both readers. -/
def FirstsAlike (dirs : List Base) : Prop :=
  ∀ id y, First (Has id) (Launcher.comesTo dirs []) y →
    ∀ text, y.2.content = some text → ReadAlike text

theorem FirstHolds.exists {dirs : List Base} {id : Text} {desktops : List Text}
    (h : FirstHolds dirs id (Shell.Visible desktops)) :
    ∃ x ∈ allFiles dirs, Seen desktops id x := by
  obtain ⟨b, hb, f, hf, hid, hholds⟩ := h
  exact ⟨(b, f), mem_allFiles.mpr ⟨hb.mem, hf⟩, hid, hholds⟩

theorem listed_iff (lib : Lib) (dirs : List Base) (env : Option Text) :
    (∀ id, (∃ a ∈ Shell.loadApps lib dirs env, a.id = id) ↔
      FirstHolds dirs id (Shell.Visible (Shell.currentDesktop env))) ↔
      Unshadowed dirs (Shell.currentDesktop env) := by
  refine forall_congr' fun id => ?_
  rw [Shell.lists_iff]
  exact ⟨Iff.mp, fun h => ⟨h, FirstHolds.exists⟩⟩

theorem same_of_read {lib : Lib} {desktops : List Text} {x y : Base × File}
    {a : Shell.AppEntry} {b : Launcher.AppEntry} (hpath : pathOf y = pathOf x)
    (hcontent : y.2.content = x.2.content) (ha : Shell.read lib desktops y.2.id x = some a)
    (hb : Launcher.read lib y = some b) : Same a b := by
  obtain ⟨text, app, htext, happ, rfl⟩ := Shell.read_eq_some lib desktops ha
  obtain ⟨text', htext', hb⟩ := Launcher.read_eq_some lib hb
  obtain rfl : text = text' :=
    Option.some.inj (htext.symm.trans (hcontent.symm.trans htext'))
  obtain ⟨hida, hidb, hname, hexec, hterminal, hfile⟩ := parse_same lib text y.2.id happ hb
  have hfile := hfile.trans hpath
  refine ⟨hidb.trans hida.symm, hname, hexec, hfile, ?_⟩
  rw [Launcher.AppEntry.launchCommand, Shell.AppEntry.launchCommand, hexec, hfile, hterminal]

theorem FirstsAlike.holds {dirs : List Base} (h : FirstsAlike dirs) {id : Text}
    {y : Base × File} (hy : First (Has id) (Launcher.comesTo dirs []) y) :
    y.2.Holds Launcher.Visible ↔ y.2.Holds (Shell.Visible mindOS) := by
  constructor
  · rintro ⟨text, htext, hvisible⟩
    exact ⟨text, htext, (readAlike_iff text).mp (h id y hy text htext) |>.mp hvisible⟩
  · rintro ⟨text, htext, hvisible⟩
    exact ⟨text, htext, (readAlike_iff text).mp (h id y hy text htext) |>.mpr hvisible⟩

section Agree

variable {lib : Lib} {d : DataDirs} {env : Option Text}
  (hdesktop : Shell.currentDesktop env = mindOS)

include hdesktop

theorem seenFirst_of_agree
    (h : Agree (Shell.loadApps lib d.dirs env) (Launcher.loadApps lib d.dirs)) :
    SeenFirst d.dirs := by
  intro id x hx
  obtain ⟨a, ha⟩ := Option.isSome_iff_exists.mp ((Shell.read_isSome lib mindOS id x).mp hx.holds)
  obtain rfl := Shell.read_id lib mindOS ha
  have hlisted : a ∈ Shell.loadApps lib d.dirs env := by
    rw [Shell.mem_loadApps, hdesktop]
    exact ⟨x, hx, ha⟩
  obtain ⟨b, hb, hsame⟩ := h.1 a hlisted
  obtain ⟨y, hy, hread⟩ := (Launcher.mem_loadApps lib d.dirs b).mp hb
  rw [hsame.id] at hy
  have hfile := hsame.desktopFile
  rw [Shell.read_desktopFile lib mindOS ha, Launcher.read_desktopFile lib hread] at hfile
  exact ⟨y, hy, hfile⟩

theorem firstsAlike_of_agree
    (h : Agree (Shell.loadApps lib d.dirs env) (Launcher.loadApps lib d.dirs)) :
    FirstsAlike d.dirs := by
  intro id y hy text htext
  have hall := Launcher.comesTo_subset d.dirs [] y hy.mem
  obtain rfl : y.2.id = id := hy.holds
  rw [readAlike_iff]
  constructor
  · intro hvisible
    obtain ⟨b, hb⟩ := Option.isSome_iff_exists.mp
      ((Launcher.read_isSome lib y).mpr ⟨text, htext, hvisible⟩)
    have hlisted : b ∈ Launcher.loadApps lib d.dirs := by
      rw [Launcher.mem_loadApps, Launcher.read_id lib hb]
      exact ⟨y, hy, hb⟩
    obtain ⟨a, ha, hsame⟩ := h.2 b hlisted
    rw [Shell.mem_loadApps, hdesktop] at ha
    obtain ⟨x, hx, hread⟩ := ha
    have hfile := hsame.desktopFile
    rw [Shell.read_desktopFile lib mindOS hread, Launcher.read_desktopFile lib hb] at hfile
    obtain ⟨text', htext', hvisible'⟩ := hx.holds.2
    rw [← d.one y hall x hx.mem hfile, htext] at htext'
    exact Option.some.inj htext' ▸ hvisible'
  · intro hvisible
    obtain ⟨a, ha, hid⟩ := (Shell.lists_iff lib d.dirs env y.2.id).mpr
      ⟨y, hall, rfl, text, htext, hdesktop ▸ hvisible⟩
    obtain ⟨b, hb, hsame⟩ := h.1 a ha
    obtain ⟨z, hz, hread⟩ := (Launcher.mem_loadApps lib d.dirs b).mp hb
    rw [hsame.id, hid] at hz
    obtain rfl := hz.unique hy
    obtain ⟨text', htext', hvisible'⟩ :=
      (Launcher.read_isSome lib z).mp (Option.isSome_iff_exists.mpr ⟨b, hread⟩)
    exact Option.some.inj (htext'.symm.trans htext) ▸ hvisible'

theorem agree_of_firsts (hseen : SeenFirst d.dirs) (halike : FirstsAlike d.dirs) :
    Agree (Shell.loadApps lib d.dirs env) (Launcher.loadApps lib d.dirs) := by
  constructor
  · intro a ha
    rw [Shell.mem_loadApps, hdesktop] at ha
    obtain ⟨x, hx, hread⟩ := ha
    obtain ⟨y, hy, hpath⟩ := hseen a.id x hx
    have hid : y.2.id = a.id := hy.holds
    have hcontent := d.one y (Launcher.comesTo_subset d.dirs [] y hy.mem) x hx.mem hpath
    have hvisible : y.2.Holds (Shell.Visible mindOS) := by
      rw [File.Holds, hcontent]
      exact hx.holds.2
    obtain ⟨b, hb⟩ := Option.isSome_iff_exists.mp
      ((Launcher.read_isSome lib y).mpr ((halike.holds hy).mpr hvisible))
    refine ⟨b, ?_, same_of_read hpath hcontent (hid ▸ hread) hb⟩
    rw [Launcher.mem_loadApps, Launcher.read_id lib hb, hid]
    exact ⟨y, hy, hb⟩
  · intro b hb
    obtain ⟨y, hy, hread⟩ := (Launcher.mem_loadApps lib d.dirs b).mp hb
    have hall := Launcher.comesTo_subset d.dirs [] y hy.mem
    have hid : y.2.id = b.id := hy.holds
    have hvisible := (halike.holds hy).mp
      ((Launcher.read_isSome lib y).mp (Option.isSome_iff_exists.mpr ⟨b, hread⟩))
    obtain ⟨x, hx⟩ : ∃ x, First (Seen mindOS b.id) (allFiles d.dirs) x :=
      exists_first ⟨y, hall, hid, hvisible⟩
    -- The launcher comes to one file of the id first.
    obtain ⟨z, hz, hpath⟩ := hseen b.id x hx
    obtain rfl := hz.unique hy
    obtain ⟨a, ha⟩ := Option.isSome_iff_exists.mp
      ((Shell.read_isSome lib mindOS b.id x).mp hx.holds)
    have hsame := same_of_read hpath (d.one z hall x hx.mem hpath) (hid.symm ▸ ha) hread
    refine ⟨a, ?_, hsame⟩
    rw [Shell.mem_loadApps, hdesktop, Shell.read_id lib mindOS ha]
    exact ⟨x, hx, ha⟩

end Agree

/-- The shell and the launcher make one index if and only if no file that is not visible
shadows one that is, the launcher comes first to the files that the shell lists, and these say
the same to both. -/
theorem oneIndex_iff (lib : Lib) (d : DataDirs) (env : Option Text) : OneIndex lib d env ↔
    Unshadowed d.dirs (Shell.currentDesktop env) ∧
      (Shell.currentDesktop env = mindOS → SeenFirst d.dirs ∧ FirstsAlike d.dirs) := by
  constructor
  · rintro ⟨hlisted, hagree⟩
    refine ⟨(listed_iff lib d.dirs env).mp hlisted, fun hdesktop => ?_⟩
    exact ⟨seenFirst_of_agree hdesktop (hagree hdesktop),
      firstsAlike_of_agree hdesktop (hagree hdesktop)⟩
  · rintro ⟨hshadow, hfirst⟩
    refine ⟨(listed_iff lib d.dirs env).mpr hshadow, fun hdesktop => ?_⟩
    obtain ⟨hseen, halike⟩ := hfirst hdesktop
    exact agree_of_firsts hdesktop hseen halike

/-- A user's file that hides an application. -/
def userFile : Text := "[Desktop Entry]\nHidden=true".toList

/-- The application's own file. -/
def systemFile : Text := "[Desktop Entry]\nName=A\nExec=a".toList

def userDir : Base where
  path := "/u".toList
  real := 0
  entries := [("a.desktop".toList, .file (some userFile))]

def systemDir : Base where
  path := "/s".toList
  real := 1
  entries := [("a.desktop".toList, .file (some systemFile))]

theorem files_userDir : userDir.files = [⟨"a.desktop".toList, some userFile⟩] :=
  Base.files_of_subdirs rfl

theorem files_systemDir : systemDir.files = [⟨"a.desktop".toList, some systemFile⟩] :=
  Base.files_of_subdirs rfl

def overridden : DataDirs where
  dirs := [userDir, systemDir]
  one := by
    rw [allFiles_cons, allFiles_cons, files_userDir, files_systemDir]
    decide

/-- The shell lists what the user's file hides. -/
theorem hidden_listed :
    ¬ OneIndex { shellParseArgv := fun t => some [t], toLowercase := id } overridden none := by
  intro h
  have hruns : Runs systemFile ∧ ¬ Runs userFile := by
    unfold Runs
    decide
  have hseen : Seen (Shell.currentDesktop none) "a.desktop".toList
      (systemDir, ⟨"a.desktop".toList, some systemFile⟩) :=
    ⟨by decide, systemFile, rfl, by decide, hruns.1⟩
  have hmem : (systemDir, ⟨"a.desktop".toList, some systemFile⟩) ∈ allFiles overridden.dirs := by
    refine mem_allFiles.mpr ⟨List.mem_cons_of_mem userDir List.mem_cons_self, ?_⟩
    rw [files_systemDir]
    exact List.mem_cons_self
  obtain ⟨b, hb, f, hf, -, text, htext, -, hvisible⟩ :=
    (h.listed _).mp ((Shell.lists_iff _ _ _ _).mpr ⟨_, hmem, hseen⟩)
  have hfirst : b = userDir := by
    obtain ⟨-, hb⟩ | ⟨hnone, -⟩ := first_cons.mp hb
    · exact hb
    · exact absurd ⟨_, files_userDir ▸ List.mem_cons_self, by decide⟩ hnone
  rw [hfirst, files_userDir, List.mem_singleton] at hf
  rw [hf] at htext
  exact hruns.2 (Option.some.inj htext ▸ hvisible)

end MindOS.Apps
