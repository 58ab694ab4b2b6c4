import MindOS.Transition
import Mathlib.Data.Fintype.Pi

/-!
# The edits of the layout

A page changes its own copy of the layout and has the host save the whole of it. The host
takes what it is given, sends it to every page and writes it to the file, at once or a little
later; and it reads the file back when the file was written.

A layout is what each of its parts is. To say which of two is older, each copy is stamped
with the number of edits made by then.
-/

namespace MindOS.Shell.Layouts

open Transition

variable {Part V D : Type}

/-- A layout, and how many edits there were when it was made. -/
structure Version (Part V : Type) where
  layout : Part → V
  stamp : Nat

structure Page (Part V : Type) where
  state : Version Part V
  /-- Its calls of `layout.save`, in their order. -/
  saves : List (Version Part V) := []
  /-- The host's `layout` events to it, in their order. -/
  inbox : List (Version Part V) := []

/-- What the program knows of layouts. -/
structure Format (Part V D : Type) where
  /-- What is clamped when the host takes a layout or loads it. -/
  sanitized : (Part → V) → Part → V
  /-- What is filled in when a page takes a layout. -/
  normalizeLayout : (Part → V) → Part → V
  /-- The desktop's own state, which is not to wait for the file. -/
  extra : (Part → V) → D

structure Host (Part V : Type) where
  layout : Version Part V
  /-- What `layout.json` has. -/
  file : Version Part V
  pages : Nat → Option (Page Part V) := fun _ => none
  /-- The timer that writes the file is set. -/
  layoutSave : Bool := false
  /-- The timer that reads the file is set. -/
  layoutReload : Bool := false
  /-- It serves the window of one application. -/
  appMode : Bool := false
  /-- All edits so far: the parts, and what they were set to. -/
  edits : List (Part × V) := []
  count : Nat := 0

inductive Step (Part V : Type) where
  /-- A page opens. -/
  | opens (i : Nat)
  /-- `updateLayout` on a page. -/
  | edit (i : Nat) (changes : List (Part × V))
  /-- The host takes the page's next `layout.save`. -/
  | save (i : Nat)
  /-- The page takes the host's next event. -/
  | deliver (i : Nat)
  /-- The timer writes the file. -/
  | write
  /-- The watch reports a change of the file. -/
  | watch
  /-- The timer reads the file. -/
  | reload

/-- The parts are set in their order. -/
def change [DecidableEq Part] (changes : List (Part × V)) (layout : Part → V) : Part → V :=
  changes.foldl (fun l c => Function.update l c.1 c.2) layout

namespace Host

def setPage (s : Host Part V) (i : Nat) (p : Page Part V) : Host Part V :=
  { s with pages := Function.update s.pages i (some p) }

/-- The host has a new layout, and tells every page. -/
def setLayout (s : Host Part V) (v : Version Part V) : Host Part V :=
  { s with
    layout := v
    pages := fun i => (s.pages i).map fun p => { p with inbox := p.inbox ++ [v] } }

def opens (f : Format Part V D) (s : Host Part V) (i : Nat) : Option (Host Part V) :=
  match s.pages i with
  | none => some (s.setPage i { state := ⟨f.normalizeLayout s.layout.layout, s.layout.stamp⟩ })
  | some _ => none

/-- The page changes a copy of its layout, keeps it and has it saved. -/
def updateLayout [DecidableEq Part] (s : Host Part V) (i : Nat) (changes : List (Part × V)) :
    Option (Host Part V) :=
  (s.pages i).map fun p =>
    let next : Version Part V := ⟨change changes p.state.layout, s.count + 1⟩
    { s.setPage i { p with state := next, saves := p.saves ++ [next] } with
      edits := s.edits ++ changes
      count := s.count + 1 }

/-- The host takes a layout and writes it, now or soon. -/
def layoutSaved [DecidableEq D] (f : Format Part V D) (s : Host Part V) (v : Version Part V) :
    Host Part V :=
  let layout : Version Part V := ⟨f.sanitized v.layout, v.stamp⟩
  let now := decide (f.extra s.layout.layout ≠ f.extra layout.layout) || s.appMode
  let s := s.setLayout layout
  if now then { s with file := layout, layoutSave := false } else { s with layoutSave := true }

def save [DecidableEq D] (f : Format Part V D) (s : Host Part V) (i : Nat) :
    Option (Host Part V) :=
  match s.pages i with
  | some p =>
      match p.saves with
      | v :: rest => some ((s.setPage i { p with saves := rest }).layoutSaved f v)
      | [] => none
  | none => none

def deliver (f : Format Part V D) (s : Host Part V) (i : Nat) : Option (Host Part V) :=
  match s.pages i with
  | some p =>
      match p.inbox with
      | v :: rest =>
          some (s.setPage i
            { p with state := ⟨f.normalizeLayout v.layout, v.stamp⟩, inbox := rest })
      | [] => none
  | none => none

/-- What the file has, if it is not what the host has, is the host's layout. -/
def reload [DecidableEq (Part → V)] (f : Format Part V D) (s : Host Part V) : Host Part V :=
  let s := { s with layoutReload := false }
  if s.layout.layout = f.sanitized s.file.layout then s
  else s.setLayout ⟨f.sanitized s.file.layout, s.file.stamp⟩

def step [DecidableEq Part] [DecidableEq (Part → V)] [DecidableEq D] (f : Format Part V D)
    (s : Host Part V) : Step Part V → Option (Host Part V)
  | .opens i => s.opens f i
  | .edit i changes => s.updateLayout i changes
  | .save i => s.save f i
  | .deliver i => s.deliver f i
  | .write => if s.layoutSave then some { s with file := s.layout, layoutSave := false } else none
  | .watch => some { s with layoutReload := true }
  | .reload => if s.layoutReload then some (s.reload f) else none

/-- The host has loaded the file. -/
def start (f : Format Part V D) (file : Part → V) (appMode : Bool) : Host Part V :=
  { layout := ⟨f.sanitized file, 0⟩, file := ⟨file, 0⟩, appMode := appMode }

/-! ## What is to hold -/

/-- Every edit to a part that no later edit touched is in the layout. -/
def Contains (edits : List (Part × V)) (layout : Part → V) : Prop :=
  ∀ front part value back, edits = front ++ (part, value) :: back →
    (∀ e ∈ back, e.1 ≠ part) → layout part = value

/-- Nothing is pending. -/
structure Quiet (s : Host Part V) : Prop where
  layoutSave : s.layoutSave = false
  layoutReload : s.layoutReload = false
  saves : ∀ i p, s.pages i = some p → p.saves = []
  inbox : ∀ i p, s.pages i = some p → p.inbox = []

/-- With nothing pending no edit is lost. -/
def Kept (s : Host Part V) : Prop :=
  s.Quiet → Contains s.edits s.layout.layout ∧ Contains s.edits s.file.layout

/-- A layout that the host and the pages take as it is. -/
def Clean (f : Format Part V D) (layout : Part → V) : Prop :=
  f.sanitized layout = layout ∧ f.normalizeLayout layout = layout

/-- An edit is made where the last edit is known, and leaves a clean layout; the file is read
back when it is what the host has, or a save is still to come. -/
def InStep [DecidableEq Part] (f : Format Part V D) (s : Host Part V) : Step Part V → Prop
  | .edit i changes =>
      ∀ p ∈ s.pages i, p.state.stamp = s.count ∧ Clean f (change changes p.state.layout)
  | .reload =>
      s.layout.layout = f.sanitized s.file.layout ∨ ∃ i, ∃ p ∈ s.pages i, p.saves ≠ []
  | _ => True

/-! ## What a layout contains -/

theorem Contains.concat [DecidableEq Part] {edits : List (Part × V)} {layout : Part → V}
    (h : Contains edits layout) (c : Part × V) :
    Contains (edits ++ [c]) (Function.update layout c.1 c.2) := by
  intro front part value back heq hback
  obtain rfl | ⟨back, x, rfl⟩ := List.eq_nil_or_concat back
  · obtain ⟨-, hc⟩ := List.append_inj' heq rfl
    rw [List.singleton_inj.mp hc]
    exact Function.update_self ..
  · rw [List.concat_eq_append] at heq hback
    rw [← List.cons_append, ← List.append_assoc] at heq
    obtain ⟨hedits, hc⟩ := List.append_inj' heq rfl
    have hne : part ≠ c.1 := by
      rw [List.singleton_inj.mp hc]
      exact (hback x (List.mem_append_right _ List.mem_cons_self)).symm
    rw [Function.update_of_ne hne]
    exact h front part value back hedits fun e he => hback e (List.mem_append_left _ he)

theorem Contains.change [DecidableEq Part] {edits : List (Part × V)} {layout : Part → V}
    (h : Contains edits layout) (changes : List (Part × V)) :
    Contains (edits ++ changes) (change changes layout) := by
  induction changes generalizing edits layout with
  | nil => rwa [List.append_nil]
  | cons c changes ih =>
      rw [List.append_cons]
      exact ih (h.concat c)

theorem contains_nil (layout : Part → V) : Contains ([] : List (Part × V)) layout := by
  intro front part value back heq
  simp at heq

/-! ## The invariant -/

section Invariant

variable {f : Format Part V D} {s t : Host Part V}

/-- A copy of the layout is as old as its stamp says, and contains every edit if it is of the
last one. -/
structure Sound (f : Format Part V D) (count : Nat) (edits : List (Part × V))
    (v : Version Part V) : Prop where
  stamp : v.stamp ≤ count
  contains : v.stamp = count → Contains edits v.layout
  clean : v.stamp = count → count ≠ 0 → Clean f v.layout

/-- Every copy that there is. -/
structure All (s : Host Part V) (P : Version Part V → Prop) : Prop where
  layout : P s.layout
  file : P s.file
  state : ∀ i p, s.pages i = some p → P p.state
  saves : ∀ i p, s.pages i = some p → ∀ v ∈ p.saves, P v
  inbox : ∀ i p, s.pages i = some p → ∀ v ∈ p.inbox, P v

/-- The last edit is on its way from a page, and nobody else has it. -/
structure Behind (s : Host Part V) (i : Nat) : Prop where
  layout : s.layout.stamp < s.count
  file : s.file.stamp < s.count
  inbox : ∀ j q, s.pages j = some q → ∀ v ∈ q.inbox, v.stamp < s.count
  others : ∀ j q, s.pages j = some q → j ≠ i → q.saves = [] ∧ q.state.stamp < s.count

structure Inv (f : Format Part V D) (s : Host Part V) : Prop where
  sound : s.All (Sound f s.count s.edits)
  zero : s.count = 0 → s.edits = []
  ordered : ∀ i p, s.pages i = some p → (p.saves.map Version.stamp).Pairwise (· < ·)
  last : ∀ i p, s.pages i = some p → ∀ v ∈ p.saves.getLast?, v.stamp = s.count
  behind : ∀ i p, s.pages i = some p → p.saves ≠ [] → s.Behind i
  current : (∀ i p, s.pages i = some p → p.saves = []) → s.layout.stamp = s.count
  file : s.layoutSave = false → s.file.stamp = s.layout.stamp

theorem Inv.kept (h : Inv f s) : s.Kept := by
  intro hquiet
  have hlayout := h.current hquiet.saves
  have hfile := (h.file hquiet.layoutSave).trans hlayout
  exact ⟨h.sound.layout.contains hlayout, h.sound.file.contains hfile⟩

theorem Inv.start (f : Format Part V D) (file : Part → V) (appMode : Bool) :
    Inv f (start f file appMode) where
  sound :=
    { layout := ⟨Nat.le_refl _, fun _ => contains_nil _, fun _ h => absurd rfl h⟩
      file := ⟨Nat.le_refl _, fun _ => contains_nil _, fun _ h => absurd rfl h⟩
      state := fun _ _ hp => nomatch hp
      saves := fun _ _ hp => nomatch hp
      inbox := fun _ _ hp => nomatch hp }
  zero _ := rfl
  ordered _ _ hp := nomatch hp
  last _ _ hp := nomatch hp
  behind _ _ hp := nomatch hp
  current _ := rfl
  file _ := rfl

theorem Sound.cleaned {count : Nat} {edits : List (Part × V)} {v : Version Part V}
    {clean : (Part → V) → Part → V} (h : Sound f count edits v)
    (hclean : ∀ layout, Clean f layout → clean layout = layout) (hzero : count = 0 → edits = []) :
    Sound f count edits ⟨clean v.layout, v.stamp⟩ where
  stamp := h.stamp
  contains hstamp := by
    by_cases hcount : count = 0
    · rw [hzero hcount]
      exact contains_nil _
    · show Contains edits (clean v.layout)
      rw [hclean _ (h.clean hstamp hcount)]
      exact h.contains hstamp
  clean hstamp hcount := by
    show Clean f (clean v.layout)
    rw [hclean _ (h.clean hstamp hcount)]
    exact h.clean hstamp hcount

theorem clean_sanitized (layout : Part → V) (h : Clean f layout) : f.sanitized layout = layout :=
  h.1

theorem clean_normalizeLayout (layout : Part → V) (h : Clean f layout) :
    f.normalizeLayout layout = layout := h.2

/-! ### The pages -/

theorem setPage_pages {i j : Nat} {p q : Page Part V} (h : (s.setPage i p).pages j = some q) :
    j = i ∧ q = p ∨ j ≠ i ∧ s.pages j = some q := by
  replace h : Function.update s.pages i (some p) j = some q := h
  by_cases hj : j = i
  · subst hj
    rw [Function.update_self] at h
    exact .inl ⟨rfl, (Option.some.inj h).symm⟩
  · rw [Function.update_of_ne hj] at h
    exact .inr ⟨hj, h⟩

theorem setLayout_pages {v : Version Part V} {j : Nat} {q : Page Part V}
    (h : (s.setLayout v).pages j = some q) :
    ∃ p, s.pages j = some p ∧ q = { p with inbox := p.inbox ++ [v] } := by
  obtain ⟨p, hp, hq⟩ := Option.map_eq_some_iff.mp h
  exact ⟨p, hp, hq.symm⟩

theorem All.setPage {P : Version Part V → Prop} {i : Nat} {p : Page Part V} (h : s.All P)
    (hstate : P p.state) (hsaves : ∀ v ∈ p.saves, P v) (hinbox : ∀ v ∈ p.inbox, P v) :
    (s.setPage i p).All P where
  layout := h.layout
  file := h.file
  state j q hq := by
    obtain ⟨-, rfl⟩ | ⟨-, hq⟩ := setPage_pages hq
    · exact hstate
    · exact h.state j q hq
  saves j q hq := by
    obtain ⟨-, rfl⟩ | ⟨-, hq⟩ := setPage_pages hq
    · exact hsaves
    · exact h.saves j q hq
  inbox j q hq := by
    obtain ⟨-, rfl⟩ | ⟨-, hq⟩ := setPage_pages hq
    · exact hinbox
    · exact h.inbox j q hq

theorem All.setLayout {P : Version Part V → Prop} {v : Version Part V} (h : s.All P) (hv : P v) :
    (s.setLayout v).All P where
  layout := hv
  file := h.file
  state j q hq := by
    obtain ⟨p, hp, rfl⟩ := setLayout_pages hq
    exact h.state j p hp
  saves j q hq := by
    obtain ⟨p, hp, rfl⟩ := setLayout_pages hq
    exact h.saves j p hp
  inbox j q hq w hw := by
    obtain ⟨p, hp, rfl⟩ := setLayout_pages hq
    obtain hold | hnew := List.mem_append.mp hw
    · exact h.inbox j p hp w hold
    · rw [List.mem_singleton.mp hnew]
      exact hv

theorem exists_setPage {i j : Nat} {p q : Page Part V} (h : s.pages j = some q) (hj : j ≠ i) :
    (s.setPage i p).pages j = some q := by
  show Function.update s.pages i (some p) j = some q
  rwa [Function.update_of_ne hj]

theorem setPage_self (s : Host Part V) (i : Nat) (p : Page Part V) :
    (s.setPage i p).pages i = some p := by
  show Function.update s.pages i (some p) i = some p
  rw [Function.update_self]

theorem exists_setLayout {v : Version Part V} {j : Nat} {q : Page Part V}
    (h : s.pages j = some q) :
    (s.setLayout v).pages j = some { q with inbox := q.inbox ++ [v] } := by
  show (s.pages j).map _ = _
  rw [h]
  rfl

/-! ### The steps -/

theorem Inv.setPage {i : Nat} {p : Page Part V} (h : Inv f s)
    (hsaves : s.pages i = none ∧ p.saves = [] ∨ ∃ q, s.pages i = some q ∧ p.saves = q.saves)
    (hstate : Sound f s.count s.edits p.state) (hinbox : ∀ v ∈ p.inbox, Sound f s.count s.edits v)
    (hbehind : ∀ j, s.Behind j →
      p.state.stamp < s.count ∧ ∀ v ∈ p.inbox, v.stamp < s.count) :
    Inv f (s.setPage i p) := by
  have hold : p.saves = [] ∨ ∃ q, s.pages i = some q ∧ p.saves = q.saves :=
    hsaves.imp_left And.right
  constructor
  · refine h.sound.setPage hstate (fun v hv => ?_) hinbox
    obtain hnil | ⟨q, hq, heq⟩ := hold
    · rw [hnil] at hv
      cases hv
    · exact h.sound.saves i q hq v (heq ▸ hv)
  · exact h.zero
  · intro j q hq
    obtain ⟨rfl, rfl⟩ | ⟨-, hq⟩ := setPage_pages hq
    · obtain hnil | ⟨r, hr, heq⟩ := hold
      · rw [hnil]
        exact List.Pairwise.nil
      · rw [heq]
        exact h.ordered j r hr
    · exact h.ordered j q hq
  · intro j q hq v hv
    obtain ⟨rfl, rfl⟩ | ⟨-, hq⟩ := setPage_pages hq
    · obtain hnil | ⟨r, hr, heq⟩ := hold
      · rw [hnil] at hv
        cases hv
      · exact h.last j r hr v (heq ▸ hv)
    · exact h.last j q hq v hv
  · intro j q hq hne
    have hj : s.Behind j := by
      obtain ⟨rfl, rfl⟩ | ⟨-, hq⟩ := setPage_pages hq
      · obtain hnil | ⟨r, hr, heq⟩ := hold
        · exact absurd hnil hne
        · exact h.behind j r hr (heq ▸ hne)
      · exact h.behind j q hq hne
    obtain ⟨hstamp, hstamps⟩ := hbehind j hj
    refine ⟨hj.layout, hj.file, fun k r hr => ?_, fun k r hr hk => ?_⟩
    · obtain ⟨-, rfl⟩ | ⟨-, hr⟩ := setPage_pages hr
      · exact hstamps
      · exact hj.inbox k r hr
    · obtain ⟨rfl, rfl⟩ | ⟨-, hr⟩ := setPage_pages hr
      · refine ⟨?_, hstamp⟩
        obtain hnil | ⟨q', hq', heq⟩ := hold
        · exact hnil
        · rw [heq]
          exact (hj.others k q' hq' hk).1
      · exact hj.others k r hr hk
  · intro hnone
    refine h.current fun j q hq => ?_
    by_cases hj : j = i
    · subst hj
      have hp := hnone j p (setPage_self s j p)
      obtain ⟨hfree, -⟩ | ⟨r, hr, heq⟩ := hsaves
      · exact nomatch hfree.symm.trans hq
      · obtain rfl := Option.some.inj (hq.symm.trans hr)
        exact heq.symm.trans hp
    · exact hnone j q (exists_setPage hq hj)
  · exact h.file

theorem Inv.opens {i : Nat} (h : Inv f s) (ht : s.opens f i = some t) : Inv f t := by
  unfold Host.opens at ht
  split at ht
  case h_1 hnone =>
    obtain rfl := Option.some.inj ht
    refine h.setPage (.inl ⟨hnone, rfl⟩) ?_ (fun v hv => nomatch hv) fun j hj => ⟨hj.layout, nofun⟩
    exact h.sound.layout.cleaned clean_normalizeLayout h.zero
  case h_2 => cases ht

theorem Inv.deliver {i : Nat} (h : Inv f s) (ht : s.deliver f i = some t) : Inv f t := by
  unfold Host.deliver at ht
  split at ht
  case h_1 p hp =>
    split at ht
    case h_1 v rest hinbox =>
      obtain rfl := Option.some.inj ht
      have hmem : ∀ w ∈ rest, w ∈ p.inbox := fun w hw => hinbox ▸ List.mem_cons_of_mem _ hw
      have hv : v ∈ p.inbox := hinbox ▸ List.mem_cons_self
      refine h.setPage (.inr ⟨p, hp, rfl⟩) ?_ (fun w hw => ?_) fun j hj => ⟨?_, fun w hw => ?_⟩
      · exact (h.sound.inbox i p hp v hv).cleaned clean_normalizeLayout h.zero
      · exact h.sound.inbox i p hp w (hmem w hw)
      · exact hj.inbox i p hp v hv
      · exact hj.inbox i p hp w (hmem w hw)
    case h_2 => cases ht
  case h_2 => cases ht

theorem Inv.no_other_saves {i : Nat} {p : Page Part V} (h : Inv f s) (hp : s.pages i = some p)
    (hstamp : p.state.stamp = s.count) {j : Nat} {q : Page Part V} (hq : s.pages j = some q)
    (hj : j ≠ i) : q.saves = [] := by
  by_contra hne
  have hlt := ((h.behind j q hq hne).others i p hp (Ne.symm hj)).2
  exact absurd hstamp hlt.ne

theorem Sound.of_older {count : Nat} {edits edits' : List (Part × V)} {v : Version Part V}
    (h : Sound f count edits v) : Sound f (count + 1) edits' v where
  stamp := h.stamp.trans (Nat.le_succ _)
  contains hstamp := absurd (hstamp ▸ h.stamp) (Nat.not_succ_le_self _)
  clean hstamp := absurd (hstamp ▸ h.stamp) (Nat.not_succ_le_self _)

theorem Inv.edit [DecidableEq Part] {i : Nat} {changes : List (Part × V)} (h : Inv f s)
    (ht : s.updateLayout i changes = some t) (hstep : InStep f s (.edit i changes)) :
    Inv f t := by
  obtain ⟨p, hp, rfl⟩ := Option.map_eq_some_iff.mp ht
  obtain ⟨hstamp, hclean⟩ := hstep p hp
  let next : Version Part V := ⟨change changes p.state.layout, s.count + 1⟩
  have hnext : Sound f (s.count + 1) (s.edits ++ changes) next :=
    ⟨Nat.le_refl _, fun _ => ((h.sound.state i p hp).contains hstamp).change changes,
      fun _ _ => hclean⟩
  have hold : s.All (Sound f (s.count + 1) (s.edits ++ changes)) :=
    ⟨h.sound.layout.of_older, h.sound.file.of_older,
      fun j q hq => (h.sound.state j q hq).of_older,
      fun j q hq v hv => (h.sound.saves j q hq v hv).of_older,
      fun j q hq v hv => (h.sound.inbox j q hq v hv).of_older⟩
  have hlt : ∀ {n : Nat}, n ≤ s.count → n < s.count + 1 := Nat.lt_succ_of_le
  have hsaves : ∀ v ∈ p.saves ++ [next], Sound f (s.count + 1) (s.edits ++ changes) v := by
    intro v hv
    obtain hv | hv := List.mem_append.mp hv
    · exact hold.saves i p hp v hv
    · rw [List.mem_singleton.mp hv]
      exact hnext
  constructor
  · have hpage := hold.setPage (i := i)
      (p := { p with state := next, saves := p.saves ++ [next] }) hnext hsaves (hold.inbox i p hp)
    exact ⟨hpage.layout, hpage.file, hpage.state, hpage.saves, hpage.inbox⟩
  · exact fun hzero => nomatch hzero
  · intro j q hq
    obtain ⟨rfl, rfl⟩ | ⟨-, hq⟩ := setPage_pages hq
    · rw [List.map_append, List.pairwise_append]
      refine ⟨h.ordered j p hp, List.pairwise_singleton _ _, fun a ha b hb => ?_⟩
      obtain ⟨v, hv, rfl⟩ := List.mem_map.mp ha
      rw [List.mem_singleton.mp hb]
      exact hlt (h.sound.saves j p hp v hv).stamp
    · exact h.ordered j q hq
  · intro j q hq v hv
    obtain ⟨rfl, rfl⟩ | ⟨hj, hq⟩ := setPage_pages hq
    · rw [List.getLast?_concat] at hv
      rw [← Option.some.inj hv]
    · rw [h.no_other_saves hp hstamp hq hj] at hv
      cases hv
  · intro j q hq hne
    obtain ⟨rfl, rfl⟩ | ⟨hj, hq⟩ := setPage_pages hq
    · refine ⟨hlt h.sound.layout.stamp, hlt h.sound.file.stamp, fun k r hr v hv => ?_,
        fun k r hr hk => ?_⟩
      · obtain ⟨rfl, rfl⟩ | ⟨-, hr⟩ := setPage_pages hr
        · exact hlt (h.sound.inbox k p hp v hv).stamp
        · exact hlt (h.sound.inbox k r hr v hv).stamp
      · obtain ⟨rfl, -⟩ | ⟨-, hr⟩ := setPage_pages hr
        · exact absurd rfl hk
        · exact ⟨h.no_other_saves hp hstamp hr hk, hlt (h.sound.state k r hr).stamp⟩
    · exact absurd (h.no_other_saves hp hstamp hq hj) hne
  · intro hnone
    have hempty := hnone i _ (setPage_self s i _)
    simp at hempty
  · exact h.file

theorem layoutSaved_eq [DecidableEq D] (f : Format Part V D) (s : Host Part V)
    (v : Version Part V) :
    ∃ file layoutSave, s.layoutSaved f v =
      { s.setLayout ⟨f.sanitized v.layout, v.stamp⟩ with
        file := file
        layoutSave := layoutSave } ∧
      (file = ⟨f.sanitized v.layout, v.stamp⟩ ∨ file = s.file ∧ layoutSave = true) := by
  unfold layoutSaved
  by_cases hnow : (decide (f.extra s.layout.layout ≠ f.extra (f.sanitized v.layout)) ||
      s.appMode) = true
  · exact ⟨_, false, if_pos hnow, .inl rfl⟩
  · exact ⟨s.file, true, if_neg hnow, .inr ⟨rfl, rfl⟩⟩

theorem Behind.setLayout {i : Nat} {v : Version Part V} (h : s.Behind i)
    (hv : v.stamp < s.count) : (s.setLayout v).Behind i where
  layout := hv
  file := h.file
  inbox j q hq w hw := by
    obtain ⟨p, hp, rfl⟩ := setLayout_pages hq
    obtain hold | hnew := List.mem_append.mp hw
    · exact h.inbox j p hp w hold
    · rw [List.mem_singleton.mp hnew]
      exact hv
  others j q hq hj := by
    obtain ⟨p, hp, rfl⟩ := setLayout_pages hq
    exact h.others j p hp hj

theorem Behind.setPage {i : Nat} {p : Page Part V} (h : s.Behind i) (hp : s.pages i = some p)
    (rest : List (Version Part V)) : (s.setPage i { p with saves := rest }).Behind i where
  layout := h.layout
  file := h.file
  inbox j q hq := by
    obtain ⟨-, rfl⟩ | ⟨-, hq⟩ := setPage_pages hq
    · exact h.inbox i p hp
    · exact h.inbox j q hq
  others j q hq hj := by
    obtain ⟨heq, -⟩ | ⟨-, hq⟩ := setPage_pages hq
    · exact absurd heq hj
    · exact h.others j q hq hj

theorem Inv.older_of_more {i : Nat} {p : Page Part V} {v : Version Part V}
    {rest : List (Version Part V)} (h : Inv f s) (hp : s.pages i = some p)
    (hsaves : p.saves = v :: rest) (hmore : rest ≠ []) : v.stamp < s.count := by
  have hordered := h.ordered i p hp
  rw [hsaves, List.map_cons, List.pairwise_cons] at hordered
  have hlast := h.last i p hp
  rw [hsaves, List.getLast?_cons, List.getLast?_eq_some_getLast hmore] at hlast
  rw [← hlast _ rfl]
  exact hordered.1 _ (List.mem_map_of_mem (List.getLast_mem hmore))

theorem Inv.save [DecidableEq D] {i : Nat} (h : Inv f s) (ht : s.save f i = some t) :
    Inv f t := by
  unfold Host.save at ht
  split at ht
  case h_1 p hp =>
    split at ht
    case h_1 v rest hsaves =>
      obtain rfl := Option.some.inj ht
      have hne : p.saves ≠ [] := by
        rw [hsaves]
        exact List.cons_ne_nil v rest
      have hbehind := h.behind i p hp hne
      have hv := h.sound.saves i p hp v (hsaves ▸ List.mem_cons_self)
      have hrest : ∀ w ∈ rest, w ∈ p.saves := fun w hw => hsaves ▸ List.mem_cons_of_mem _ hw
      have hv' := hv.cleaned clean_sanitized h.zero
      have hordered := h.ordered i p hp
      rw [hsaves, List.map_cons, List.pairwise_cons] at hordered
      have hlast := h.last i p hp
      have hpages : ∀ j q, (s.setPage i { p with saves := rest }).pages j = some q →
          q.saves ≠ [] → j = i ∧ rest ≠ [] := by
        intro j q hq hmore
        obtain ⟨rfl, rfl⟩ | ⟨hj, hq⟩ := setPage_pages hq
        · exact ⟨rfl, hmore⟩
        · exact absurd (hbehind.others j q hq hj).1 hmore
      have hall := (h.sound.setPage (i := i) (p := { p with saves := rest })
        (h.sound.state i p hp) (fun w hw => h.sound.saves i p hp w (hrest w hw))
        (h.sound.inbox i p hp)).setLayout hv'
      obtain ⟨file, layoutSave, heq, hfile⟩ :=
        layoutSaved_eq f (s.setPage i { p with saves := rest }) v
      rw [heq]
      constructor
      · refine ⟨hall.layout, ?_, hall.state, hall.saves, hall.inbox⟩
        obtain rfl | ⟨rfl, -⟩ := hfile
        · exact hv'
        · exact h.sound.file
      · exact h.zero
      · intro j q hq
        obtain ⟨r, hr, rfl⟩ := setLayout_pages hq
        obtain ⟨rfl, rfl⟩ | ⟨-, hr⟩ := setPage_pages hr
        · exact hordered.2
        · exact h.ordered j r hr
      · intro j q hq w hw
        obtain ⟨r, hr, rfl⟩ := setLayout_pages hq
        obtain ⟨rfl, rfl⟩ | ⟨-, hr⟩ := setPage_pages hr
        · refine hlast w ?_
          have hw : rest.getLast? = some w := hw
          rw [hsaves, List.getLast?_cons, hw]
          rfl
        · exact h.last j r hr w hw
      · intro j q hq hmore
        obtain ⟨r, hr, rfl⟩ := setLayout_pages hq
        obtain ⟨rfl, hmore⟩ := hpages j r hr hmore
        have holder := h.older_of_more hp hsaves hmore
        have hset := (hbehind.setPage hp rest).setLayout
          (v := ⟨f.sanitized v.layout, v.stamp⟩) holder
        refine ⟨hset.layout, ?_, hset.inbox, hset.others⟩
        obtain rfl | ⟨rfl, -⟩ := hfile
        · exact holder
        · exact hbehind.file
      · intro hnone
        have hnil : rest = [] :=
          hnone i _ (exists_setLayout (setPage_self s i { p with saves := rest }))
        refine hlast v ?_
        rw [hsaves, hnil]
        rfl
      · intro hsaved
        obtain rfl | ⟨-, hlater⟩ := hfile
        · rfl
        · exact nomatch hlater.symm.trans hsaved
    case h_2 => cases ht
  case h_2 => cases ht

theorem Inv.write (h : Inv f s) : Inv f { s with file := s.layout, layoutSave := false } where
  sound := ⟨h.sound.layout, h.sound.layout, h.sound.state, h.sound.saves, h.sound.inbox⟩
  zero := h.zero
  ordered := h.ordered
  last := h.last
  behind i p hp hne :=
    have hbehind := h.behind i p hp hne
    ⟨hbehind.layout, hbehind.layout, hbehind.inbox, hbehind.others⟩
  current := h.current
  file _ := rfl

theorem Inv.timer (h : Inv f s) (layoutReload : Bool) :
    Inv f { s with layoutReload := layoutReload } where
  sound := ⟨h.sound.layout, h.sound.file, h.sound.state, h.sound.saves, h.sound.inbox⟩
  zero := h.zero
  ordered := h.ordered
  last := h.last
  behind i p hp hne :=
    have hbehind := h.behind i p hp hne
    ⟨hbehind.layout, hbehind.file, hbehind.inbox, hbehind.others⟩
  current := h.current
  file := h.file

theorem Inv.readBack {i : Nat} {p : Page Part V} (h : Inv f s) (hp : s.pages i = some p)
    (hne : p.saves ≠ []) : Inv f (s.setLayout ⟨f.sanitized s.file.layout, s.file.stamp⟩) where
  sound := h.sound.setLayout (h.sound.file.cleaned clean_sanitized h.zero)
  zero := h.zero
  ordered j q hq := by
    obtain ⟨r, hr, rfl⟩ := setLayout_pages hq
    exact h.ordered j r hr
  last j q hq := by
    obtain ⟨r, hr, rfl⟩ := setLayout_pages hq
    exact h.last j r hr
  behind j q hq hmore := by
    obtain ⟨r, hr, rfl⟩ := setLayout_pages hq
    have hbehind := h.behind j r hr hmore
    exact hbehind.setLayout hbehind.file
  current hnone := absurd (hnone i _ (exists_setLayout hp)) hne
  file _ := rfl

theorem Inv.reload [DecidableEq Part] [DecidableEq (Part → V)] (h : Inv f s)
    (hstep : InStep f s .reload) : Inv f (s.reload f) := by
  unfold Host.reload
  by_cases hsame : s.layout.layout = f.sanitized s.file.layout
  · simp only [if_pos hsame]
    exact h.timer false
  · obtain ⟨i, p, hp, hne⟩ := hstep.resolve_left hsame
    simp only [if_neg hsame]
    exact (h.timer false).readBack hp hne

section Run

variable [DecidableEq Part] [DecidableEq (Part → V)] [DecidableEq D]

theorem Inv.step {e : Step Part V} (h : Inv f s) (ht : step f s e = some t)
    (hstep : InStep f s e) : Inv f t := by
  cases e with
  | opens i => exact h.opens ht
  | edit i changes => exact h.edit ht hstep
  | save i => exact h.save ht
  | deliver i => exact h.deliver ht
  | write =>
      obtain ⟨-, ht⟩ := Option.ite_none_right_eq_some.mp ht
      exact Option.some.inj ht ▸ h.write
  | watch => exact Option.some.inj ht ▸ h.timer true
  | reload =>
      obtain ⟨-, ht⟩ := Option.ite_none_right_eq_some.mp ht
      exact Option.some.inj ht ▸ h.reload hstep

/-- In a run that is in step no edit is lost. -/
theorem kept_along (f : Format Part V D) (file : Part → V) (appMode : Bool)
    (steps : List (Step Part V))
    (h : Along (step f) (fun s e _ => InStep f s e) (start f file appMode) steps) :
    Along (step f) (fun _ _ t => t.Kept) (start f file appMode) steps :=
  h.imp (Inv f) (fun _ _ _ hs ht hstep => hs.step ht hstep)
    (fun _ _ _ hs ht hstep => (hs.step ht hstep).kept) (Inv.start f file appMode)

end Run

end Invariant

/-- Layouts of two parts, of which none is the desktop's own, that are all clean. -/
def twoParts : Format Bool Nat Unit := ⟨id, id, fun _ => ()⟩

/-- Two parts are edited on two pages, the second when the first is known. -/
theorem kept_along_in_turn :
    Along (step twoParts) (fun _ _ t => t.Kept) (start twoParts (fun _ => 0) false)
      [.opens 0, .opens 1, .edit 0 [(true, 1)], .save 0, .deliver 1, .edit 1 [(false, 1)],
        .save 1, .write] := by
  refine kept_along twoParts (fun _ => 0) false _ ?_
  refine .cons rfl trivial (.cons rfl trivial (.cons rfl ?_ (.cons rfl trivial
    (.cons rfl trivial (.cons rfl ?_ (.cons rfl trivial (.cons rfl trivial trivial)))))))
  · rintro _ ⟨⟩
    exact ⟨rfl, rfl, rfl⟩
  · rintro _ ⟨⟩
    exact ⟨rfl, rfl, rfl⟩

/-- Two parts are edited on two pages at once, and the page whose save comes second has not
heard of the other's edit. -/
theorem first_edit_lost :
    ¬ ∀ (f : Format Bool Nat Unit) (file : Bool → Nat) (appMode : Bool)
      (steps : List (Step Bool Nat)),
      Along (step f) (fun _ _ t => t.Kept) (start f file appMode) steps := by
  intro hall
  have hrun := hall twoParts (fun _ => 0) false [.opens 0, .opens 1, .edit 0 [(true, 1)],
    .edit 1 [(false, 1)], .save 0, .save 1, .deliver 0, .deliver 0, .deliver 1, .deliver 1, .write]
  have hstart := (Inv.start twoParts (fun _ => 0) false).kept
  have hend := hrun.exec (R := Kept) (fun _ _ _ h => h) hstart rfl
  -- all pages but the first two are still closed, and those have nothing to say or to hear
  have hquiet := hend ⟨rfl, rfl, ?_, ?_⟩
  · exact nomatch hquiet.1 [] true 1 [(false, 1)] rfl (by simp)
  · rintro (_ | _ | i) p hp
    · exact Option.some.inj hp ▸ rfl
    · exact Option.some.inj hp ▸ rfl
    · cases hp
  · rintro (_ | _ | i) p hp
    · exact Option.some.inj hp ▸ rfl
    · exact Option.some.inj hp ▸ rfl
    · cases hp

end Host

end MindOS.Shell.Layouts
