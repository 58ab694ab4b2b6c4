import MindOS.Transition
import Mathlib.Data.List.Sort

/-!
# The lock windows of the shell

While the screensaver is up or the session is locked there is a lock window on each
monitor. Which of them carries the password card is settled when the window is made; the
keyboard follows the first monitor at each sync.
-/

namespace MindOS.Shell.Lock

open Transition

structure Monitor where
  /-- Which `gdk::Monitor` it is. -/
  object : Nat
  valid : Bool := true
  connector : Option String
  x : Int
  y : Int

structure LockWindow where
  output : String
  monitor : Nat
  /-- The page's argument: the page has the password card. -/
  primary : Bool
  keyboard : Bool
  deriving DecidableEq

/-- The compositor's `idle` event. -/
structure Idle where
  locked : Option Bool := none
  stage : Option String := none
  /-- All else the event says. -/
  rest : String := ""
  deriving DecidableEq

def Idle.isLocked (i : Idle) : Bool := i.locked.getD false

/-- Lock windows are wanted: the screensaver is up, or the session is locked. -/
def Idle.wanted (i : Idle) : Bool := i.isLocked || i.stage.getD "active" != "active"

/-! ## The monitors and their names -/

/-- Top-left first. -/
def Monitor.before (a b : Monitor) : Prop := a.y < b.y ∨ a.y = b.y ∧ a.x ≤ b.x

instance : DecidableRel Monitor.before := fun _ _ => instDecidableOr

/-- Every valid monitor, top-left first. -/
def monitors (present : List Monitor) : List Monitor :=
  (present.filter (·.valid)).insertionSort Monitor.before

def monitorName (m : Monitor) (index : Nat) : String :=
  (m.connector.filter (· ≠ "")).getD ("output-" ++ toString index)

/-- The monitors with their names. -/
def named (present : List Monitor) : List (String × Nat) :=
  (monitors present).zipIdx.map fun p => (monitorName p.1 p.2, p.1.object)

/-! ## The windows -/

/-- The window of an output: the one there is, or a new one on the monitor. -/
def placed (name : String) (object : Nat) (primary keyboard : Bool) :
    Option LockWindow → LockWindow
  | some w => { w with keyboard := keyboard }
  | none => { output := name, monitor := object, primary := primary, keyboard := keyboard }

def findWindow (ws : List LockWindow) (name : String) : Option LockWindow :=
  ws.find? (·.output = name)

/-- The first window found by the name is given the keyboard or loses it; if none is found,
one is made. -/
def place (name : String) (object : Nat) (primary keyboard : Bool) :
    List LockWindow → List LockWindow
  | [] => [placed name object primary keyboard none]
  | w :: ws =>
      if w.output = name then placed name object primary keyboard (some w) :: ws
      else w :: place name object primary keyboard ws

/-- The loop over the monitors. -/
def syncLoop (locked : Bool) : Bool → List (String × Nat) → List LockWindow → List LockWindow
  | _, [], ws => ws
  | first, (name, object) :: rest, ws =>
      syncLoop locked false rest (place name object first (locked && first) ws)

/-- The windows that are on the monitor they are named after. -/
def dropGone (names : List (String × Nat)) (ws : List LockWindow) : List LockWindow :=
  ws.filter fun w => names.contains (w.output, w.monitor)

def syncLockWindows (names : List (String × Nat)) (idle : Idle) (ws : List LockWindow) :
    List LockWindow :=
  if idle.wanted then dropGone names (syncLoop idle.isLocked true names ws) else []

/-- The lock windows among what `sync_windows` makes and closes. -/
def syncWindows (names : List (String × Nat)) (idle : Idle) (ws : List LockWindow) :
    List LockWindow :=
  syncLockWindows names idle (dropGone names ws)

/-! ## What the loop leaves under each name -/

section Loop

variable {ws : List LockWindow} {name other : String} {object : Nat} {primary keyboard : Bool}
variable {locked first : Bool} {names rest : List (String × Nat)}

@[simp] theorem placed_keyboard (found : Option LockWindow) :
    (placed name object primary keyboard found).keyboard = keyboard := by
  cases found <;> rfl

theorem findWindow_output {w : LockWindow} (h : findWindow ws name = some w) :
    w.output = name := by
  simpa using List.find?_some h

theorem findWindow_cons (w : LockWindow) :
    findWindow (w :: ws) name = if w.output = name then some w else findWindow ws name := by
  by_cases h : w.output = name <;> simp [findWindow, h]

theorem findWindow_place :
    findWindow (place name object primary keyboard ws) other =
      if other = name then some (placed name object primary keyboard (findWindow ws name))
      else findWindow ws other := by
  induction ws with
  | nil =>
      rw [place, findWindow_cons]
      by_cases h : other = name
      · simp [h, placed, findWindow]
      · simp [h, Ne.symm h, placed, findWindow]
  | cons w ws ih =>
      rw [place]
      by_cases hw : w.output = name
      · rw [if_pos hw, findWindow_cons, findWindow_cons, findWindow_cons, if_pos hw]
        by_cases h : other = name
        · simp [h, placed, hw]
        · have hne : w.output ≠ other := fun he => h (he.symm.trans hw)
          simp [h, placed, hne]
      · rw [if_neg hw, findWindow_cons, findWindow_cons, findWindow_cons, if_neg hw, ih]
        by_cases h : other = name
        · have hne : w.output ≠ other := fun he => hw (he.trans h)
          simp [h, hw]
        · simp [h]

theorem place_outputs :
    (place name object primary keyboard ws).map LockWindow.output =
      if name ∈ ws.map LockWindow.output then ws.map LockWindow.output
      else ws.map LockWindow.output ++ [name] := by
  induction ws with
  | nil => simp [place, placed]
  | cons w ws ih =>
      rw [place]
      by_cases hw : w.output = name
      · simp [hw, placed]
      · rw [if_neg hw, List.map_cons, ih]
        have hne : name ≠ w.output := Ne.symm hw
        by_cases hmem : name ∈ ws.map LockWindow.output
        · simp only [List.map_cons, List.mem_cons, hmem, or_true, if_true]
        · simp only [List.map_cons, List.mem_cons, hne, hmem, or_self, if_false,
            List.cons_append]

theorem place_nodup (h : (ws.map LockWindow.output).Nodup) :
    ((place name object primary keyboard ws).map LockWindow.output).Nodup := by
  rw [place_outputs]
  by_cases hmem : name ∈ ws.map LockWindow.output
  · rwa [if_pos hmem]
  · rw [if_neg hmem]
    exact List.Nodup.append h (List.nodup_singleton name)
      (List.disjoint_singleton.mpr hmem)

theorem syncLoop_nodup (locked first : Bool) (names : List (String × Nat))
    (h : (ws.map LockWindow.output).Nodup) :
    ((syncLoop locked first names ws).map LockWindow.output).Nodup := by
  induction names generalizing ws first with
  | nil => exact h
  | cons p rest ih => exact ih false (place_nodup h)

theorem findWindow_syncLoop_of_notMem (h : other ∉ names.map Prod.fst) :
    findWindow (syncLoop locked first names ws) other = findWindow ws other := by
  induction names generalizing ws first with
  | nil => rfl
  | cons p rest ih =>
      rw [List.map_cons, List.mem_cons, not_or] at h
      rw [syncLoop, ih h.2, findWindow_place, if_neg h.1]

theorem findWindow_syncLoop_head (locked first : Bool) (ws : List LockWindow) (object : Nat)
    (h : name ∉ rest.map Prod.fst) :
    findWindow (syncLoop locked first ((name, object) :: rest) ws) name =
      some (placed name object first (locked && first) (findWindow ws name)) := by
  rw [syncLoop, findWindow_syncLoop_of_notMem h, findWindow_place, if_pos rfl]

theorem findWindow_syncLoop_tail (locked : Bool) (ws : List LockWindow)
    (hnodup : (names.map Prod.fst).Nodup) (hmem : (name, object) ∈ names) :
    findWindow (syncLoop locked false names ws) name =
      some (placed name object false false (findWindow ws name)) := by
  induction names generalizing ws with
  | nil => exact absurd hmem List.not_mem_nil
  | cons p rest ih =>
      obtain ⟨hp, hrest⟩ := List.nodup_cons.mp hnodup
      obtain rfl | hmem := List.mem_cons.mp hmem
      · rw [findWindow_syncLoop_head locked false ws object hp, Bool.and_false]
      · have hne : name ≠ p.1 := fun he => hp (he ▸ List.mem_map_of_mem hmem)
        rw [syncLoop, ih _ hrest hmem, findWindow_place, if_neg hne]

theorem mem_iff_findWindow {w : LockWindow} (h : (ws.map LockWindow.output).Nodup) :
    w ∈ ws ↔ findWindow ws w.output = some w := by
  constructor
  · intro hmem
    obtain ⟨v, hv⟩ : ∃ v, findWindow ws w.output = some v := by
      rw [← Option.isSome_iff_exists, findWindow, List.find?_isSome]
      exact ⟨w, hmem, by simp⟩
    have hvw := List.inj_on_of_nodup_map h (List.mem_of_find?_eq_some hv) hmem
      (findWindow_output hv)
    rw [hv, hvw]
  · exact List.mem_of_find?_eq_some

end Loop

/-- Each monitor has one window, and the one window with the keyboard has the card. -/
structure Usable (objects : List Nat) (ws : List LockWindow) : Prop where
  nodup : ws.Nodup
  covered : ∀ o ∈ objects, ∃! w, w ∈ ws ∧ w.monitor = o
  card : ∃ w ∈ ws, w.keyboard = true ∧ w.primary = true ∧ ∀ v ∈ ws, v.keyboard = true → v = w

/-- No window has the name of a monitor that it is not on. -/
def NamesKept (names : List (String × Nat)) (ws : List LockWindow) : Prop :=
  ∀ w ∈ ws, ∀ p ∈ names, w.output = p.1 → w.monitor = p.2

/-- The window of the first monitor, if it has one, has the card. -/
def CardStands (names : List (String × Nat)) (ws : List LockWindow) : Prop :=
  ∀ p ∈ names.head?, ∀ w ∈ ws, (w.output, w.monitor) = p → w.primary = true

/-! ## A sync of a locked session -/

section Sync

variable {names : List (String × Nat)} {ws : List LockWindow}

theorem mem_dropGone {w : LockWindow} :
    w ∈ dropGone names ws ↔ w ∈ ws ∧ (w.output, w.monitor) ∈ names := by
  simp [dropGone]

theorem dropGone_nodup (names : List (String × Nat)) (h : (ws.map LockWindow.output).Nodup) :
    ((dropGone names ws).map LockWindow.output).Nodup :=
  h.sublist (List.filter_sublist.map _)

theorem name_unique {p q : String × Nat} (hobjects : (names.map Prod.snd).Nodup)
    (hp : p ∈ names) (hq : q ∈ names) (h : p.2 = q.2) : p = q :=
  List.inj_on_of_nodup_map hobjects hp hq h

theorem findWindow_synced (ws : List LockWindow) {p : String × Nat}
    (hnames : (names.map Prod.fst).Nodup) (hp : p ∈ names) :
    ∃ primary keyboard, findWindow (syncLoop true true names ws) p.1 =
      some (placed p.1 p.2 primary keyboard (findWindow ws p.1)) := by
  cases names with
  | nil => exact absurd hp List.not_mem_nil
  | cons q rest =>
      obtain ⟨hq, hrest⟩ := List.nodup_cons.mp hnames
      obtain rfl | hmem := List.mem_cons.mp hp
      · exact ⟨_, _, findWindow_syncLoop_head true true ws p.2 hq⟩
      · have hne : p.1 ≠ q.1 := fun he => hq (he ▸ List.mem_map_of_mem hmem)
        refine ⟨false, false, ?_⟩
        rw [syncLoop, findWindow_syncLoop_tail true _ hrest hmem, findWindow_place, if_neg hne]

theorem placed_monitor {p : String × Nat} (primary keyboard : Bool)
    (hkept : NamesKept names ws) (hp : p ∈ names) :
    (placed p.1 p.2 primary keyboard (findWindow ws p.1)).monitor = p.2 := by
  cases hfound : findWindow ws p.1 with
  | none => rfl
  | some w => exact hkept w (List.mem_of_find?_eq_some hfound) p hp (findWindow_output hfound)

theorem mem_synced_iff {w : LockWindow} (hws : (ws.map LockWindow.output).Nodup) :
    w ∈ dropGone names (syncLoop true true names ws) ↔
      ∃ p ∈ names, findWindow (syncLoop true true names ws) p.1 = some w ∧
        w.monitor = p.2 := by
  rw [mem_dropGone, mem_iff_findWindow (syncLoop_nodup true true names hws)]
  constructor
  · rintro ⟨hfound, hp⟩
    exact ⟨_, hp, hfound, rfl⟩
  · rintro ⟨p, hp, hfound, hmonitor⟩
    have houtput := findWindow_output hfound
    rw [houtput, hmonitor]
    exact ⟨hfound, hp⟩

theorem covered_of_kept (hobjects : (names.map Prod.snd).Nodup)
    (hws : (ws.map LockWindow.output).Nodup) (hnames : (names.map Prod.fst).Nodup)
    (hkept : NamesKept names ws) :
    ∀ o ∈ names.map Prod.snd,
      ∃! w, w ∈ dropGone names (syncLoop true true names ws) ∧ w.monitor = o := by
  intro o ho
  obtain ⟨p, hp, rfl⟩ := List.mem_map.mp ho
  obtain ⟨primary, keyboard, hfound⟩ := findWindow_synced ws hnames hp
  have hmonitor := placed_monitor primary keyboard hkept hp
  refine ⟨_, ⟨(mem_synced_iff hws).mpr ⟨p, hp, hfound, hmonitor⟩, hmonitor⟩, ?_⟩
  rintro v ⟨hv, hvp⟩
  obtain ⟨q, hq, hvfound, hvq⟩ := (mem_synced_iff hws).mp hv
  obtain rfl := name_unique hobjects hq hp (hvq.symm.trans hvp)
  exact Option.some.inj (hvfound.symm.trans hfound)

theorem keyboard_unique {first : String × Nat} {rest : List (String × Nat)} {v : LockWindow}
    (hws : (ws.map LockWindow.output).Nodup)
    (hnames : ((first :: rest).map Prod.fst).Nodup)
    (hv : v ∈ dropGone (first :: rest) (syncLoop true true (first :: rest) ws))
    (hkeyboard : v.keyboard = true) :
    v = placed first.1 first.2 true true (findWindow ws first.1) := by
  obtain ⟨hfirst, hrest⟩ := List.nodup_cons.mp hnames
  obtain ⟨q, hq, hfound, -⟩ := (mem_synced_iff hws).mp hv
  obtain rfl | hmem := List.mem_cons.mp hq
  · rw [findWindow_syncLoop_head true true ws q.2 hfirst] at hfound
    exact (Option.some.inj hfound).symm
  · rw [syncLoop, findWindow_syncLoop_tail true _ hrest hmem] at hfound
    rw [← Option.some.inj hfound, placed_keyboard] at hkeyboard
    cases hkeyboard

theorem usable_of_prepared (hobjects : (names.map Prod.snd).Nodup) (hne : names ≠ [])
    (hws : (ws.map LockWindow.output).Nodup) (hnames : (names.map Prod.fst).Nodup)
    (hkept : NamesKept names ws) (hcard : CardStands names ws) :
    Usable (names.map Prod.snd) (dropGone names (syncLoop true true names ws)) where
  nodup := List.Nodup.of_map _ (dropGone_nodup names (syncLoop_nodup true true names hws))
  covered := covered_of_kept hobjects hws hnames hkept
  card := by
    obtain ⟨first, rest, rfl⟩ := List.exists_cons_of_ne_nil hne
    have hfound := findWindow_syncLoop_head true true ws first.2 (List.nodup_cons.mp hnames).1
    have hmonitor := placed_monitor true true hkept (List.mem_cons_self (a := first))
    refine ⟨_, (mem_synced_iff hws).mpr ⟨first, List.mem_cons_self, hfound, hmonitor⟩,
      placed_keyboard _, ?_, fun v hv hkeyboard => keyboard_unique hws hnames hv hkeyboard⟩
    cases hold : findWindow ws first.1 with
    | none => rfl
    | some w =>
        have hw := List.mem_of_find?_eq_some hold
        have houtput := findWindow_output hold
        exact hcard first rfl w hw
          (Prod.ext houtput (hkept w hw first List.mem_cons_self houtput))

theorem prepared_of_usable (hobjects : (names.map Prod.snd).Nodup)
    (hws : (ws.map LockWindow.output).Nodup)
    (h : Usable (names.map Prod.snd) (dropGone names (syncLoop true true names ws))) :
    (names.map Prod.fst).Nodup ∧ NamesKept names ws ∧ CardStands names ws := by
  -- each monitor's window is the one found under its name
  have hfound : ∀ p ∈ names, ∃ w ∈ dropGone names (syncLoop true true names ws),
      findWindow (syncLoop true true names ws) p.1 = some w ∧ w.monitor = p.2 := by
    intro p hp
    obtain ⟨w, ⟨hw, hwp⟩, -⟩ := h.covered p.2 (List.mem_map_of_mem hp)
    obtain ⟨q, hq, hwfound, hwq⟩ := (mem_synced_iff hws).mp hw
    obtain rfl := name_unique hobjects hq hp (hwq.symm.trans hwp)
    exact ⟨w, hw, hwfound, hwp⟩
  have hnames : (names.map Prod.fst).Nodup := by
    refine List.Nodup.map_on ?_ (List.Nodup.of_map _ hobjects)
    intro p hp q hq hpq
    obtain ⟨v, -, hv, hvp⟩ := hfound p hp
    obtain ⟨w, -, hw, hwq⟩ := hfound q hq
    obtain rfl : v = w := Option.some.inj (hv.symm.trans (hpq ▸ hw))
    exact name_unique hobjects hp hq (hvp.symm.trans hwq)
  have hkept : NamesKept names ws := by
    intro w hw p hp houtput
    obtain ⟨v, -, hv, hvp⟩ := hfound p hp
    obtain ⟨primary, keyboard, hsynced⟩ := findWindow_synced ws hnames hp
    have hold : findWindow ws p.1 = some w := houtput ▸ (mem_iff_findWindow hws).mp hw
    rw [hold] at hsynced
    obtain rfl := Option.some.inj (hv.symm.trans hsynced)
    exact hvp
  refine ⟨hnames, hkept, ?_⟩
  intro p hp w hw hwp
  cases names with
  | nil => cases hp
  | cons q rest =>
      obtain rfl := Option.some.inj hp
      obtain ⟨v, hv, hvfound, -⟩ := hfound q List.mem_cons_self
      have hhead := findWindow_syncLoop_head true true ws q.2 (List.nodup_cons.mp hnames).1
      have hold : findWindow ws q.1 = some w := by
        rw [← hwp]
        exact (mem_iff_findWindow hws).mp hw
      rw [hold] at hhead
      have hvw := Option.some.inj (hvfound.symm.trans hhead)
      obtain ⟨u, -, -, hprimary, hunique⟩ := h.card
      have huv := hunique v hv (by rw [hvw]; rfl)
      rw [← huv, hvw] at hprimary
      exact hprimary

/-- A sync leaves a locked session usable if and only if the names of the monitors differ,
the windows are on the monitors they are named after, and the first one's has the card. -/
theorem syncLockWindows_usable_iff {i : Idle} (hlocked : i.isLocked = true)
    (hobjects : (names.map Prod.snd).Nodup) (hws : (ws.map LockWindow.output).Nodup) :
    (names ≠ [] → Usable (names.map Prod.snd) (syncLockWindows names i ws)) ↔
      (names.map Prod.fst).Nodup ∧ NamesKept names ws ∧ CardStands names ws := by
  have hwanted : i.wanted = true := by rw [Idle.wanted, hlocked, Bool.true_or]
  rw [syncLockWindows, if_pos hwanted, hlocked]
  constructor
  · intro h
    by_cases hne : names = []
    · subst hne
      exact ⟨List.nodup_nil, fun _ _ _ hp => absurd hp List.not_mem_nil, fun _ hp => nomatch hp⟩
    · exact prepared_of_usable hobjects hws (h hne)
  · rintro ⟨hnames, hkept, hcard⟩ hne
    exact usable_of_prepared hobjects hne hws hnames hkept hcard

theorem NamesKept.dropGone (hnames : (names.map Prod.fst).Nodup) :
    NamesKept names (dropGone names ws) := by
  intro w hw p hp houtput
  have hon := (mem_dropGone.mp hw).2
  exact congrArg Prod.snd (List.inj_on_of_nodup_map hnames hon hp houtput)

theorem cardStands_dropGone : CardStands names (dropGone names ws) ↔ CardStands names ws := by
  constructor
  · intro h p hp w hw hwp
    exact h p hp w (mem_dropGone.mpr ⟨hw, hwp ▸ List.mem_of_mem_head? hp⟩) hwp
  · intro h p hp w hw
    exact h p hp w (mem_dropGone.mp hw).1

theorem syncLockWindows_nodup (names : List (String × Nat)) (i : Idle)
    (h : (ws.map LockWindow.output).Nodup) :
    ((syncLockWindows names i ws).map LockWindow.output).Nodup := by
  unfold syncLockWindows
  by_cases hwanted : i.wanted = true
  · rw [if_pos hwanted]
    exact dropGone_nodup names (syncLoop_nodup i.isLocked true names h)
  · rw [if_neg hwanted]
    exact List.nodup_nil

theorem syncLockWindows_of_not_wanted {i : Idle} (h : i.wanted = false) :
    syncLockWindows names i ws = [] := by
  rw [syncLockWindows, h]
  rfl

end Sync

/-! ## The names -/

theorem named_objects (present : List Monitor) :
    (named present).map Prod.snd = (monitors present).map Monitor.object := by
  rw [named, List.map_map]
  have hobject : (Prod.snd ∘ fun p : Monitor × Nat => (monitorName p.1 p.2, p.1.object)) =
      Monitor.object ∘ Prod.fst := rfl
  rw [hobject, ← List.map_map, List.zipIdx_map_fst]

theorem named_eq_nil_iff {present : List Monitor} : named present = [] ↔ monitors present = [] := by
  rw [← List.map_eq_nil_iff (f := Prod.snd), named_objects, List.map_eq_nil_iff]

theorem named_objects_nodup {present : List Monitor}
    (h : (present.map Monitor.object).Nodup) : ((named present).map Prod.snd).Nodup := by
  rw [named_objects, monitors]
  have hperm := (List.perm_insertionSort Monitor.before (present.filter (·.valid))).map
    Monitor.object
  exact hperm.nodup_iff.mpr (h.sublist (List.filter_sublist.map _))

structure App where
  present : List Monitor := []
  idle : Idle := {}
  windows : List LockWindow := []

inductive Event where
  /-- Monitors appear, disappear, move and get their names. -/
  | display (present : List Monitor)
  | idle (value : Idle)
  | sync

namespace App

def names (s : App) : List (String × Nat) := named s.present

def idleChanged (s : App) (value : Idle) : App :=
  if s.idle = value then s
  else { s with idle := value, windows := syncLockWindows s.names value s.windows }

def step (s : App) : Event → Option App
  | .display present =>
      if (present.map Monitor.object).Nodup then some { s with present := present } else none
  | .idle value => some (s.idleChanged value)
  | .sync => some { s with windows := syncWindows s.names s.idle s.windows }

/-- The event makes the windows anew. -/
def Syncs (s : App) : Event → Prop
  | .display _ => False
  | .idle value => s.idle ≠ value
  | .sync => True

/-- A locked session can be unlocked, and one that is at work has no lock windows. -/
def Unlockable (s : App) : Event → App → Prop
  | e, t => s.Syncs e →
      (t.idle.isLocked = true → monitors t.present ≠ [] →
        Usable ((monitors t.present).map Monitor.object) t.windows) ∧
      (t.idle.wanted = false → t.windows = [])

/-- What a sync of a locked session needs to find. -/
def Prepared (s : App) : Event → Prop
  | .display _ => True
  | .idle value =>
      s.idle ≠ value → value.isLocked = true →
        (s.names.map Prod.fst).Nodup ∧ NamesKept s.names s.windows ∧
          CardStands s.names s.windows
  | .sync =>
      s.idle.isLocked = true →
        (s.names.map Prod.fst).Nodup ∧ CardStands s.names s.windows

/-- No two windows have one name, and no monitor is there twice. -/
structure Inv (s : App) : Prop where
  outputs : (s.windows.map LockWindow.output).Nodup
  objects : (s.present.map Monitor.object).Nodup

variable {s t : App} {e : Event}

theorem Inv.idleChanged (h : s.Inv) (value : Idle) : (s.idleChanged value).Inv := by
  unfold App.idleChanged
  by_cases hsame : s.idle = value
  · rwa [if_pos hsame]
  · rw [if_neg hsame]
    exact ⟨syncLockWindows_nodup _ _ h.outputs, h.objects⟩

theorem Inv.step (h : s.Inv) (ht : step s e = some t) : t.Inv := by
  cases e with
  | display present =>
      obtain ⟨hpresent, ht⟩ := Option.ite_none_right_eq_some.mp ht
      obtain rfl := Option.some.inj ht
      exact ⟨h.outputs, hpresent⟩
  | idle value =>
      obtain rfl := Option.some.inj ht
      exact h.idleChanged value
  | sync =>
      obtain rfl := Option.some.inj ht
      exact ⟨syncLockWindows_nodup _ _ (dropGone_nodup _ h.outputs), h.objects⟩

theorem unlockable_iff {i : Idle} {ws : List LockWindow} (h : s.Inv)
    (hws : (ws.map LockWindow.output).Nodup) :
    ((i.isLocked = true → monitors s.present ≠ [] →
        Usable ((monitors s.present).map Monitor.object) (syncLockWindows s.names i ws)) ∧
      (i.wanted = false → syncLockWindows s.names i ws = [])) ↔
    (i.isLocked = true →
      (s.names.map Prod.fst).Nodup ∧ NamesKept s.names ws ∧ CardStands s.names ws) := by
  rw [and_iff_left fun hnot => syncLockWindows_of_not_wanted hnot]
  refine forall_congr' fun hlocked => ?_
  have hiff := syncLockWindows_usable_iff hlocked (named_objects_nodup h.objects) hws
  rwa [named_objects, Ne, named_eq_nil_iff] at hiff

theorem step_unlockable_iff (h : s.Inv) (ht : step s e = some t) :
    Unlockable s e t ↔ Prepared s e := by
  cases e with
  | display present => exact ⟨fun _ => trivial, fun _ hsyncs => hsyncs.elim⟩
  | idle value =>
      obtain rfl := Option.some.inj ht
      refine forall_congr' fun hsyncs => ?_
      have hnew : ¬s.idle = value := hsyncs
      rw [App.idleChanged, if_neg hnew]
      exact unlockable_iff (s := s) h h.outputs
  | sync =>
      obtain rfl := Option.some.inj ht
      have hiff := unlockable_iff (i := s.idle) h (dropGone_nodup s.names h.outputs)
      constructor
      · intro hunlockable hlocked
        obtain ⟨hnames, -, hcard⟩ := hiff.mp (hunlockable trivial) hlocked
        exact ⟨hnames, cardStands_dropGone.mp hcard⟩
      · intro hprepared _
        refine hiff.mpr fun hlocked => ?_
        obtain ⟨hnames, hcard⟩ := hprepared hlocked
        exact ⟨hnames, NamesKept.dropGone hnames, cardStands_dropGone.mpr hcard⟩

/-- Every sync of a run leaves a session that can be unlocked if and only if every one found
it prepared. -/
theorem unlockable_along_iff (events : List Event) :
    Along step Unlockable {} events ↔ Along step (fun s e _ => Prepared s e) {} events :=
  along_iff Inv (fun _ _ _ h ht _ => h.step ht) (fun _ _ _ h ht => step_unlockable_iff h ht)
    events ⟨List.nodup_nil, List.nodup_nil⟩

/-- A screen of its own, and one to its right. -/
def twoScreens : List Monitor :=
  [{ object := 1, connector := some "DP-1", x := 0, y := 0 },
    { object := 2, connector := some "DP-2", x := 1920, y := 0 }]

/-- The session is locked on two screens, and the first is switched off: the window on the
other gets the keyboard and has no card. -/
theorem no_card_left : ¬ ∀ events, Along step Unlockable {} events := by
  intro hall
  obtain ⟨-, hdisplay⟩ :=
    hall [.display twoScreens, .idle { locked := some true }, .display twoScreens.tail, .sync] _ rfl
  obtain ⟨-, hidle⟩ := hdisplay _ rfl
  obtain ⟨-, htail⟩ := hidle _ rfl
  obtain ⟨hsync, -⟩ := htail _ rfl
  obtain ⟨w, hw, -, hprimary, -⟩ := ((hsync trivial).1 rfl (by decide)).card
  revert hprimary
  revert w
  decide

end App

end MindOS.Shell.Lock
