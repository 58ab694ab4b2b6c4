import MindOS.Wm.Asked.Basic

/-!
# Arranging with rectangles

An arrange asks every window of an output for its rectangle: a tile for its slot, after it
was noted where it floated, and a window that is a tile no more for what was noted. The
slots of the tiles come from the layout of the mode and are a parameter here, which may be
different in every arrange; no window is being dragged.
-/

namespace MindOS.Wm

open Text

def snapRect (area : Rect) (zone : Text) : Rect :=
  let split := if contains zone "half" then area.size.w.tdiv 2 else (area.size.w * 2).tdiv 3
  if startsWith zone "right" then
    ⟨⟨area.loc.x + split, area.loc.y⟩, ⟨area.size.w - split, area.size.h⟩⟩
  else ⟨area.loc, ⟨split, area.size.h⟩⟩

def centered (area : Rect) (size : Size) : Point :=
  ⟨area.loc.x + max 0 ((area.size.w - size.w).tdiv 2),
    area.loc.y + max 0 ((area.size.h - size.h).tdiv 2)⟩

/-- The slots that the layout of an output has for its tiles. -/
abbrev Slots := Text → List Window → List Rect

/-! ## Where moving leaves a window -/

namespace State

variable {s : State} {w : Window}

theorem elementLocation_remap (windows : List Window) (targets : List (Window × Point))
    (ws : List Window) (hw : w ∈ s.elements) (hws : ∀ v ∈ ws, v ∈ s.elements) :
    (ws.foldl (fun t w =>
      if windows.contains w then
        match (targets.lookup w).or (t.elementLocation w) with
        | some loc => t.mapElement w loc
        | none => t
      else t) s).elementLocation w =
        if w ∈ ws ∧ w ∈ windows then (targets.lookup w).or (s.elementLocation w)
        else s.elementLocation w := by
  induction ws generalizing s with
  | nil => simp
  | cons v ws ih =>
      have hrest : ∀ x ∈ ws, x ∈ s.elements := fun x hx => hws x (List.mem_cons_of_mem v hx)
      rw [List.foldl_cons]
      by_cases hv : v ∈ windows
      · rw [if_pos (List.contains_iff_mem.mpr hv)]
        have hin : s.elementLocation v = some (s.space.location v) :=
          if_pos (hws v List.mem_cons_self)
        obtain ⟨loc, hloc⟩ : ∃ loc, (targets.lookup v).or (s.elementLocation v) = some loc := by
          cases hlook : targets.lookup v with
          | some loc => exact ⟨loc, Option.some_or⟩
          | none => exact ⟨_, by rw [Option.none_or, hin]⟩
        have hmem : ∀ {x : Window}, x ∈ s.elements → x ∈ (s.mapElement v loc).elements :=
          fun hx => Stack.mem_put.mpr (.inl hx)
        simp only [hloc]
        rw [ih (hmem hw) fun x hx => hmem (hrest x hx)]
        by_cases hvw : v = w
        · subst hvw
          have hfirst : v ∈ v :: ws ∧ v ∈ windows := ⟨List.mem_cons_self, hv⟩
          rw [Workspace.mapElement_elementLocation, if_pos hfirst, hloc]
          split
          · cases hlook : targets.lookup v with
            | none => rfl
            | some l =>
                rw [hlook, Option.some_or] at hloc
                rw [Option.some_or, hloc]
          · rfl
        · rw [Workspace.mapElement_elementLocation_of_ne hvw]
          simp [Ne.symm hvw]
      · rw [if_neg (by simpa using hv), ih hw hrest]
        by_cases hvw : v = w
        · subst hvw
          simp [hv]
        · simp [Ne.symm hvw]

theorem elementLocation_moveTargets {windows : List Window} {targets : List (Window × Point)}
    (hw : w ∈ s.elements) : (s.moveTargets windows targets).elementLocation w =
      if w ∈ windows then (targets.lookup w).or (s.elementLocation w)
      else s.elementLocation w := by
  rw [moveTargets]
  split
  · apply (elementLocation_remap windows targets _ hw fun _ hv => hv).trans
    simp [hw]
  next hthere =>
    split
    · cases hlook : targets.lookup w with
      | none => rfl
      | some loc =>
          simp only [List.any_eq_true, decide_eq_true_eq, not_exists, not_and, not_not] at hthere
          obtain ⟨before, after, rfl, -⟩ := List.lookup_eq_some_iff.mp hlook
          exact hthere (w, loc) (by simp)
    · rfl

end State

namespace Workspace

variable (r : Room) (d : Workspace) (w : Window)

/-- Note where a window is before its first tile slot. It may have just been restored, so
the size it was asked for counts. -/
def rememberUntiled : Workspace :=
  if (d.memory w).tiledNow then d
  else
    let d := d.updateMemory w fun m => { m with tiledNow := true }
    match d.askedGeometry w with
    | none => d
    | some geometry => d.updateMemory w fun m => { m with untiled := some geometry }

/-- Where a window goes that leaves the tiling: where it was, if that is still on a screen,
else to the middle of its output. -/
def floatingRect (saved : Option Rect) : Option Rect :=
  match saved.filter d.onScreen with
  | some saved => some saved
  | none =>
      let home := (d.wm.windowHome w).bind fun name =>
        d.wm.outputs.list.find? fun o => o.name = name
      home.map fun o =>
        let area := r.usableArea o
        let size : Size := ⟨(area.size.w * 3).tdiv 5, (area.size.h * 3).tdiv 5⟩
        ⟨centered area size, size⟩

/-- A window that is no tile; one that was goes back to where it floated. -/
def ensureUntiled : Workspace × Option Point :=
  let wasTiled := (d.memory w).tiledNow
  let saved := (d.memory w).untiled
  let d := d.updateMemory w fun m => { m with tiledNow := false, untiled := none }
  if wasTiled then
    match d.floatingRect r w saved with
    | none => (d, none)
    | some rect => (d.applyRect w rect, some rect.loc)
  else (d, none)

def arrangeTile (area slot : Rect) : Workspace × Option Point :=
  let d := d.rememberUntiled w
  let rect := if d.pendingMaximized w then (d.maximizedArea r w).getD area else slot
  (d.applyRect w rect, some rect.loc)

def arrangeOther (area : Rect) : Workspace × Option Point :=
  if d.pendingFullscreen w then (d, none)
  else
    match (d.wm.tile w).snap with
    | some zone =>
        let rect := snapRect area zone
        (d.applyRect w rect, some rect.loc)
    | none =>
        if d.pendingMaximized w then
          let rect := (d.maximizedArea r w).getD area
          (d.applyRect w rect, some rect.loc)
        else d.ensureUntiled r w

/-- A window takes its slot, if it has one. -/
def arrangeWindow (area : Rect) : Option Rect → Workspace × Option Point
  | some slot => d.arrangeTile r w area slot
  | none => d.arrangeOther r w area

/-- Arrange windows one after the other, and collect where they go. -/
def arrangeEach (area : Rect) :
    Workspace → List (Window × Option Rect) → Workspace × List (Window × Point)
  | d, [] => (d, [])
  | d, (w, slot) :: rest =>
      let (d, loc) := d.arrangeWindow r w area slot
      let (d, targets) := arrangeEach area d rest
      (d, (loc.map fun loc => (w, loc)).toList ++ targets)

/-- The order of the tiles of an output is brought up to date in a tiling mode. -/
def orderTiles (name : Text) : Workspace :=
  if d.wm.layout.mode.isTiling then { d with wm := d.wm.orderTiles name } else d

/-- The windows of an output that have a slot, and the slots. -/
def handled (slots : Slots) (windows : List Window) (name : Text) : List (Window × Rect) :=
  if d.wm.layout.mode.isTiling then
    let tiles := (d.wm.layout.order name).filter fun w =>
      windows.contains w && !d.pendingFullscreen w
    tiles.zip (slots name tiles)
  else []

/-- The windows of an output with a slot, and then the others. -/
def inTurn (windows : List Window) (handled : List (Window × Rect)) :
    List (Window × Option Rect) :=
  (handled.map fun (w, slot) => (w, some slot)) ++
    (windows.filter fun w => !(handled.map Prod.fst).contains w).map fun w => (w, none)

def arrangeOutput (slots : Slots) (o : Output) : Workspace :=
  let windows := d.wm.windowsOn o.name
  let d := d.orderTiles o.name
  let (d, targets) := arrangeEach r (r.usableArea o) d
    (inTurn windows (d.handled slots windows o.name))
  { d with wm := d.wm.moveTargets windows targets }

/-- Assign all homes, and forget outputs that are gone. -/
def assignHomes : Workspace :=
  let s := d.wm.assignHomes
  let connected := s.layout.outputs.filter fun entry =>
    s.outputs.list.any fun o => o.name == entry.1
  let pending := if s.layout.mode.isTiling then s.layout.pending else []
  { d with wm :=
    { s with layout := { s.layout with outputs := connected, pending := pending } } }

def arrangeAll (slots : Slots) : Workspace :=
  d.wm.outputs.list.foldl (fun d o => d.arrangeOutput r slots o) d.assignHomes

def setLayoutMode (mode : LayoutMode) : Workspace :=
  if d.wm.layout.mode = mode then d
  else if mode.isTiling then
    d.wm.elements.foldl
      (fun d w => if d.pendingMaximized w && d.wm.tileable w then d.unmaximizeWindow w else d)
      { d with wm := { d.wm with layout := { mode := mode } } }
  else { d with wm := { d.wm with layout := { d.wm.layout with mode := mode } } }

/-! ## What arranging a window leaves of the others -/

variable {r : Room} {d : Workspace} {v w : Window} {area rect : Rect} {slots : Slots}
  {name : Text}

namespace Same

theorem rememberUntiled (hne : v ≠ w) : Same w d (d.rememberUntiled v) := by
  have hnow : Same w d (d.updateMemory v fun m => { m with tiledNow := true }) :=
    .updateMemory hne _
  rw [Workspace.rememberUntiled]
  split
  · exact .refl w d
  · dsimp only
    split
    · exact hnow
    · exact hnow.trans (.updateMemory hne _)

theorem ensureUntiled (hne : v ≠ w) : Same w d (d.ensureUntiled r v).1 := by
  have hforgot : Same w d
      (d.updateMemory v fun m => { m with tiledNow := false, untiled := none }) :=
    .updateMemory hne _
  rw [Workspace.ensureUntiled]
  split
  · split
    · exact hforgot
    · exact hforgot.trans (.applyRect hne _)
  · exact hforgot

theorem arrangeWindow (hne : v ≠ w) (slot : Option Rect) :
    Same w d (d.arrangeWindow r v area slot).1 := by
  cases slot with
  | some slot => exact (rememberUntiled hne).trans (.applyRect hne _)
  | none =>
      rw [Workspace.arrangeWindow, arrangeOther]
      split
      · exact .refl w d
      · split
        · exact .applyRect hne _
        · split
          · exact .applyRect hne _
          · exact ensureUntiled hne

theorem arrangeEach (r : Room) (area : Rect) (d : Workspace)
    {work : List (Window × Option Rect)} (hout : w ∉ work.map Prod.fst) :
    Same w d (Workspace.arrangeEach r area d work).1 ∧
      (Workspace.arrangeEach r area d work).2.lookup w = none := by
  induction work generalizing d with
  | nil => exact ⟨.refl w d, rfl⟩
  | cons entry work ih =>
      obtain ⟨v, slot⟩ := entry
      obtain ⟨hne, hrest⟩ : w ≠ v ∧ w ∉ work.map Prod.fst :=
        not_or.mp (mt List.mem_cons.mpr hout)
      have hfirst : Same w d (d.arrangeWindow r v area slot).1 := arrangeWindow hne.symm slot
      obtain ⟨hsame, hlookup⟩ := ih (d.arrangeWindow r v area slot).1 hrest
      refine ⟨hfirst.trans hsame, ?_⟩
      rw [Workspace.arrangeEach]
      dsimp only
      cases (d.arrangeWindow r v area slot).2 with
      | none => exact hlookup
      | some loc =>
          have hw : (w == v) = false := beq_false_of_ne hne
          rw [Option.map_some, Option.toList_some, List.singleton_append, List.lookup_cons, hw]
          exact hlookup

end Same

theorem arrangeEach_append (work more : List (Window × Option Rect)) :
    arrangeEach r area d (work ++ more) =
      let (s, targets) := arrangeEach r area d work
      let (t, others) := arrangeEach r area s more
      (t, targets ++ others) := by
  induction work generalizing d with
  | nil => rfl
  | cons entry work ih =>
      obtain ⟨v, slot⟩ := entry
      simp only [List.cons_append, arrangeEach, ih, List.append_assoc]

/-- A window that is arranged once is arranged as it was before, and keeps what comes of
that. -/
theorem arrangeEach_of_mem (r : Room) (area : Rect) (d : Workspace)
    {work : List (Window × Option Rect)} (hnodup : (work.map Prod.fst).Nodup)
    {slot : Option Rect} (hmem : (w, slot) ∈ work) :
    ∃ s, Same w d s ∧
      Same w (s.arrangeWindow r w area slot).1 (arrangeEach r area d work).1 ∧
        (arrangeEach r area d work).2.lookup w = (s.arrangeWindow r w area slot).2 := by
  obtain ⟨before, after, rfl⟩ := List.append_of_mem hmem
  rw [List.map_append, List.nodup_append'] at hnodup
  obtain ⟨-, hafter, hapart⟩ := hnodup
  have hbefore : w ∉ before.map Prod.fst := fun h => hapart h List.mem_cons_self
  have hrest : w ∉ after.map Prod.fst := (List.nodup_cons.mp hafter).1
  obtain ⟨hsame, hnone⟩ := Same.arrangeEach r area d hbefore
  let s := (arrangeEach r area d before).1
  let t := (s.arrangeWindow r w area slot).1
  let loc := (s.arrangeWindow r w area slot).2
  have hsplit : arrangeEach r area d (before ++ (w, slot) :: after) =
      ((arrangeEach r area t after).1, (arrangeEach r area d before).2 ++
        ((loc.map fun loc => (w, loc)).toList ++ (arrangeEach r area t after).2)) := by
    rw [arrangeEach_append]
    rfl
  obtain ⟨hkept, hlast⟩ := Same.arrangeEach r area t hrest
  rw [hsplit]
  refine ⟨s, hsame, hkept, ?_⟩
  dsimp only
  rw [List.lookup_append, hnone, Option.none_or, List.lookup_append, hlast, Option.or_none]
  change _ = loc
  cases loc with
  | none => rfl
  | some loc => simp

theorem mem_elements_iff : w ∈ d.wm.elements ↔ (d.wm.elementLocation w).isSome = true := by
  rw [State.elementLocation]
  split <;> simp [*]

theorem Steady.mem_elements {s t : Workspace} (h : Steady w s t) :
    w ∈ t.wm.elements ↔ w ∈ s.wm.elements := by
  rw [mem_elements_iff, mem_elements_iff, h.mapped]

theorem Same.orderTiles (w : Window) (d : Workspace) (name : Text) :
    Same w d (d.orderTiles name) := by
  rw [Workspace.orderTiles]
  split
  · exact ⟨rfl, rfl, rfl, rfl, rfl, rfl, rfl, rfl, rfl, rfl⟩
  · exact .refl w d

theorem Same.moveTargets {windows : List Window} {targets : List (Window × Point)}
    (hw : w ∈ d.wm.elements) (hnone : w ∈ windows → targets.lookup w = none) :
    Same w d { d with wm := d.wm.moveTargets windows targets } := by
  have hloc : (d.wm.moveTargets windows targets).elementLocation w = d.wm.elementLocation w := by
    rw [State.elementLocation_moveTargets hw]
    split
    next hin => rw [hnone hin, Option.none_or]
    · rfl
  obtain ⟨space, hspace, -⟩ := State.moveTargets_eq d.wm windows targets
  rw [hspace] at hloc ⊢
  exact ⟨rfl, rfl, hloc, rfl, rfl, rfl, rfl, rfl, rfl, rfl⟩

/-! ## What arranging leaves of every window -/

namespace Steady

theorem rememberUntiled (d : Workspace) (v w : Window) : Steady w d (d.rememberUntiled v) := by
  have hnow : Steady w d (d.updateMemory v fun m => { m with tiledNow := true }) :=
    .updateMemory d v w
  rw [Workspace.rememberUntiled]
  split
  · exact .refl w d
  · dsimp only
    split
    · exact hnow
    · exact hnow.trans (.updateMemory _ v w)

theorem ensureUntiled (d : Workspace) (v w : Window) : Steady w d (d.ensureUntiled r v).1 := by
  have hforgot : Steady w d
      (d.updateMemory v fun m => { m with tiledNow := false, untiled := none }) :=
    .updateMemory d v w
  rw [Workspace.ensureUntiled]
  split
  · split
    · exact hforgot
    · exact hforgot.trans (.applyRect _ v w _)
  · exact hforgot

theorem arrangeWindow (d : Workspace) (v w : Window) (slot : Option Rect) :
    Steady w d (d.arrangeWindow r v area slot).1 := by
  cases slot with
  | some slot => exact (rememberUntiled d v w).trans (.applyRect _ v w _)
  | none =>
      rw [Workspace.arrangeWindow, arrangeOther]
      split
      · exact .refl w d
      · split
        · exact .applyRect d v w _
        · split
          · exact .applyRect d v w _
          · exact ensureUntiled d v w

theorem arrangeEach (r : Room) (area : Rect) (d : Workspace)
    (work : List (Window × Option Rect)) : Steady w d (Workspace.arrangeEach r area d work).1 := by
  induction work generalizing d with
  | nil => exact .refl w d
  | cons entry work ih => exact (arrangeWindow d entry.1 w entry.2).trans (ih _)

theorem moveTargets (hw : w ∈ d.wm.elements) (windows : List Window)
    (targets : List (Window × Point)) :
    Steady w d { d with wm := d.wm.moveTargets windows targets } := by
  have hloc : ((d.wm.moveTargets windows targets).elementLocation w).isSome = true := by
    rw [State.elementLocation_moveTargets hw]
    split
    · rw [Option.isSome_or, mem_elements_iff.mp hw, Bool.or_true]
    · exact mem_elements_iff.mp hw
  obtain ⟨space, hspace, -⟩ := State.moveTargets_eq d.wm windows targets
  rw [hspace] at hloc ⊢
  exact { refl w d with mapped := hloc.trans (mem_elements_iff.mp hw).symm }

theorem arrangeOutput (hw : w ∈ d.wm.elements) (o : Output) :
    Steady w d (d.arrangeOutput r slots o) := by
  have hsteady := (Same.orderTiles w d o.name).steady.trans
    (arrangeEach r (r.usableArea o) (d.orderTiles o.name) (inTurn (d.wm.windowsOn o.name)
      ((d.orderTiles o.name).handled slots (d.wm.windowsOn o.name) o.name)))
  exact hsteady.trans (moveTargets (hsteady.mem_elements.mpr hw) _ _)

theorem assignHomes (w : Window) (d : Workspace) : Steady w d d.assignHomes := by
  have htile : (d.assignHomes.wm.tile w).floating = (d.wm.tile w).floating ∧
      (d.assignHomes.wm.tile w).snap = (d.wm.tile w).snap := by
    simp only [Workspace.assignHomes, State.assignHomes]
    split
    · split <;> exact ⟨rfl, rfl⟩
    · exact ⟨rfl, rfl⟩
  exact { refl w d with floating := htile.1, snap := htile.2 }

theorem arrangeAll (hw : w ∈ d.wm.elements) : Steady w d (d.arrangeAll r slots) := by
  have houtputs : ∀ (os : List Output) (t : Workspace), Steady w d t →
      Steady w d (os.foldl (fun t o => t.arrangeOutput r slots o) t) := by
    intro os
    induction os with
    | nil => exact fun t ht => ht
    | cons o os ih =>
        exact fun t ht => ih _ (ht.trans (arrangeOutput (ht.mem_elements.mpr hw) o))
  exact houtputs _ _ (assignHomes w d)

end Steady

end Workspace

end MindOS.Wm
