import MindOS.Wm.Asked.Arrange

/-!
# Layout modes and back

A window that floats is noted with its rectangle when it gets its first slot, and goes back
there when the layout floats again. In between its rectangle is kept, whatever the modes,
the slots and the answers of the clients.
-/

namespace MindOS.Wm

open Text

namespace Workspace

/-- A change of the layout mode and the arrange after it, what the clients answer to that
and the outputs their windows are on then. -/
structure Round where
  mode : LayoutMode
  slots : Slots := fun _ _ => []
  answers : List (Window × Answer) := []
  entered : Window → List Output := fun _ => []

def answerEach (d : Workspace) (answers : List (Window × Answer)) : Workspace :=
  answers.foldl (fun d (w, a) => d.answer w a) d

def round (r : Room) (d : Workspace) (x : Round) : Workspace :=
  let d := ((d.setLayoutMode x.mode).arrangeAll r x.slots).answerEach x.answers
  { d with entered := x.entered }

def rounds (r : Room) (d : Workspace) (xs : List Round) : Workspace := xs.foldl (round r) d

variable {r : Room} {d s t : Workspace} {v w : Window} {area rect : Rect} {slots : Slots}
  {name : Text} {windows : List Window} {xs : List Round}

/-- A window that is neither maximised nor held in a zone can take a rectangle that is on a
screen. -/
structure Free (d : Workspace) (w : Window) (rect : Rect) : Prop where
  mapped : w ∈ d.wm.elements
  unmaximized : d.pendingMaximized w = false
  unsnapped : (d.wm.tile w).snap = none
  onScreen : d.onScreen rect = true
  wide : 1 ≤ rect.size.w
  /-- There is something of the client below the bar. -/
  tall : 1 ≤ rect.size.h - d.pendingHeaderHeight w

/-- A window is at a rectangle, or is a tile for now and will go back there. -/
inductive Keeps (d : Workspace) (w : Window) (rect : Rect) : Prop
  | floating (hnow : (d.memory w).tiledNow = false) (hrect : d.askedGeometry w = some rect)
  | tile (hnow : (d.memory w).tiledNow = true) (huntiled : (d.memory w).untiled = some rect)

theorem Free.steady (h : Free s w rect) (hs : Steady w s t) : Free t w rect where
  mapped := hs.mem_elements.mpr h.mapped
  unmaximized := hs.maximized.trans h.unmaximized
  unsnapped := hs.snap.trans h.unsnapped
  onScreen := by
    rw [Workspace.onScreen, hs.outputs]
    exact h.onScreen
  wide := h.wide
  tall := by
    rw [hs.pendingHeaderHeight]
    exact h.tall

theorem Keeps.congr (h : Keeps s w rect) (hmemory : t.memory w = s.memory w)
    (hasked : t.askedGeometry w = s.askedGeometry w) : Keeps t w rect := by
  cases h with
  | floating hnow hrect => exact .floating (hmemory ▸ hnow) (hasked.trans hrect)
  | tile hnow huntiled => exact .tile (hmemory ▸ hnow) (hmemory ▸ huntiled)

theorem Keeps.same (h : Keeps s w rect) (hs : Same w s t) : Keeps t w rect :=
  h.congr hs.memory hs.askedGeometry

/-! ## Tiles -/

theorem memory_applyRect (d : Workspace) (v w : Window) (rect : Rect) :
    (d.applyRect v rect).memory w = d.memory w := by
  rw [applyRect]
  split <;> rfl

theorem elementLocation_applyRect (d : Workspace) (v w : Window) (rect : Rect) :
    (d.applyRect v rect).wm.elementLocation w = d.wm.elementLocation w := by
  rw [applyRect]
  split <;> rfl

theorem Keeps.rememberUntiled (h : Keeps d w rect) :
    ((d.rememberUntiled w).memory w).tiledNow = true ∧
      ((d.rememberUntiled w).memory w).untiled = some rect := by
  rw [Workspace.rememberUntiled]
  cases h with
  | floating hnow hrect =>
      have hasked : (d.updateMemory w fun m => { m with tiledNow := true }).askedGeometry w =
          some rect := hrect
      simp [hnow, hasked]
  | tile hnow huntiled => simp [hnow, huntiled]

theorem Keeps.arrangeTile (h : Keeps d w rect) (r : Room) (area slot : Rect) :
    ((d.arrangeTile r w area slot).1.memory w).tiledNow = true ∧
      ((d.arrangeTile r w area slot).1.memory w).untiled = some rect := by
  rw [Workspace.arrangeTile, memory_applyRect]
  exact h.rememberUntiled

theorem Keeps.arrangeTiles (h : Keeps d w rect) (r : Room) (area : Rect)
    (tiles : List (Window × Rect)) :
    let t := (arrangeEach r area d (tiles.map fun (w, slot) => (w, some slot))).1
    Keeps t w rect ∧ (w ∈ tiles.map Prod.fst ∨ (d.memory w).tiledNow = true →
      (t.memory w).tiledNow = true) := by
  induction tiles generalizing d with
  | nil => exact ⟨h, fun hnow => hnow.resolve_left List.not_mem_nil⟩
  | cons entry tiles ih =>
      obtain ⟨v, slot⟩ := entry
      by_cases hne : v = w
      · subst hne
        obtain ⟨hnow, huntiled⟩ := h.arrangeTile r area slot
        obtain ⟨hkeeps, htiled⟩ := ih (.tile hnow huntiled)
        exact ⟨hkeeps, fun _ => htiled (.inr hnow)⟩
      · have hsame : Same w d (d.arrangeTile r v area slot).1 :=
          Same.arrangeWindow hne (some slot)
        obtain ⟨hkeeps, htiled⟩ := ih (h.same hsame)
        refine ⟨hkeeps, fun hw => htiled ?_⟩
        rw [hsame.memory]
        refine hw.imp_left fun hw => ?_
        exact (List.mem_cons.mp hw).resolve_left (Ne.symm hne)

/-! ## Leaving the tiling -/

theorem floatingRect_of_onScreen (h : d.onScreen rect = true) :
    d.floatingRect r w (some rect) = some rect := by
  rw [floatingRect, Option.filter_some, if_pos h]

theorem Free.ensureUntiled (hfree : Free d w rect) (h : Keeps d w rect) :
    ((d.ensureUntiled r w).1.memory w).tiledNow = false ∧
      (d.ensureUntiled r w).1.askedSize w = rect.size ∧
        (d.ensureUntiled r w).2.or (d.wm.elementLocation w) = some rect.loc := by
  rw [Workspace.ensureUntiled]
  cases h with
  | floating hnow hrect =>
      obtain ⟨loc, hloc, hsize⟩ := Option.map_eq_some_iff.mp hrect
      rw [hnow, ← hsize]
      refine ⟨?_, rfl, ?_⟩
      · simp
      · simpa using hloc
  | tile hnow huntiled =>
      let t := d.updateMemory w fun m => { m with tiledNow := false, untiled := none }
      have hsteady : Steady w d t := .updateMemory d w w
      have hrect : t.floatingRect r w (some rect) = some rect :=
        floatingRect_of_onScreen (hfree.steady hsteady).onScreen
      rw [hnow, huntiled, if_pos rfl]
      simp only [t] at hrect
      rw [hrect]
      have hroom := hfree.steady hsteady
      refine ⟨?_, askedSize_applyRect_of_le hroom.wide hroom.tall, rfl⟩
      rw [memory_applyRect, updateMemory_memory]

/-! ## Arranging an output -/

theorem fst_mem_of_handled (h : w ∈ (d.handled slots windows name).map Prod.fst) :
    w ∈ windows ∧ d.pendingFullscreen w = false ∧ d.wm.layout.mode.isTiling = true := by
  rw [handled] at h
  split at h
  next htiling =>
    obtain ⟨⟨v, slot⟩, hv, rfl⟩ := List.mem_map.mp h
    have htile := (List.mem_filter.mp (List.of_mem_zip hv).1).2
    obtain ⟨hin, hfull⟩ := Bool.and_eq_true_iff.mp htile
    exact ⟨List.contains_iff_mem.mp hin, by simpa using hfull, htiling⟩
  · cases h

theorem fst_inTurn (windows : List Window) (handled : List (Window × Rect)) :
    (inTurn windows handled).map Prod.fst =
      handled.map Prod.fst ++ windows.filter fun w => !(handled.map Prod.fst).contains w := by
  rw [inTurn, List.map_append, List.map_map, List.map_map]
  congr 1
  exact List.map_id' _

theorem same_arrangeOutput {o : Output} (hw : w ∈ d.wm.elements)
    (hout : w ∉ d.wm.windowsOn o.name) : Same w d (d.arrangeOutput r slots o) := by
  have horder := Same.orderTiles w d o.name
  have hturn : w ∉ (inTurn (d.wm.windowsOn o.name) ((d.orderTiles o.name).handled slots
      (d.wm.windowsOn o.name) o.name)).map Prod.fst := by
    rw [fst_inTurn, List.mem_append, not_or]
    exact ⟨fun h => hout (fst_mem_of_handled h).1, fun h => hout (List.mem_filter.mp h).1⟩
  have hsame := horder.trans (Same.arrangeEach r (r.usableArea o) _ hturn).1
  exact hsame.trans (.moveTargets (hsame.steady.mem_elements.mpr hw) fun h => absurd h hout)

theorem arrangeOutput_eq (r : Room) (d : Workspace) (slots : Slots) (o : Output) :
    let windows := d.wm.windowsOn o.name
    let s := d.orderTiles o.name
    let handled := s.handled slots windows o.name
    let others := windows.filter fun w => !(handled.map Prod.fst).contains w
    let t := arrangeEach r (r.usableArea o) s (handled.map fun (w, slot) => (w, some slot))
    let u := arrangeEach r (r.usableArea o) t.1 (others.map fun w => (w, none))
    d.arrangeOutput r slots o =
      { u.1 with wm := u.1.wm.moveTargets windows (t.2 ++ u.2) } := by
  simp only [Workspace.arrangeOutput, inTurn, arrangeEach_append]

/-- Moving a window that is asked for the size of a rectangle to where that is. -/
theorem askedGeometry_moveTargets {targets : List (Window × Point)} (hw : w ∈ d.wm.elements)
    (hin : w ∈ windows) (hsize : d.askedSize w = rect.size)
    (hloc : (targets.lookup w).or (d.wm.elementLocation w) = some rect.loc) :
    Workspace.askedGeometry { d with wm := d.wm.moveTargets windows targets } w = some rect := by
  have hmoved : (d.wm.moveTargets windows targets).elementLocation w = some rect.loc := by
    rw [State.elementLocation_moveTargets hw, if_pos hin, hloc]
  obtain ⟨space, hspace, -⟩ := State.moveTargets_eq d.wm windows targets
  rw [hspace] at hmoved ⊢
  rw [askedGeometry, hmoved]
  exact congrArg (fun size => some (Rect.mk rect.loc size)) hsize

theorem elementLocation_ensureUntiled (d : Workspace) (w : Window) :
    (d.ensureUntiled r w).1.wm.elementLocation w = d.wm.elementLocation w := by
  rw [ensureUntiled]
  split
  · split
    · rfl
    · exact elementLocation_applyRect _ w w _
  · rfl

/-- What an arrange of its output makes of a window with its rectangle kept: a fullscreen
window is left alone, and in a layout that floats it goes to its rectangle. -/
theorem Free.arrangeOutput {o : Output} (hfree : Free d w rect) (h : Keeps d w rect) (r : Room)
    (slots : Slots) (hin : w ∈ d.wm.windowsOn o.name) :
    Keeps (d.arrangeOutput r slots o) w rect ∧
      (d.pendingFullscreen w = true → Same w d (d.arrangeOutput r slots o)) ∧
      (d.pendingFullscreen w = false → d.wm.layout.mode.isTiling = false →
        ((d.arrangeOutput r slots o).memory w).tiledNow = false) := by
  have horder := Same.orderTiles w d o.name
  rw [arrangeOutput_eq]
  dsimp only
  let s := d.orderTiles o.name
  let handled := s.handled slots (d.wm.windowsOn o.name) o.name
  let others := (d.wm.windowsOn o.name).filter fun w => !(handled.map Prod.fst).contains w
  let t := arrangeEach r (r.usableArea o) s (handled.map fun (w, slot) => (w, some slot))
  let u := arrangeEach r (r.usableArea o) t.1 (others.map fun w => (w, none))
  by_cases htile : w ∈ handled.map Prod.fst
  · obtain ⟨hkeeps, hnow⟩ := (h.same horder).arrangeTiles r (r.usableArea o) handled
    have hout : w ∉ (others.map fun w => ((w, none) : Window × Option Rect)).map Prod.fst := by
      simpa [others] using fun _ => htile
    have hsame := (Same.arrangeEach r (r.usableArea o) t.1 hout).1
    obtain ⟨-, hshown, htiling⟩ := fst_mem_of_handled htile
    refine ⟨?_, fun hfull => ?_, fun _ hfloats => ?_⟩
    · cases hkeeps.same hsame with
      | floating hfalse _ =>
          rw [hsame.memory] at hfalse
          exact absurd ((hnow (.inl htile)).symm.trans hfalse) nofun
      | tile hnow huntiled => exact .tile hnow huntiled
    · rw [horder.steady.fullscreen, hfull] at hshown
      cases hshown
    · rw [horder.mode, hfloats] at htiling
      cases htiling
  · have hturn : w ∉ (handled.map fun (w, slot) => (w, some slot)).map Prod.fst := by
      rwa [List.map_map]
    obtain ⟨htiles, hnone⟩ := Same.arrangeEach r (r.usableArea o) s hturn
    have hnodup :
        ((others.map fun w => ((w, none) : Window × Option Rect)).map Prod.fst).Nodup := by
      rw [List.map_map]
      exact (List.map_id' others).symm ▸ (d.wm.nodup_windowsOn o.name).filter _
    have hmem : (w, none) ∈ others.map fun w => ((w, none) : Window × Option Rect) := by
      refine List.mem_map_of_mem (f := fun w => (w, none)) (List.mem_filter.mpr ⟨hin, ?_⟩)
      simpa using htile
    obtain ⟨s', hbefore, hafter, hlookup⟩ :=
      arrangeEach_of_mem r (r.usableArea o) t.1 hnodup hmem
    have hsame : Same w d s' := (horder.trans htiles).trans hbefore
    have hfree' := hfree.steady hsame.steady
    rw [arrangeWindow, arrangeOther] at hafter hlookup
    by_cases hfull : s'.pendingFullscreen w = true
    · rw [if_pos hfull] at hafter hlookup
      have hall := hsame.trans hafter
      have hmoved : Same w d { u.1 with
          wm := u.1.wm.moveTargets (d.wm.windowsOn o.name) (t.2 ++ u.2) } := by
        refine hall.trans (.moveTargets (hall.steady.mem_elements.mpr hfree.mapped) fun _ => ?_)
        rw [List.lookup_append, hnone, hlookup, Option.none_or]
      refine ⟨h.same hmoved, fun _ => hmoved, fun hshown => ?_⟩
      rw [hsame.steady.fullscreen, hshown] at hfull
      cases hfull
    · rw [if_neg hfull, hfree'.unsnapped] at hafter hlookup
      dsimp only at hafter hlookup
      rw [if_neg (by simp [hfree'.unmaximized])] at hafter hlookup
      obtain ⟨hnow, hsize, hloc⟩ := hfree'.ensureUntiled (r := r) (h.same hsame)
      rw [← hafter.memory] at hnow
      rw [← hafter.askedSize] at hsize
      rw [← hlookup, ← elementLocation_ensureUntiled (r := r), ← hafter.location] at hloc
      have huntiled : Steady w s' (s'.ensureUntiled r w).1 := .ensureUntiled s' w w
      have hmapped := (hsame.steady.trans huntiled).trans hafter.steady
      refine ⟨.floating hnow (askedGeometry_moveTargets
        (hmapped.mem_elements.mpr hfree.mapped) hin hsize ?_), fun hfull' => ?_, fun _ _ => hnow⟩
      · rwa [List.lookup_append, hnone, Option.none_or]
      · rw [hsame.steady.fullscreen] at hfull
        exact absurd hfull' hfull

/-! ## Arranging all outputs -/

theorem Same.windowHome (h : Same w s t) : t.wm.windowHome w = s.wm.windowHome w := by
  simp only [State.windowHome, State.elementGeometry, h.tile, h.mode, h.outputs, h.location,
    h.client]

/-- A window with its rectangle kept; a fullscreen window is no tile. -/
structure Kept (d : Workspace) (w : Window) (rect : Rect) : Prop where
  free : Free d w rect
  keeps : Keeps d w rect
  fullscreen : d.pendingFullscreen w = true → (d.memory w).tiledNow = false

theorem Kept.same (h : Kept s w rect) (hs : Same w s t) : Kept t w rect where
  free := h.free.steady hs.steady
  keeps := h.keeps.same hs
  fullscreen hfull := by
    rw [hs.memory]
    exact h.fullscreen (hs.steady.fullscreen ▸ hfull)

theorem Kept.arrangeOutput (h : Kept d w rect) (o : Output) :
    Kept (d.arrangeOutput r slots o) w rect := by
  by_cases hin : w ∈ d.wm.windowsOn o.name
  · obtain ⟨hkeeps, hsame, -⟩ := h.free.arrangeOutput h.keeps r slots hin
    have hsteady : Steady w d (d.arrangeOutput r slots o) := .arrangeOutput h.free.mapped o
    refine ⟨h.free.steady hsteady, hkeeps, fun hfull => ?_⟩
    rw [hsteady.fullscreen] at hfull
    rw [(hsame hfull).memory]
    exact h.fullscreen hfull
  · exact h.same (same_arrangeOutput h.free.mapped hin)

theorem Kept.arrangeOutputs (h : Kept d w rect) (os : List Output) :
    Kept (os.foldl (fun d o => d.arrangeOutput r slots o) d) w rect := by
  induction os generalizing d with
  | nil => exact h
  | cons o os ih => exact ih (h.arrangeOutput o)

/-- A layout that floats has no tiles: every window is untiled in the turn of the output
where it lives. -/
theorem Kept.untiled (h : Kept d w rect) (os : List Output)
    (hfloats : d.wm.layout.mode.isTiling = false)
    (hturn : (d.memory w).tiledNow = false ∨ ∃ o ∈ os, d.wm.windowHome w = some o.name) :
    ((os.foldl (fun d o => d.arrangeOutput r slots o) d).memory w).tiledNow = false := by
  induction os generalizing d with
  | nil =>
      obtain hnow | ⟨o, ho, -⟩ := hturn
      · exact hnow
      · cases ho
  | cons o os ih =>
      have hsteady : Steady w d (d.arrangeOutput r slots o) := .arrangeOutput h.free.mapped o
      apply ih (h.arrangeOutput o) (hsteady.mode ▸ hfloats)
      by_cases hin : w ∈ d.wm.windowsOn o.name
      · refine .inl ?_
        obtain ⟨-, hsame, hnow⟩ := h.free.arrangeOutput h.keeps r slots hin
        cases hfull : d.pendingFullscreen w with
        | false => exact hnow hfull hfloats
        | true =>
            rw [(hsame hfull).memory]
            exact h.fullscreen hfull
      · have hsame : Same w d (d.arrangeOutput r slots o) :=
          same_arrangeOutput h.free.mapped hin
        rw [hsame.memory, hsame.windowHome]
        refine hturn.imp_right fun ⟨o', ho', hhome⟩ => ⟨o', ?_, hhome⟩
        apply (List.mem_cons.mp ho').resolve_left
        rintro rfl
        exact hin (State.mem_windowsOn.mpr ⟨h.free.mapped, hhome⟩)

theorem Kept.assignHomes (h : Kept d w rect) : Kept d.assignHomes w rect where
  free := h.free.steady (.assignHomes w d)
  keeps := h.keeps.congr rfl rfl
  fullscreen := h.fullscreen

theorem Kept.arrangeAll (h : Kept d w rect) (r : Room) (slots : Slots) :
    Kept (d.arrangeAll r slots) w rect ∧ (d.wm.layout.mode.isTiling = false →
      ((d.arrangeAll r slots).memory w).tiledNow = false) := by
  refine ⟨h.assignHomes.arrangeOutputs _, fun hfloats => h.assignHomes.untiled _ hfloats (.inr ?_)⟩
  have houtputs : d.wm.outputs.list ≠ [] := by
    obtain ⟨o, ho, -⟩ := List.any_eq_true.mp h.free.onScreen
    exact List.ne_nil_of_mem ho
  exact State.windowHome_isSome d.assignHomes.wm w houtputs

/-! ## Rounds -/

theorem Kept.setLayoutMode (h : Kept d w rect) (mode : LayoutMode) :
    Kept (d.setLayoutMode mode) w rect := by
  have hlayout : ∀ layout, Kept { d with wm := { d.wm with layout := layout } } w rect := by
    intro layout
    exact ⟨⟨h.free.mapped, h.free.unmaximized, h.free.unsnapped, h.free.onScreen, h.free.wide,
      h.free.tall⟩, h.keeps.congr rfl rfl, h.fullscreen⟩
  have hfold : ∀ (ws : List Window) (t : Workspace), Kept t w rect →
      Kept (ws.foldl (fun d w => if d.pendingMaximized w && d.wm.tileable w
        then d.unmaximizeWindow w else d) t) w rect := by
    intro ws
    induction ws with
    | nil => exact fun t ht => ht
    | cons v ws ih =>
        intro t ht
        apply ih _
        dsimp only
        by_cases hne : v = w
        · subst hne
          rw [ht.free.unmaximized]
          exact ht
        · split
          · exact ht.same (.unmaximizeWindow hne)
          · exact ht
  rw [Workspace.setLayoutMode]
  split
  · exact h
  · split
    · exact hfold _ _ (hlayout _)
    · exact hlayout _

theorem Kept.answer (h : Kept d w rect) (v : Window) (a : Answer) :
    Kept (d.answer v a) w rect := by
  by_cases hne : v = w
  · subst hne
    obtain ⟨hsize, surface, size, heq⟩ := answer_eq d v a
    rw [heq] at hsize ⊢
    let t := (d.setSurface v surface).updateClient v fun c => { c with size := size }
    have hmaximized : t.pendingMaximized v = d.pendingMaximized v := by
      simp [t, pendingMaximized, setSurface]
    have hfullscreen : t.pendingFullscreen v = d.pendingFullscreen v := by
      simp [t, pendingFullscreen, setSurface]
    have hheader : t.pendingHeaderHeight v = d.pendingHeaderHeight v := by
      rw [pendingHeaderHeight, hfullscreen]
      rfl
    refine ⟨⟨h.free.mapped, hmaximized.trans h.free.unmaximized, h.free.unsnapped,
      h.free.onScreen, h.free.wide, hheader ▸ h.free.tall⟩, h.keeps.congr rfl ?_,
      fun hfull => h.fullscreen (hfullscreen ▸ hfull)⟩
    rw [askedGeometry, hsize]
    rfl
  · exact h.same (.answer hne a)

theorem Kept.answerEach (h : Kept d w rect) (answers : List (Window × Answer)) :
    Kept (d.answerEach answers) w rect ∧
      ((d.answerEach answers).memory w).tiledNow = (d.memory w).tiledNow ∧
        (d.answerEach answers).wm.layout.mode = d.wm.layout.mode := by
  induction answers generalizing d with
  | nil => exact ⟨h, rfl, rfl⟩
  | cons entry answers ih =>
      obtain ⟨hkept, hnow, hmode⟩ := ih (h.answer entry.1 entry.2)
      obtain ⟨-, surface, size, heq⟩ := answer_eq d entry.1 entry.2
      refine ⟨hkept, hnow.trans ?_, hmode.trans ?_⟩
      · rw [heq]
        rfl
      · rw [heq]
        rfl

theorem Kept.round (h : Kept d w rect) (x : Round) :
    Kept (d.round r x) w rect ∧ ((d.round r x).wm.layout.mode.isTiling = false →
      ((d.round r x).memory w).tiledNow = false) := by
  have hset := h.setLayoutMode x.mode
  obtain ⟨harranged, hfloats⟩ := hset.arrangeAll r x.slots
  obtain ⟨hanswered, hnow, hmode⟩ := harranged.answerEach x.answers
  refine ⟨⟨⟨hanswered.free.mapped, hanswered.free.unmaximized, hanswered.free.unsnapped,
    hanswered.free.onScreen, hanswered.free.wide, hanswered.free.tall⟩,
    hanswered.keeps.congr rfl rfl, hanswered.fullscreen⟩, fun hend => hnow.trans (hfloats ?_)⟩
  have hmode : (d.round r x).wm.layout.mode = (d.setLayoutMode x.mode).wm.layout.mode :=
    hmode.trans (Steady.arrangeAll hset.free.mapped).mode
  rwa [hmode] at hend

theorem Kept.rounds (h : Kept d w rect)
    (hstart : d.wm.layout.mode.isTiling = false → (d.memory w).tiledNow = false)
    (xs : List Round) :
    Kept (d.rounds r xs) w rect ∧ ((d.rounds r xs).wm.layout.mode.isTiling = false →
      ((d.rounds r xs).memory w).tiledNow = false) := by
  induction xs generalizing d with
  | nil => exact ⟨h, hstart⟩
  | cons x xs ih =>
      obtain ⟨hround, hnow⟩ := h.round (r := r) x
      exact ih hround hnow

/-- A window that floats on a screen, at the rectangle its client was asked for. -/
structure Resting (d : Workspace) (w : Window) (rect : Rect) : Prop extends Free d w rect where
  untiled : (d.memory w).tiledNow = false
  there : d.askedGeometry w = some rect

/-- A client has drawn the size it was asked for. -/
def Drawn (d : Workspace) (w : Window) : Prop := (d.wm.client w).size = d.askedSize w

instance : Decidable (d.Drawn w) := inferInstanceAs (Decidable (_ = _))

theorem Drawn.elementGeometry (h : d.Drawn w) : d.wm.elementGeometry w = d.askedGeometry w := by
  rw [State.elementGeometry, askedGeometry, h]

/-- When the layout floats again, every window is back at its rectangle. -/
theorem floating_again (hrest : d.Resting w rect)
    (hend : (d.rounds r xs).wm.layout.mode = .floating) :
    (d.rounds r xs).askedGeometry w = some rect ∧ (d.Drawn w → (d.rounds r xs).Drawn w →
      (d.rounds r xs).wm.elementGeometry w = d.wm.elementGeometry w) := by
  have hkept : Kept d w rect :=
    ⟨hrest.toFree, .floating hrest.untiled hrest.there, fun _ => hrest.untiled⟩
  obtain ⟨hkept, hnow⟩ := hkept.rounds (r := r) (fun _ => hrest.untiled) xs
  have hback : (d.rounds r xs).askedGeometry w = some rect := by
    cases hkept.keeps with
    | floating _ hrect => exact hrect
    | tile htiled _ =>
        have hfalse := hnow (by rw [hend]; rfl)
        exact absurd (htiled.symm.trans hfalse) nofun
  refine ⟨hback, fun hbefore hafter => ?_⟩
  rw [hafter.elementGeometry, hbefore.elementGeometry, hback, hrest.there]

/-- A window on a screen, asked for 800x600 pixels. -/
def oneWindow (drawn : Size) : Workspace where
  wm :=
    { space := { stack := Stack.put {} 1, location := fun _ => ⟨100, 100⟩ }
      client := fun _ => { size := drawn }
      outputs := .single ⟨"DP-1", ⟨⟨0, 0⟩, ⟨1920, 1080⟩⟩⟩ }
  surface := fun _ => .toplevel { size := some ⟨800, 600⟩ }

/-- It is tiled and floats again, and its client draws what it is asked for. -/
def tiledAndBack : List Round :=
  [{ mode := .dwindle, slots := fun _ _ => [⟨⟨0, 0⟩, ⟨1920, 1080⟩⟩],
     answers := [(1, { size := ⟨1920, 1080⟩ })] },
   { mode := .floating, answers := [(1, { size := ⟨800, 600⟩ })] }]

theorem oneWindow_resting (drawn : Size) :
    (oneWindow drawn).Resting 1 ⟨⟨100, 100⟩, ⟨800, 600⟩⟩ where
  mapped := List.mem_singleton.mpr rfl
  unmaximized := rfl
  unsnapped := rfl
  onScreen := rfl
  wide := by decide
  tall := show (1 : Int) ≤ 600 - 0 by decide
  untiled := rfl
  there := rfl

theorem floating_again_one :
    ((oneWindow ⟨800, 600⟩).rounds {} tiledAndBack).wm.elementGeometry 1 =
      (oneWindow ⟨800, 600⟩).wm.elementGeometry 1 :=
  (floating_again (oneWindow_resting ⟨800, 600⟩) (by decide)).2 rfl (by decide)

/-- A window that took another size than it was asked for does not get that back. -/
theorem not_always_floating_again : ¬∀ r d w rect xs, Resting d w rect →
    (d.rounds r xs).wm.layout.mode = .floating → (d.rounds r xs).Drawn w →
      (d.rounds r xs).wm.elementGeometry w = d.wm.elementGeometry w := by
  intro h
  have hback := h {} (oneWindow ⟨1000, 700⟩) 1 _ tiledAndBack (oneWindow_resting _)
    (by decide) (by decide)
  revert hback
  decide

end Workspace

end MindOS.Wm
