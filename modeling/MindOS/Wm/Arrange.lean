import MindOS.Wm.Layout

/-!
# What arranging keeps

Arranging an output moves windows and maps them again, which raises them. It never
changes how the windows of one output are stacked among themselves, nor what output a
tiled window lives on, so the order of each output follows from the windows it has.
-/

namespace MindOS.Wm

namespace State

variable {s t : State} {w : Window} {n : Text}

/-! ## Stacking -/

/-- Mapping windows again where they go raises them one after the other. -/
theorem foldl_remap_eq (windows : List Window) (targets : List (Window × Point))
    (ws : List Window) (s : State) (h : ∀ w ∈ ws, w ∈ s.elements) :
    ∃ location, ws.foldl (fun t w =>
      if windows.contains w then
        match (targets.lookup w).or (t.elementLocation w) with
        | some loc => t.mapElement w loc
        | none => t
      else t) s = { s with space :=
        { stack := (ws.filter windows.contains).foldl Stack.put s.space.stack
          location := location } } := by
  induction ws generalizing s with
  | nil => exact ⟨s.space.location, rfl⟩
  | cons w ws ih =>
      rw [List.foldl_cons]
      by_cases hw : windows.contains w = true
      · rw [if_pos hw, List.filter_cons_of_pos hw, List.foldl_cons]
        have hin : s.elementLocation w = some (s.space.location w) :=
          if_pos (h w List.mem_cons_self)
        obtain ⟨loc, hloc⟩ : ∃ loc, (targets.lookup w).or (s.elementLocation w) = some loc := by
          cases hlook : targets.lookup w with
          | some loc => exact ⟨loc, by simp⟩
          | none => exact ⟨_, by rw [Option.none_or, hin]⟩
        simp only [hloc]
        have hrest : ∀ x ∈ ws, x ∈ (s.mapElement w loc).elements := fun x hx =>
          Stack.mem_put.mpr (.inl (h x (List.mem_cons_of_mem w hx)))
        obtain ⟨location, heq⟩ := ih (s.mapElement w loc) hrest
        exact ⟨location, heq⟩
      · rw [if_neg hw, List.filter_cons_of_neg hw]
        exact ih s fun x hx => h x (List.mem_cons_of_mem w hx)

/-- Moving windows leaves the stack, or puts the windows that are moved above the others. -/
theorem moveTargets_eq (s : State) (windows : List Window) (targets : List (Window × Point)) :
    ∃ space : Space, s.moveTargets windows targets = { s with space := space } ∧
      (space.stack.items = s.elements ∨ space.stack.items =
        s.elements.filter (fun w => !windows.contains w) ++
          s.elements.filter fun w => windows.contains w) := by
  unfold moveTargets
  split
  · obtain ⟨location, heq⟩ := foldl_remap_eq windows targets s.elements s fun _ h => h
    refine ⟨_, heq, .inr ?_⟩
    have hnodup : (s.elements.filter windows.contains).Nodup := s.space.stack.nodup.filter _
    refine (Stack.items_foldl_put hnodup).trans ?_
    congr 1
    refine List.filter_congr fun w hw => ?_
    have hw : w ∈ s.elements := hw
    simp [hw]
  · exact ⟨s.space, rfl, .inl rfl⟩

/-! ## Homes -/

theorem foldl_isSome {outputs : List Output} {f : Option Output → Output → Option Output}
    (hf : ∀ best o, f best o = some o ∨ (f best o = best ∧ best ≠ none)) {l : List Output}
    {best : Option Output} (h : l ≠ [] ∨ best ≠ none) (hbest : ∀ o, best = some o → o ∈ outputs)
    (hl : ∀ o ∈ l, o ∈ outputs) : ∃ o ∈ outputs, l.foldl f best = some o := by
  induction l generalizing best with
  | nil =>
      obtain ⟨o, ho⟩ := Option.ne_none_iff_exists'.mp (h.resolve_left (not_not_intro rfl))
      exact ⟨o, hbest o ho, ho⟩
  | cons o l ih =>
      have hrest : ∀ x ∈ l, x ∈ outputs := fun x hx => hl x (List.mem_cons_of_mem o hx)
      rw [List.foldl_cons]
      rcases hf best o with hnew | ⟨hkeep, hsome⟩
      · rw [hnew]
        refine ih (.inr (Option.some_ne_none o)) (fun x hx => ?_) hrest
        exact Option.some.inj hx ▸ hl o List.mem_cons_self
      · rw [hkeep]
        exact ih (.inr hsome) hbest hrest

theorem mostShared_isSome (geometry : Option Rect) {outputs : List Output}
    (h : outputs ≠ []) : ∃ o ∈ outputs, mostShared geometry outputs = some o := by
  refine foldl_isSome ?_ (.inl h) (fun o ho => absurd ho.symm (Option.some_ne_none o))
    fun o ho => ho
  intro best o
  cases best with
  | none => exact .inl rfl
  | some b =>
      dsimp only
      split
      · exact .inl rfl
      · exact .inr ⟨rfl, Option.some_ne_none b⟩

/-- Where there is an output, every window lives on one. -/
theorem windowHome_isSome (s : State) (w : Window) (h : s.outputs.list ≠ []) :
    ∃ o ∈ s.outputs.list, s.windowHome w = some o.name := by
  unfold windowHome outputOwner
  split
  next o ho =>
    split at ho
    · exact ⟨o, List.mem_of_find?_eq_some ho, rfl⟩
    · cases ho
  next =>
    obtain ⟨o, hin, ho⟩ := mostShared_isSome (s.elementGeometry w) h
    exact ⟨o, hin, by rw [ho]; rfl⟩

/-- In a tiling mode a connected owner keeps the window. -/
theorem windowHome_of_owner (htiling : s.layout.mode.isTiling = true)
    (hn : n ∈ s.outputs.list.map Output.name) (hw : (s.tile w).output = some n) :
    s.windowHome w = some n := by
  have hfind : ∃ o, s.outputs.list.find? (fun o => some o.name = (s.tile w).output) = some o := by
    rw [← Option.isSome_iff_exists, List.find?_isSome]
    obtain ⟨o, ho, rfl⟩ := List.mem_map.mp hn
    exact ⟨o, ho, by simp [hw]⟩
  obtain ⟨o, ho⟩ := hfind
  have hname : some o.name = (s.tile w).output := by simpa using List.find?_some ho
  unfold windowHome outputOwner
  rw [htiling, Bool.true_or, if_pos rfl, ho]
  exact hname.trans hw

theorem nodup_insertIdx {l : List Window} (h : l.Nodup) (hw : w ∉ l) (i : Nat) :
    (l.insertIdx i w).Nodup := by
  by_cases hi : i ≤ l.length
  · exact (List.perm_insertIdx w l hi).nodup_iff.mpr (List.nodup_cons.mpr ⟨hw, h⟩)
  · rwa [List.insertIdx_of_length_lt (Nat.lt_of_not_le hi)]

theorem nodup_joinPending {windows : List Window} {pending : List (Window × Option Window)}
    {order : List Window}
    (h : order.Nodup) : (s.joinPending windows pending order).1.Nodup := by
  induction pending generalizing order with
  | nil => exact h
  | cons e pending ih =>
      obtain ⟨w, after⟩ := e
      rw [joinPending]
      split
      · exact ih h
      case isFalse hnew =>
        rw [Bool.not_eq_true, Bool.or_eq_false_iff] at hnew
        exact ih (nodup_insertIdx h (by simpa using hnew.2) _)

/-- The tiles of an output in order, with so much pending. -/
def tilesOf (s : State) (n : Text) (pending : List (Window × Option Window)) : List Window :=
  Stack.pushNew (s.joinPending (s.windowsOn n) pending
    ((s.layout.order n).filter fun w => s.tileable w && (s.windowsOn n).contains w)).1
      ((s.windowsOn n).filter s.tileable)

theorem mem_windowsOn : w ∈ s.windowsOn n ↔ w ∈ s.elements ∧ s.windowHome w = some n := by
  simp [windowsOn]

theorem nodup_windowsOn (s : State) (n : Text) : (s.windowsOn n).Nodup :=
  s.space.stack.nodup.filter _

end State

/-- Every mapped window is owned by a connected output, in a tiling mode. -/
structure Homed (s : State) : Prop where
  tiling : s.layout.mode.isTiling = true
  owner : ∀ w ∈ s.elements, ∃ o ∈ s.outputs.list, (s.tile w).output = some o.name

namespace Homed

variable {s t : State} {w : Window} {n : Text}

theorem windowHome (h : Homed s) (hw : w ∈ s.elements) : s.windowHome w = (s.tile w).output := by
  obtain ⟨o, ho, hown⟩ := h.owner w hw
  rw [hown]
  exact State.windowHome_of_owner h.tiling (List.mem_map.mpr ⟨o, ho, rfl⟩) hown

theorem windowsOn (h : Homed s) (n : Text) :
    s.windowsOn n = s.elements.filter fun w => decide ((s.tile w).output = some n) :=
  List.filter_congr fun w hw => by rw [h.windowHome hw]

end Homed

/-- What arranging the outputs of some names does. -/
structure Arranged (s t : State) (names : List Text) : Prop where
  rest : t = { s with space := t.space, layout := t.layout }
  mode : t.layout.mode = s.layout.mode
  mem : ∀ w, w ∈ t.elements ↔ w ∈ s.elements
  stacked : ∀ m, t.elements.filter (fun w => decide ((s.tile w).output = some m)) =
    s.elements.filter fun w => decide ((s.tile w).output = some m)
  order : ∀ n ∈ names, ∃ pending, (∀ e ∈ pending, e ∈ s.layout.pending) ∧
    t.layout.order n = s.tilesOf n pending
  others : ∀ n, n ∉ names → t.layout.order n = s.layout.order n
  entries : ∀ e ∈ t.layout.outputs, (e.1 ∈ names → e.2 = t.layout.order e.1) ∧
    (e.1 ∉ names → e ∈ s.layout.outputs)
  pending : ∀ e ∈ t.layout.pending, e ∈ s.layout.pending ∧ ∀ n ∈ names, e.1 ∉ s.windowsOn n

namespace Arranged

variable {s t u : State} {names : List Text} {w : Window} {n : Text}

theorem tile (h : Arranged s t names) : t.tile = s.tile := by
  rw [h.rest]

theorem outputs (h : Arranged s t names) : t.outputs = s.outputs := by
  rw [h.rest]

theorem client (h : Arranged s t names) : t.client = s.client := by
  rw [h.rest]

theorem tileable (h : Arranged s t names) : t.tileable w = s.tileable w := by
  rw [State.tileable, State.tileable, State.isDialog, State.isDialog, h.client, h.tile]

theorem homed (h : Arranged s t names) (hs : Homed s) : Homed t := by
  refine ⟨h.mode.symm ▸ hs.tiling, fun w hw => ?_⟩
  rw [h.outputs, h.tile]
  exact hs.owner w ((h.mem w).mp hw)

theorem windowsOn (h : Arranged s t names) (hs : Homed s) (n : Text) :
    t.windowsOn n = s.windowsOn n := by
  rw [(h.homed hs).windowsOn, hs.windowsOn, h.tile]
  exact h.stacked n

theorem joinPending_congr (h : Arranged s t names) (halive : ∀ w, t.alive w = s.alive w)
    (windows : List Window) (pending : List (Window × Option Window)) (order : List Window) :
    t.joinPending windows pending order = s.joinPending windows pending order := by
  induction pending generalizing order with
  | nil => rfl
  | cons e pending ih =>
      obtain ⟨w, after⟩ := e
      rw [State.joinPending, State.joinPending, h.tileable, halive, ih, ih]

theorem tilesOf (h : Arranged s t names) (hs : Homed s) (hn : n ∉ names)
    (pending : List (Window × Option Window)) : t.tilesOf n pending = s.tilesOf n pending := by
  have halive : ∀ w, t.alive w = s.alive w := fun w => by
    rw [State.alive, State.alive, h.client]
  have htileable : t.tileable = s.tileable := funext fun w => h.tileable
  rw [State.tilesOf, State.tilesOf, h.windowsOn hs, h.others n hn, h.joinPending_congr halive,
    htileable]

theorem refl (s : State) : Arranged s s [] :=
  ⟨rfl, rfl, fun _ => Iff.rfl, fun _ => rfl, fun _ h => absurd h List.not_mem_nil, fun _ _ => rfl,
    fun _ he => ⟨fun h => absurd h List.not_mem_nil, fun _ => he⟩,
    fun _ he => ⟨he, fun _ h => absurd h List.not_mem_nil⟩⟩

theorem arrangeOutput (hs : Homed s) (g : Placement) (n : Text) :
    Arranged s (s.arrangeOutput g n) [n] := by
  let order := s.tilesOf n s.layout.pending
  let pending := (s.joinPending (s.windowsOn n) s.layout.pending
    ((s.layout.order n).filter fun w => s.tileable w && (s.windowsOn n).contains w)).2
  have hordered : s.orderTiles n =
      { s with layout := { s.layout.setOrder n order with pending := pending } } := rfl
  obtain ⟨space, hmoved, hitems⟩ := State.moveTargets_eq (s.orderTiles n) (s.windowsOn n)
    (g.targets (s.orderTiles n) n)
  have heq : s.arrangeOutput g n = { s with
      space := space
      layout := { s.layout.setOrder n order with pending := pending } } := by
    unfold State.arrangeOutput
    rw [if_pos hs.tiling, hmoved, hordered]
  have hitems : space.stack.items = s.elements ∨ space.stack.items =
      s.elements.filter (fun w => !(s.windowsOn n).contains w) ++
        s.elements.filter fun w => (s.windowsOn n).contains w := hitems
  rw [heq]
  refine ⟨rfl, rfl, ?_, ?_, ?_, ?_, ?_, ?_⟩
  · intro w
    change w ∈ space.stack.items ↔ _
    rcases hitems with h | h
    · rw [h]
    · rw [h, List.mem_append, List.mem_filter, List.mem_filter]
      cases (s.windowsOn n).contains w <;> simp
  · intro m
    refine Stack.filter_parted hitems (decide (m = n)) fun w hw hm => ?_
    have hm : (s.tile w).output = some m := by simpa using hm
    rw [List.contains_eq_mem]
    refine decide_eq_decide.mpr ?_
    rw [State.mem_windowsOn, hs.windowHome hw, hm, Option.some.injEq]
    exact and_iff_right hw
  · intro m hm
    rw [List.mem_singleton.mp hm]
    exact ⟨s.layout.pending, fun _ he => he, Layout.order_setOrder _ _ _⟩
  · intro m hm
    exact Layout.order_setOrder_of_ne _ (fun h => hm (List.mem_singleton.mpr h)) _
  · intro e he
    rcases List.mem_cons.mp he with rfl | he
    · exact ⟨fun _ => (Layout.order_setOrder _ _ _).symm,
        fun hno => absurd (List.mem_singleton_self n) hno⟩
    · obtain ⟨he, hne⟩ := List.mem_filter.mp he
      have hne : e.1 ≠ n := by simpa using hne
      exact ⟨fun hin => absurd (List.mem_singleton.mp hin) hne, fun _ => he⟩
  · intro e he
    obtain ⟨he, hout⟩ := State.mem_joinPending_pending he
    refine ⟨he, fun m hm => ?_⟩
    rw [List.mem_singleton.mp hm]
    exact hout

theorem cons (h : Arranged s t [n]) (h' : Arranged t u names) (hs : Homed s) (hn : n ∉ names) :
    Arranged s u (n :: names) := by
  refine ⟨?_, h'.mode.trans h.mode, fun w => (h'.mem w).trans (h.mem w), ?_, ?_, ?_, ?_, ?_⟩
  · have hu := h'.rest
    rw [h.rest] at hu
    exact hu
  · intro m
    rw [← h.stacked m, ← h.tile]
    exact h'.stacked m
  · intro m hm
    rcases List.mem_cons.mp hm with rfl | hm
    · obtain ⟨pending, hpending, horder⟩ := h.order m List.mem_cons_self
      exact ⟨pending, hpending, (h'.others m hn).trans horder⟩
    · have hmn : m ∉ [n] := fun h => hn (List.mem_singleton.mp h ▸ hm)
      obtain ⟨pending, hpending, horder⟩ := h'.order m hm
      refine ⟨pending, fun e he => (h.pending e (hpending e he)).1, ?_⟩
      rw [horder, h.tilesOf hs hmn]
  · intro m hm
    rw [h'.others m fun h => hm (List.mem_cons_of_mem n h),
      h.others m fun h => hm (List.mem_singleton.mp h ▸ List.mem_cons_self)]
  · intro e he
    obtain ⟨hin, hout⟩ := h'.entries e he
    by_cases hrest : e.1 ∈ names
    · exact ⟨fun _ => hin hrest, fun hno => absurd (List.mem_cons_of_mem n hrest) hno⟩
    · obtain ⟨hin', hout'⟩ := h.entries e (hout hrest)
      constructor
      · intro hmem
        rcases List.mem_cons.mp hmem with hen | hmem
        · rw [hin' (List.mem_singleton.mpr hen), h'.others _ hrest]
        · exact absurd hmem hrest
      · exact fun hno => hout' fun h => hno (List.mem_singleton.mp h ▸ List.mem_cons_self)
  · intro e he
    obtain ⟨het, hnames⟩ := h'.pending e he
    obtain ⟨hes, hone⟩ := h.pending e het
    refine ⟨hes, fun m hm => ?_⟩
    rcases List.mem_cons.mp hm with rfl | hm
    · exact hone m List.mem_cons_self
    · rw [← h.windowsOn hs]
      exact hnames m hm

theorem foldl (g : Placement) (outputs : List Output) (hdistinct : (outputs.map Output.name).Nodup)
    (hs : Homed s) : Arranged s (outputs.foldl (fun t o => t.arrangeOutput g o.name) s)
      (outputs.map Output.name) := by
  induction outputs generalizing s with
  | nil => exact refl s
  | cons o outputs ih =>
      have hone := arrangeOutput hs g o.name
      obtain ⟨hnew, hrest⟩ := List.nodup_cons.mp hdistinct
      exact hone.cons (ih hrest (hone.homed hs)) hs hnew

end Arranged

/-! ## A turn -/

/-- What a turn does in a tiling mode. -/
structure Turned (s t : State) : Prop where
  rest : t = { s with space := t.space, tile := t.tile, layout := t.layout }
  mode : t.layout.mode = s.layout.mode
  homed : Homed t
  mem : ∀ w, w ∈ t.elements ↔ w ∈ s.elements ∧ s.alive w = true
  stacked : ∀ n, t.windowsOn n =
    s.elements.filter fun w => s.alive w && decide ((t.tile w).output = some n)
  tileable : ∀ w, t.tileable w = s.tileable w
  owner : ∀ w n, n ∈ s.outputs.list.map Output.name → (s.tile w).output = some n →
    (t.tile w).output = some n
  order : ∀ n ∈ s.outputs.list.map Output.name, ∃ pending, (∀ e ∈ pending, e ∈ s.layout.pending) ∧
    t.layout.order n = Stack.pushNew (t.joinPending (t.windowsOn n) pending
      ((s.layout.order n).filter fun w => s.tileable w && (t.windowsOn n).contains w)).1
        ((t.windowsOn n).filter s.tileable)
  entries : ∀ e ∈ t.layout.outputs, e.1 ∈ s.outputs.list.map Output.name ∧
    e.2 = t.layout.order e.1
  pending : ∀ e ∈ t.layout.pending, e ∈ s.layout.pending ∧ e.1 ∉ t.elements

namespace Turned

variable {s t : State} {w : Window} {n : Text}

theorem outputs (h : Turned s t) : t.outputs = s.outputs := by
  rw [h.rest]

theorem alive (h : Turned s t) (w : Window) : t.alive w = s.alive w := by
  rw [h.rest]
  rfl

theorem mem_windowsOn (h : Turned s t) :
    w ∈ t.windowsOn n ↔ w ∈ t.elements ∧ (t.tile w).output = some n := by
  rw [h.homed.windowsOn, List.mem_filter, decide_eq_true_eq]

/-- The tiles of an output are the windows it owns that are no dialogs and do not float. -/
theorem mem_order (h : Turned s t) (hn : n ∈ s.outputs.list.map Output.name) :
    w ∈ t.layout.order n ↔
      w ∈ t.elements ∧ (t.tile w).output = some n ∧ t.tileable w = true := by
  obtain ⟨pending, -, horder⟩ := h.order n hn
  have htileable : s.tileable = t.tileable := funext fun w => (h.tileable w).symm
  rw [horder, Stack.pushNew_eq ((t.nodup_windowsOn n).filter _), List.mem_append,
    List.mem_filter, List.mem_filter, decide_eq_true_eq, State.mem_joinPending, List.mem_filter,
    htileable, Bool.and_eq_true, List.contains_iff_mem, h.mem_windowsOn]
  constructor
  · rintro ((⟨-, ht, hw⟩ | ⟨-, hw, ht⟩) | ⟨⟨hw, ht⟩, -⟩)
    · exact ⟨hw.1, hw.2, ht⟩
    · exact ⟨hw.1, hw.2, ht⟩
    · exact ⟨hw.1, hw.2, ht⟩
  · rintro ⟨hw, hown, ht⟩
    by_cases hin : (w ∈ s.layout.order n ∧ t.tileable w = true ∧
        w ∈ t.elements ∧ (t.tile w).output = some n) ∨ w ∈ pending.map Prod.fst ∧
          (w ∈ t.elements ∧ (t.tile w).output = some n) ∧ t.tileable w = true
    · exact .inl hin
    · exact .inr ⟨⟨⟨hw, hown⟩, ht⟩, hin⟩

end Turned

theorem State.turned_layoutTurn (s : State) (g : Placement)
    (htiling : s.layout.mode.isTiling = true)
    (houtputs : s.outputs.list ≠ []) : Turned s (s.layoutTurn g) := by
  let names := s.outputs.list.map Output.name
  let s₁ : State := { s with
    space := { s.space with stack := s.space.stack.retain s.alive }
    layout := { s.layout with
      outputs := s.layout.outputs.map fun e => (e.1, e.2.filter s.alive) } }
  let s₂ : State := { s₁.assignHomes with layout := { s₁.layout with
    outputs := s₁.layout.outputs.filter fun entry => s.outputs.list.any fun o => o.name == entry.1
    pending := if s.layout.mode.isTiling then s.layout.pending else [] } }
  have hmem₁ : ∀ w, w ∈ s₂.elements ↔ w ∈ s.elements ∧ s.alive w = true := fun w =>
    List.mem_filter
  have htile : ∀ w, w ∉ s₂.elements → s₂.tile w = s.tile w := fun w hw => if_neg hw
  have hhomes : ∀ w ∈ s₂.elements, ∃ o ∈ s.outputs.list, s₁.windowHome w = some o.name ∧
      s₂.tile w = { s.tile w with output := some o.name } := by
    intro w hw
    obtain ⟨o, ho, hhome⟩ := s₁.windowHome_isSome w houtputs
    exact ⟨o, ho, hhome, (if_pos hw).trans (by rw [hhome])⟩
  have hs₂ : Homed s₂ := by
    refine ⟨htiling, fun w hw => ?_⟩
    obtain ⟨o, ho, -, htw⟩ := hhomes w hw
    exact ⟨o, ho, by rw [htw]⟩
  have hturn : Arranged s₂ (s.layoutTurn g) names :=
    Arranged.foldl g s.outputs.list s.outputs.distinct hs₂
  have hpending₂ : s₂.layout.pending = s.layout.pending := if_pos htiling
  have htileable₂ : ∀ w, s₂.tileable w = s.tileable w := by
    intro w
    have hsame : (s₂.tile w).floating = (s.tile w).floating ∧
      (s₂.tile w).snap = (s.tile w).snap := by
      by_cases hw : w ∈ s₂.elements
      · obtain ⟨o, -, -, htw⟩ := hhomes w hw
        rw [htw]
        exact ⟨rfl, rfl⟩
      · rw [htile w hw]
        exact ⟨rfl, rfl⟩
    change (!s.isDialog w && !(s₂.tile w).floating && (s₂.tile w).snap.isNone) = _
    rw [hsame.1, hsame.2]
    rfl
  have horder₂ : ∀ n ∈ names, s₂.layout.order n = (s.layout.order n).filter s.alive := by
    intro n hn
    have hlookup : s₂.layout.outputs.lookup n = s₁.layout.outputs.lookup n := by
      refine Layout.lookup_filter fun e _ he => ?_
      obtain ⟨o, ho, hon⟩ := List.mem_map.mp hn
      exact List.any_eq_true.mpr ⟨o, ho, by rw [he, hon, beq_self_eq_true]⟩
    rw [Layout.order, hlookup, Layout.lookup_map, Layout.order]
    cases s.layout.outputs.lookup n <;> rfl
  have htileable : ∀ w, (s.layoutTurn g).tileable w = s.tileable w := fun w =>
    hturn.tileable.trans (htileable₂ w)
  have hjoin : ∀ windows pending order, (s.layoutTurn g).joinPending windows pending order =
      s₂.joinPending windows pending order := fun windows pending order =>
    hturn.joinPending_congr (fun w => by rw [State.alive, hturn.client, State.alive]) _ _ _
  refine ⟨?_, hturn.mode, hturn.homed hs₂, ?_, ?_, htileable, ?_, ?_, ?_, ?_⟩
  · rw [hturn.tile]
    exact hturn.rest
  · exact fun w => (hturn.mem w).trans (hmem₁ w)
  · intro n
    rw [hturn.windowsOn hs₂, hs₂.windowsOn, hturn.tile]
    change (s.elements.filter s.alive).filter _ = _
    rw [List.filter_filter]
    exact List.filter_congr fun w _ => Bool.and_comm _ _
  · intro w n hn hw
    rw [hturn.tile]
    by_cases hin : w ∈ s₂.elements
    · obtain ⟨o, -, hhome, htw⟩ := hhomes w hin
      rw [htw]
      exact hhome.symm.trans (State.windowHome_of_owner (s := s₁) htiling hn hw)
    · rw [htile w hin]
      exact hw
  · intro n hn
    obtain ⟨pending, hpending, horder⟩ := hturn.order n hn
    refine ⟨pending, fun e he => hpending₂ ▸ hpending e he, ?_⟩
    have hkept : (s₂.layout.order n).filter
      (fun w => s₂.tileable w && (s₂.windowsOn n).contains w) =
        (s.layout.order n).filter fun w => s.tileable w && (s₂.windowsOn n).contains w := by
      rw [horder₂ n hn, List.filter_filter]
      refine List.filter_congr fun w _ => ?_
      rw [htileable₂]
      by_cases hw : w ∈ s₂.windowsOn n
      · have halive : s.alive w = true := ((hmem₁ w).mp (State.mem_windowsOn.mp hw).1).2
        simp [halive]
      · simp [hw]
    rw [horder, State.tilesOf, hjoin, hturn.windowsOn hs₂, hkept,
      show s₂.tileable = s.tileable from funext htileable₂]
  · intro e he
    obtain ⟨hin, hout⟩ := hturn.entries e he
    have hname : e.1 ∈ names := by
      by_contra hno
      obtain ⟨o, ho, heq⟩ := List.any_eq_true.mp (List.mem_filter.mp (hout hno)).2
      exact hno (List.mem_map.mpr ⟨o, ho, by simpa using heq⟩)
    exact ⟨hname, hin hname⟩
  · intro e he
    obtain ⟨hes, hnames⟩ := hturn.pending e he
    refine ⟨hpending₂ ▸ hes, fun hin => ?_⟩
    have hin₂ := (hturn.mem e.1).mp hin
    obtain ⟨o, ho, -, htw⟩ := hhomes e.1 hin₂
    refine hnames o.name (List.mem_map.mpr ⟨o, ho, rfl⟩) ?_
    rw [State.mem_windowsOn, hs₂.windowHome hin₂, htw]
    exact ⟨hin₂, rfl⟩

end MindOS.Wm
