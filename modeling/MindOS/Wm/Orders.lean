import MindOS.Shelves
import MindOS.Wm.Arrange

/-!
# One place for every tile

The orders of the outputs are edited by swapping and shifting tiles, by moving windows to other
outputs and by arranging, which reconciles them with the windows there are. Whatever happens, a
window stands in at most one order and there once; after an arrange in a tiling mode the tiles
are exactly what stands in the orders.
-/

namespace MindOS.Wm

namespace Layout

/-- The tiles of all outputs. -/
def tiles (l : Layout) : List Window := Shelves.all l.outputs

/-- Where two windows stand, output by output. -/
def found (l : Layout) (a b : Window) : List (Text × Nat) :=
  l.outputs.flatMap fun (name, order) =>
    ((order.idxOf? a).toList ++ (order.idxOf? b).toList).map fun i => (name, i)

/-- Move a tile one slot towards the start or the end of its output's order. -/
def shift (l : Layout) (w : Window) (towardsEnd : Bool) : Layout × Bool :=
  match l.outputs.find? fun e => e.2.contains w with
  | none => (l, false)
  | some (name, order) =>
      match order.idxOf? w with
      | none => (l, false)
      | some i =>
          -- one before the first slot wraps around
          let j := if towardsEnd then i + 1 else (i + (2 ^ 64 - 1)) % 2 ^ 64
          if order.length ≤ j then (l, false)
          else ({ l with outputs := Shelves.exchange l.outputs (name, i) (name, j) }, true)

/-- Note a new window; `after` is the window that had the focus. -/
def windowOpened (l : Layout) (w : Window) (after : Option Window) : Layout :=
  { l with pending := l.pending ++ [(w, after)] }

end Layout

namespace State

/-- Exchange the slots of two tiles, which may be on different outputs. -/
def swap (s : State) (a b : Window) : State :=
  if a = b then s
  else
    match s.layout.found a b with
    | [(na, ia), (nb, ib)] =>
        match Shelves.inSlot s.layout.outputs (na, ia),
          Shelves.inSlot s.layout.outputs (nb, ib) with
        | some wa, some wb =>
            let tile := Function.update s.tile wa { s.tile wa with output := some nb }
            { s with
              tile := Function.update tile wb { tile wb with output := some na }
              layout := { s.layout with
                outputs := Shelves.exchange s.layout.outputs (na, ia) (nb, ib) } }
        | _, _ => s
    | _ => s

/-- Give a window to another output; it leaves the order it stands in. -/
def moveToOutput (s : State) (w : Window) (dest : Option Text) : State :=
  { s with
    tile := Function.update s.tile w { s.tile w with output := dest }
    layout := { s.layout with
      outputs := s.layout.outputs.map fun (name, order) => (name, order.filter (· ≠ w)) } }

end State

/-- What happens to windows, outputs and the orders. -/
inductive Change where
  /-- A client says something else of its window, it becomes a dialog or goes. -/
  | client (w : Window) (client : Client)
  /-- A window is taken out of the tiling or put back, snapped, or given to another output. -/
  | tile (w : Window) (data : TileData)
  /-- Windows are mapped, unmapped or moved. -/
  | space (space : Space)
  | outputs (outputs : Outputs)
  | move (w : Window) (dest : Option Text)
  | opened (w : Window) (after : Option Window)
  | swap (a b : Window)
  | shift (w : Window) (towardsEnd : Bool)
  | arrange
  | mode (mode : LayoutMode)

namespace State

def change (s : State) (g : Placement) : Change → State
  | .client w client => { s with client := Function.update s.client w client }
  | .tile w data => { s with tile := Function.update s.tile w data }
  | .space space => { s with space := space }
  | .outputs outputs => { s with outputs := outputs }
  | .move w dest => s.moveToOutput w dest
  | .opened w after => { s with layout := s.layout.windowOpened w after }
  | .swap a b => s.swap a b
  | .shift w towardsEnd => { s with layout := (s.layout.shift w towardsEnd).1 }
  | .arrange => s.layoutTurn g
  | .mode mode => s.setLayoutMode g mode

def changes (s : State) (g : Placement) (cs : List Change) :
  State := cs.foldl (fun s c => s.change g c) s

end State

/-- The outputs differ and a window stands in at most one order, once. -/
structure Layout.Ordered (l : Layout) : Prop where
  names : (l.outputs.map Prod.fst).Nodup
  tiles : l.tiles.Nodup

namespace Layout.Ordered

variable {l : Layout} {n m : Text} {w : Window}

theorem empty (mode : LayoutMode) : Layout.Ordered { mode := mode } :=
  ⟨List.nodup_nil, List.nodup_nil⟩

theorem of_lookup (h : l.Ordered) {order : List Window} (hn : l.outputs.lookup n = some order) :
    order.Nodup :=
  (List.nodup_flatMap.mp h.tiles).1 (n, order) (Shelves.mem_of_lookup hn)

theorem nodup_order (h : l.Ordered) (n : Text) : (l.order n).Nodup := by
  rw [Layout.order]
  cases hn : l.outputs.lookup n with
  | none => exact List.nodup_nil
  | some order => exact h.of_lookup hn

theorem filterLists (h : l.Ordered) (keep : Window → Bool) :
    Layout.Ordered { l with outputs := l.outputs.map fun e => (e.1, e.2.filter keep) } := by
  refine ⟨?_, ?_⟩
  · rw [Shelves.names_filterLists]
    exact h.names
  · rw [Layout.tiles, Shelves.all_filterLists]
    exact h.tiles.filter keep

theorem sublist (h : l.Ordered) {outputs : List (Text × List Window)}
    (hsub : outputs.Sublist l.outputs) (pending : List (Window × Option Window)) :
    Layout.Ordered { l with outputs := outputs, pending := pending } :=
  ⟨(hsub.map Prod.fst).nodup h.names, (Shelves.all_sublist hsub).nodup h.tiles⟩

end Layout.Ordered

/-! ### Swapping and shifting -/

/-- What an edit of the orders does: it moves windows between the slots of some orders, and
leaves the other orders and the windows that wait alone. -/
structure Permutes (l l' : Layout) (touched : List Window) : Prop where
  names : l'.outputs.map Prod.fst = l.outputs.map Prod.fst
  tiles : l'.tiles.Perm l.tiles
  untouched : ∀ n, (∀ w ∈ touched, w ∉ l.order n) → l'.order n = l.order n
  pending : l'.pending = l.pending

theorem Permutes.ordered {l l' : Layout} {touched : List Window} (h : Permutes l l' touched)
    (hl : l.Ordered) : l'.Ordered :=
  ⟨h.names ▸ hl.names, h.tiles.nodup_iff.mpr hl.tiles⟩

theorem Permutes.refl (l : Layout) (touched : List Window) : Permutes l l touched :=
  ⟨rfl, .refl _, fun _ _ => rfl, rfl⟩

namespace Layout

variable {l : Layout} {a b w : Window} {n : Text}

theorem mem_of_idxOf? {order : List Window} {i : Nat} (h : order.idxOf? w = some i) :
    w ∈ order :=
  List.isSome_idxOf?.mp (by rw [h]; rfl)

theorem mem_order_of_entry (h : l.Ordered) {e : Text × List Window} (he : e ∈ l.outputs)
    (hw : w ∈ e.2) : w ∈ l.order e.1 := by
  rw [Layout.order, Shelves.lookup_of_mem h.names he]
  exact hw

theorem mem_of_found (h : l.Ordered) {slot : Text × Nat} (hslot : slot ∈ l.found a b) :
    ∃ w ∈ [a, b], w ∈ l.order slot.1 := by
  obtain ⟨e, he, hin⟩ := List.mem_flatMap.mp hslot
  obtain ⟨i, hi, rfl⟩ := List.mem_map.mp hin
  rw [List.mem_append, Option.mem_toList, Option.mem_toList] at hi
  obtain ha | hb := hi
  · exact ⟨a, List.mem_cons_self, mem_order_of_entry h he (mem_of_idxOf? ha)⟩
  · exact ⟨b, by simp, mem_order_of_entry h he (mem_of_idxOf? hb)⟩

theorem exchange_permutes (h : l.Ordered) {p q : Text × Nat} {touched : List Window}
    (hp : ∃ w ∈ touched, w ∈ l.order p.1) (hq : ∃ w ∈ touched, w ∈ l.order q.1) :
    Permutes l { l with outputs := Shelves.exchange l.outputs p q } touched := by
  refine ⟨Shelves.names_exchange _ _ _, Shelves.exchange_perm h.names, fun n hn => ?_, rfl⟩
  have hne {slot : Text × Nat} (hslot : ∃ w ∈ touched, w ∈ l.order slot.1) : n ≠ slot.1 := by
    rintro rfl
    obtain ⟨w, hw, hin⟩ := hslot
    exact hn w hw hin
  rw [Layout.order, Shelves.lookup_exchange_of_ne (hne hp) (hne hq)]
  rfl

theorem shift_permutes (h : l.Ordered) (w : Window) (towardsEnd : Bool) :
    Permutes l (l.shift w towardsEnd).1 [w] ∧
      ∀ n, ((l.shift w towardsEnd).1.order n).Perm (l.order n) := by
  have hsame : Permutes l l [w] ∧ ∀ n, (l.order n).Perm (l.order n) :=
    ⟨.refl l [w], fun n => .refl _⟩
  unfold shift
  split
  case h_1 => exact hsame
  case h_2 name order hfind =>
    split
    case h_1 => exact hsame
    case h_2 i hi =>
      extract_lets j
      split
      case isTrue => exact hsame
      case isFalse hj =>
        have hin : (name, order) ∈ l.outputs := List.mem_of_find?_eq_some hfind
        have hw : ∃ x ∈ [w], x ∈ l.order name :=
          ⟨w, List.mem_singleton_self w, mem_order_of_entry h hin (mem_of_idxOf? hi)⟩
        refine ⟨exchange_permutes h hw hw, fun n => ?_⟩
        by_cases hn : n = name
        · obtain ⟨hlt, -⟩ := List.idxOf?_eq_some_iff.mp hi
          have hlookup := Shelves.lookup_of_mem h.names hin
          obtain ⟨ys, hys, hperm⟩ :=
            Shelves.exchange_within hlt (Nat.lt_of_not_le hj) hlookup
          rw [hn, Layout.order, hys, Layout.order, hlookup]
          exact hperm
        · rw [Layout.order, Shelves.lookup_exchange_of_ne hn hn]
          rfl

end Layout

theorem State.swap_permutes {s : State} (h : s.layout.Ordered) (a b : Window) :
    Permutes s.layout (s.swap a b).layout [a, b] := by
  unfold swap
  split
  · exact .refl _ _
  · split
    case h_1 na ia nb ib hfound =>
      split
      · refine Layout.exchange_permutes h (Layout.mem_of_found h ?_) (Layout.mem_of_found h ?_)
        · rw [hfound]
          exact List.mem_cons_self
        · rw [hfound]
          exact List.mem_cons_of_mem _ List.mem_cons_self
      · exact .refl _ _
    case h_2 => exact .refl _ _

/-! ### Arranging -/

namespace State

variable {s : State} {windows : List Window}

theorem joinPending_waits {pending : List (Window × Option Window)} {order : List Window}
    {e : Window × Option Window} (he : e ∈ pending) (hout : e.1 ∉ windows)
    (halive : s.alive e.1 = true) : e ∈ (s.joinPending windows pending order).2 := by
  induction pending generalizing order with
  | nil => cases he
  | cons f pending ih =>
      obtain ⟨w, after⟩ := f
      rw [joinPending]
      obtain rfl | he := List.mem_cons.mp he
      · have hskip : windows.contains w = false := by simpa using hout
        have halive : s.alive w = true := halive
        simp only [hskip, halive, Bool.not_false, Bool.true_or, Bool.and_self, if_true]
        exact List.mem_cons_self
      · split
        · simp only
          split
          · exact List.mem_cons_of_mem _ (ih he)
          · exact ih he
        · exact ih he

theorem arrangeOutput_layout_of_floating (s : State) (g : Placement) (n : Text)
    (h : s.layout.mode.isTiling = false) : (s.arrangeOutput g n).layout = s.layout := by
  unfold arrangeOutput
  rw [if_neg (by simp [h])]
  obtain ⟨space, heq, -⟩ := moveTargets_eq s (s.windowsOn n) (g.targets s n)
  rw [heq]

theorem foldl_arrangeOutput_of_floating (g : Placement) (outputs : List Output)
    (h : s.layout.mode.isTiling = false) :
    (outputs.foldl (fun t o => t.arrangeOutput g o.name) s).layout = s.layout := by
  induction outputs generalizing s with
  | nil => rfl
  | cons o outputs ih =>
      have hone := s.arrangeOutput_layout_of_floating g o.name h
      rw [List.foldl_cons, ih (by rw [hone]; exact h), hone]

/-- What arranging outputs in a tiling mode keeps: the mode, the windows, that the outputs
differ, and who waits and is not mapped. -/
structure KeepsWaiting (s t : State) : Prop where
  mode : t.layout.mode = s.layout.mode
  client : t.client = s.client
  mem : ∀ w, w ∈ t.elements ↔ w ∈ s.elements
  names : (s.layout.outputs.map Prod.fst).Nodup → (t.layout.outputs.map Prod.fst).Nodup
  waits : ∀ e ∈ s.layout.pending, e.1 ∉ s.elements → s.alive e.1 = true → e ∈ t.layout.pending

theorem nodup_names_setOrder {l : Layout} (h : (l.outputs.map Prod.fst).Nodup) (n : Text)
    (order : List Window) : ((l.setOrder n order).outputs.map Prod.fst).Nodup := by
  refine List.nodup_cons.mpr ⟨fun hmem => ?_, (List.filter_sublist.map Prod.fst).nodup h⟩
  obtain ⟨e, he, hen⟩ := List.mem_map.mp hmem
  exact absurd hen (by simpa using (List.mem_filter.mp he).2)

theorem keepsWaiting_arrangeOutput (g : Placement) (n : Text)
    (h : s.layout.mode.isTiling = true) : KeepsWaiting s (s.arrangeOutput g n) := by
  obtain ⟨space, hmoved, hitems⟩ := moveTargets_eq (s.orderTiles n) (s.windowsOn n)
    (g.targets (s.orderTiles n) n)
  have heq : s.arrangeOutput g n = { s.orderTiles n with space := space } := by
    unfold arrangeOutput
    rw [if_pos h]
    exact hmoved
  rw [heq]
  refine ⟨rfl, rfl, fun w => ?_, fun hnames => nodup_names_setOrder hnames n _, ?_⟩
  · change w ∈ space.stack.items ↔ w ∈ s.elements
    have hitems : space.stack.items = s.elements ∨ space.stack.items =
        s.elements.filter (fun w => !(s.windowsOn n).contains w) ++
          s.elements.filter fun w => (s.windowsOn n).contains w := hitems
    obtain hsame | hparted := hitems
    · rw [hsame]
    · rw [hparted, List.mem_append, List.mem_filter, List.mem_filter]
      cases (s.windowsOn n).contains w <;> simp
  · intro e he hout halive
    exact joinPending_waits he (fun hin => hout (mem_windowsOn.mp hin).1) halive

theorem keepsWaiting_foldl (g : Placement) (outputs : List Output)
    (h : s.layout.mode.isTiling = true) :
    KeepsWaiting s (outputs.foldl (fun t o => t.arrangeOutput g o.name) s) := by
  induction outputs generalizing s with
  | nil => exact ⟨rfl, rfl, fun _ => Iff.rfl, fun hnames => hnames, fun _ he _ _ => he⟩
  | cons o outputs ih =>
      have hone := keepsWaiting_arrangeOutput g o.name h
      have hrest := ih (s := s.arrangeOutput g o.name) (by rw [hone.mode]; exact h)
      refine ⟨hrest.mode.trans hone.mode, hrest.client.trans hone.client,
        fun w => (hrest.mem w).trans (hone.mem w), fun hnames =>
          hrest.names (hone.names hnames), ?_⟩
      intro e he hout halive
      refine hrest.waits e (hone.waits e he hout halive) (fun hin => hout ((hone.mem _).mp hin)) ?_
      rw [alive, hone.client]
      exact halive

/-- The state in which a turn begins to arrange the outputs. -/
def readyToArrange (s : State) : State :=
  let s₁ : State := { s with
    space := { s.space with stack := s.space.stack.retain s.alive }
    layout := { s.layout with
      outputs := s.layout.outputs.map fun e => (e.1, e.2.filter s.alive) } }
  { s₁.assignHomes with layout := { s₁.layout with
    outputs := s₁.layout.outputs.filter fun entry => s.outputs.list.any fun o => o.name == entry.1
    pending := if s.layout.mode.isTiling then s.layout.pending else [] } }

theorem layoutTurn_eq (s : State) (g : Placement) : s.layoutTurn g =
    s.outputs.list.foldl (fun t o => t.arrangeOutput g o.name) s.readyToArrange :=
  rfl

theorem readyToArrange_ordered (h : s.layout.Ordered) : s.readyToArrange.layout.Ordered :=
  (h.filterLists s.alive).sublist List.filter_sublist _

theorem layoutTurn_waits (g : Placement) (h : s.layout.mode.isTiling = true)
    {e : Window × Option Window} (he : e ∈ s.layout.pending) (halive : s.alive e.1 = true) :
    e ∈ (s.layoutTurn g).layout.pending ∨ e.1 ∈ (s.layoutTurn g).elements := by
  have hturn := keepsWaiting_foldl (s := s.readyToArrange) g s.outputs.list h
  rw [← layoutTurn_eq] at hturn
  by_cases hin : e.1 ∈ (s.layoutTurn g).elements
  · exact .inr hin
  · refine .inl (hturn.waits e ?_ (fun hin' => hin ((hturn.mem _).mpr hin')) halive)
    have hpending : s.readyToArrange.layout.pending = s.layout.pending := if_pos h
    rw [hpending]
    exact he

theorem layoutTurn_ordered (h : s.layout.Ordered) (g : Placement) :
    (s.layoutTurn g).layout.Ordered := by
  have hready := readyToArrange_ordered h
  cases htiling : s.layout.mode.isTiling with
  | false =>
      rw [layoutTurn_eq,
        foldl_arrangeOutput_of_floating (s := s.readyToArrange) g s.outputs.list htiling]
      exact hready
  | true =>
      by_cases houtputs : s.outputs.list = []
      · rw [layoutTurn_eq, houtputs]
        exact hready
      have hnames := (keepsWaiting_foldl (s := s.readyToArrange) g s.outputs.list htiling).names
        hready.names
      rw [← layoutTurn_eq] at hnames
      have hturned := s.turned_layoutTurn g htiling houtputs
      refine ⟨hnames, Shelves.nodup_all hnames (fun e he => ?_) fun e he f hf w hw hw' => ?_⟩
      · obtain ⟨hname, horder⟩ := hturned.entries e he
        obtain ⟨pending, -, heq⟩ := hturned.order e.1 hname
        rw [horder, heq]
        exact Stack.nodup_pushNew (nodup_joinPending ((h.nodup_order e.1).filter _)) _
      · obtain ⟨hname, horder⟩ := hturned.entries e he
        obtain ⟨hname', horder'⟩ := hturned.entries f hf
        rw [horder, hturned.mem_order hname] at hw
        rw [horder', hturned.mem_order hname'] at hw'
        exact Option.some.inj (hw.2.1.symm.trans hw'.2.1)

/-- After a turn in a tiling mode a tile stands in the order of one output, once, and nothing
else stands in an order. -/
theorem layoutTurn_once (h : s.layout.Ordered) (g : Placement)
    (htiling : s.layout.mode.isTiling = true) (houtputs : s.outputs.list ≠ []) (w : Window) :
    let t := s.layoutTurn g
    (w ∈ t.elements → t.tileable w = true →
      ∃ n, (t.layout.order n).count w = 1 ∧ ∀ m, m ≠ n → w ∉ t.layout.order m) ∧
    ∀ n, w ∈ t.layout.order n → w ∈ t.elements ∧ t.tileable w = true := by
  intro t
  have hordered : t.layout.Ordered := layoutTurn_ordered h g
  have hturned : Turned s t := s.turned_layoutTurn g htiling houtputs
  have hconnected {n : Text} (hw : w ∈ t.layout.order n) : n ∈ s.outputs.list.map Output.name := by
    rw [Layout.order] at hw
    cases hlookup : t.layout.outputs.lookup n with
    | none => simp [hlookup] at hw
    | some order => exact (hturned.entries _ (Shelves.mem_of_lookup hlookup)).1
  refine ⟨fun hin ht => ?_, fun n hw => ?_⟩
  · obtain ⟨o, ho, howner⟩ := hturned.homed.owner w hin
    have hname : o.name ∈ s.outputs.list.map Output.name :=
      List.mem_map_of_mem (hturned.outputs ▸ ho)
    refine ⟨o.name, List.count_eq_one_of_mem (hordered.nodup_order _)
      ((hturned.mem_order hname).mpr ⟨hin, howner, ht⟩), fun m hm hw => hm ?_⟩
    have hother := ((hturned.mem_order (hconnected hw)).mp hw).2.1
    exact Option.some.inj (hother.symm.trans howner)
  · have hmem := (hturned.mem_order (hconnected hw)).mp hw
    exact ⟨hmem.1, hmem.2.2⟩

theorem unmaximizeWindow_layout (s : State) (g : Placement) (w : Window) :
    (s.unmaximizeWindow g w).layout = s.layout := by
  unfold unmaximizeWindow
  split
  · rfl
  · dsimp only
    split <;> rfl

theorem setLayoutMode_ordered (h : s.layout.Ordered) (g : Placement) (mode : LayoutMode) :
    (s.setLayoutMode g mode).layout.Ordered := by
  have hfold (ws : List Window) (t : State) (ht : t.layout.Ordered) :
      (ws.foldl (fun t w => if (t.client w).pendingMaximized && t.tileable w then
        t.unmaximizeWindow g w else t) t).layout.Ordered := by
    induction ws generalizing t with
    | nil => exact ht
    | cons w ws ih =>
        refine ih _ ?_
        dsimp only
        split
        · rw [unmaximizeWindow_layout]
          exact ht
        · exact ht
  unfold setLayoutMode
  split
  · exact h
  · split
    · exact hfold s.elements _ (.empty mode)
    · exact ⟨h.names, h.tiles⟩

theorem change_ordered (h : s.layout.Ordered) (g : Placement) (c : Change) :
    (s.change g c).layout.Ordered := by
  cases c with
  | client w client => exact h
  | tile w data => exact h
  | space space => exact h
  | outputs outputs => exact h
  | move w dest => exact h.filterLists _
  | opened w after => exact ⟨h.names, h.tiles⟩
  | swap a b => exact (swap_permutes h a b).ordered h
  | shift w towardsEnd => exact (Layout.shift_permutes h w towardsEnd).1.ordered h
  | arrange => exact layoutTurn_ordered h g
  | mode mode => exact setLayoutMode_ordered h g mode

theorem changes_ordered (h : s.layout.Ordered) (g : Placement) (cs : List Change) :
    (s.changes g cs).layout.Ordered := by
  induction cs generalizing s with
  | nil => exact h
  | cons c cs ih => exact ih (change_ordered h g c)

end State

/-- What holds of the orders of a state. -/
structure TileOrder (g : Placement) (s : State) : Prop where
  /-- After an arrange every tile is in the order of exactly one output, exactly once. -/
  once : s.layout.mode.isTiling = true → s.outputs.list ≠ [] →
    ∀ w, (w ∈ (s.layoutTurn g).elements → (s.layoutTurn g).tileable w = true →
      ∃ n, ((s.layoutTurn g).layout.order n).count w = 1 ∧
        ∀ m, m ≠ n → w ∉ (s.layoutTurn g).layout.order m) ∧
      ∀ n, w ∈ (s.layoutTurn g).layout.order n →
        w ∈ (s.layoutTurn g).elements ∧ (s.layoutTurn g).tileable w = true
  swap : ∀ a b, Permutes s.layout (s.swap a b).layout [a, b]
  shift : ∀ w towardsEnd, Permutes s.layout (s.layout.shift w towardsEnd).1 [w] ∧
    ∀ n, ((s.layout.shift w towardsEnd).1.order n).Perm (s.layout.order n)
  /-- Whatever comes but another mode, who waits goes on waiting, until an arrange finds the
  window mapped. -/
  waits : s.layout.mode.isTiling = true → ∀ c, (∀ mode, c ≠ .mode mode) →
    ∀ e ∈ s.layout.pending, s.alive e.1 = true →
      e ∈ (s.change g c).layout.pending ∨ c = .arrange ∧ e.1 ∈ (s.change g c).elements

theorem State.tileOrder {s : State} (h : s.layout.Ordered) (g : Placement) : TileOrder g s where
  once htiling houtputs w := layoutTurn_once h g htiling houtputs w
  swap := swap_permutes h
  shift := Layout.shift_permutes h
  waits htiling c hc e he halive := by
    cases c with
    | client w client => exact .inl he
    | tile w data => exact .inl he
    | space space => exact .inl he
    | outputs outputs => exact .inl he
    | move w dest => exact .inl he
    | opened w after => exact .inl (List.mem_append_left _ he)
    | swap a b => exact .inl ((swap_permutes h a b).pending ▸ he)
    | shift w towardsEnd => exact .inl ((Layout.shift_permutes h w towardsEnd).1.pending ▸ he)
    | arrange => exact (layoutTurn_waits g htiling he halive).imp_right fun hin => ⟨rfl, hin⟩
    | mode mode => exact absurd rfl (hc mode)

/-- From the start, whatever happens in whatever order. -/
theorem tile_order (g : Placement) (s : State) (mode : LayoutMode) (cs : List Change) :
    TileOrder g (State.changes { s with layout := { mode := mode } } g cs) :=
  State.tileOrder (State.changes_ordered (Layout.Ordered.empty mode) g cs) g

/-- In the floating mode no order is kept: a window on the screen, no dialog, stands in none. -/
theorem not_always_in_order : ¬∀ (g : Placement) (s : State) (mode : LayoutMode) (cs : List Change)
    (w : Window),
    let t := (State.changes { s with layout := { mode := mode } } g cs).layoutTurn g
    w ∈ t.elements → t.tileable w = true → ∃ n, (t.layout.order n).count w = 1 := by
  intro h
  let s : State := {
    space := { stack := ⟨[1], List.nodup_singleton 1⟩ }
    outputs := ⟨[⟨"DP-1".toList, ⟨⟨0, 0⟩, ⟨1920, 1080⟩⟩⟩], List.nodup_singleton _⟩ }
  obtain ⟨n, hn⟩ := h {} s .floating [] 1 (by decide) (by decide)
  cases hn

end MindOS.Wm
