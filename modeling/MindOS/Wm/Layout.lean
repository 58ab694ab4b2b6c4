import MindOS.Wm.Windows

/-!
# The tile order

In a tiling mode each output has its tiles in an order. Arranging an output drops from
its order what is not a tile there any more and adds what has come; the rectangles
follow from the order. Where windows go is not looked at here, so what the layout
computes from geometry is a parameter.
-/

namespace MindOS.Wm

/-- What the layout computes from geometry. -/
structure Placement where
  /-- Where the windows of an output go. -/
  targets : State → Text → List (Window × Point) := fun _ _ => []
  /-- Where a maximised window that its client has as such goes back to. -/
  unmaximized : State → Window → Option (Option Point) := fun _ _ => none

namespace Layout

/-- The tiles of an output. -/
def order (l : Layout) (name : Text) : List Window := (l.outputs.lookup name).getD []

def setOrder (l : Layout) (name : Text) (order : List Window) : Layout :=
  { l with outputs := (name, order) :: l.outputs.filter fun entry => entry.1 ≠ name }

end Layout

namespace State

/-- The windows that live on an output, bottom to top. -/
def windowsOn (s : State) (name : Text) : List Window :=
  s.elements.filter fun w => s.windowHome w = some name

/-- New tiles go after the window that was focused when they opened. One that opened on
another output is picked up there. -/
def joinPending (s : State) (windows : List Window) :
    List (Window × Option Window) → List Window → List Window × List (Window × Option Window)
  | [], order => (order, [])
  | (w, after) :: rest, order =>
      if !windows.contains w || !s.tileable w || order.contains w then
        let (order, pending) := s.joinPending windows rest order
        (order, if !windows.contains w && s.alive w then (w, after) :: pending else pending)
      else
        let at' := ((after.bind fun a => order.idxOf? a).map (· + 1)).getD order.length
        s.joinPending windows rest (order.insertIdx at' w)

/-- The order of the tiles of an output, with the windows it has now. -/
def orderTiles (s : State) (name : Text) : State :=
  let windows := s.windowsOn name
  let kept := (s.layout.order name).filter fun w => s.tileable w && windows.contains w
  let (order, pending) := s.joinPending windows s.layout.pending kept
  let order := Stack.pushNew order (windows.filter s.tileable)
  { s with layout := { s.layout.setOrder name order with pending := pending } }

/-- Move what has to move, keeping the stacking order. -/
def moveTargets (s : State) (windows : List Window) (targets : List (Window × Point)) : State :=
  if targets.any fun (w, loc) => s.elementLocation w ≠ some loc then
    s.elements.foldl (fun t w =>
      if windows.contains w then
        match (targets.lookup w).or (t.elementLocation w) with
        | some loc => t.mapElement w loc
        | none => t
      else t) s
  else s

/-- Lay out every window on an output for the current mode. -/
def arrangeOutput (s : State) (g : Placement) (name : Text) : State :=
  let windows := s.windowsOn name
  let s := if s.layout.mode.isTiling then s.orderTiles name else s
  s.moveTargets windows (g.targets s name)

/-- Assign all homes before moving anything. -/
def assignHomes (s : State) : State :=
  { s with tile := fun w =>
    if w ∈ s.elements then
      match s.windowHome w with
      | some home => { s.tile w with output := some home }
      | none => s.tile w
    else s.tile w }

def arrangeAll (s : State) (g : Placement) : State :=
  let s := s.assignHomes
  let connected := s.layout.outputs.filter fun entry => s.outputs.list.any fun o =>
    o.name == entry.1
  let pending := if s.layout.mode.isTiling then s.layout.pending else []
  let s := { s with layout := { s.layout with outputs := connected, pending := pending } }
  s.outputs.list.foldl (fun t o => t.arrangeOutput g o.name) s

/-- What a turn of the event loop does for the layout: windows that are gone leave the
space and the tile orders, and everything is arranged. -/
def layoutTurn (s : State) (g : Placement) : State :=
  let space := { s.space with stack := s.space.stack.retain s.alive }
  let outputs := s.layout.outputs.map fun (name, order) => (name, order.filter s.alive)
  { s with space := space, layout := { s.layout with outputs := outputs } }.arrangeAll g

def unmaximizeWindow (s : State) (g : Placement) (w : Window) : State :=
  match g.unmaximized s w with
  | none => s
  | some back =>
      let client := Function.update s.client w { s.client w with pendingMaximized := false }
      match back with
      | none => { s with client := client }
      | some loc => { s with client := client }.mapElement w loc

/-- Switch the layout mode. A tiling mode starts from the stacking order and shows the
tiles right away, which a maximised window would hide. -/
def setLayoutMode (s : State) (g : Placement) (mode : LayoutMode) : State :=
  if s.layout.mode = mode then s
  else if mode.isTiling then
    s.elements.foldl
      (fun t w =>
        if (t.client w).pendingMaximized && t.tileable w then t.unmaximizeWindow g w else t)
      { s with layout := { mode := mode } }
  else { s with layout := { s.layout with mode := mode } }

end State

/-! ## What arranging does to the orders -/

namespace Layout

theorem lookup_filter {l : List (Text × List Window)} {n : Text} {p : Text × List Window → Bool}
    (h : ∀ e ∈ l, e.1 = n → p e = true) : (l.filter p).lookup n = l.lookup n := by
  induction l with
  | nil => rfl
  | cons e l ih =>
      obtain ⟨k, order⟩ := e
      have hrest := ih fun e he => h e (List.mem_cons_of_mem _ he)
      cases hp : p (k, order) with
      | true => rw [List.filter_cons_of_pos hp, List.lookup_cons, List.lookup_cons, hrest]
      | false =>
          have hn : (n == k) = false := by
            refine beq_false_of_ne fun hnk => ?_
            simpa [hp] using h (k, order) List.mem_cons_self hnk.symm
          rw [List.filter_cons_of_neg (by simp [hp]), hrest, List.lookup_cons, hn]

theorem lookup_map {l : List (Text × List Window)} {n : Text} (f : List Window → List Window) :
    (l.map fun (name, order) => (name, f order)).lookup n = (l.lookup n).map f := by
  induction l with
  | nil => rfl
  | cons e l ih =>
      obtain ⟨k, order⟩ := e
      rw [List.map_cons, List.lookup_cons, List.lookup_cons, ih]
      cases n == k <;> rfl

@[simp] theorem order_setOrder (l : Layout) (name : Text) (order : List Window) :
    (l.setOrder name order).order name = order := by
  simp [Layout.order, setOrder]

theorem order_setOrder_of_ne (l : Layout) {m n : Text} (h : n ≠ m) (order : List Window) :
    (l.setOrder m order).order n = l.order n := by
  have hn : (n == m) = false := by simpa using h
  rw [Layout.order, Layout.order, setOrder, List.lookup_cons, hn,
    lookup_filter fun e _ he => by simp [he, h]]

end Layout

namespace State

variable {s : State} {windows : List Window}

theorem joinPending_of_skip {pending : List (Window × Option Window)} {order : List Window}
    (h : ∀ e ∈ pending, windows.contains e.1 = true → s.tileable e.1 = true →
      order.contains e.1 = true) : (s.joinPending windows pending order).1 = order := by
  induction pending with
  | nil => rfl
  | cons e pending ih =>
      obtain ⟨w, after⟩ := e
      have hskip : (!windows.contains w || !s.tileable w || order.contains w) = true := by
        have hw := h (w, after) List.mem_cons_self
        cases hin : windows.contains w <;> cases ht : s.tileable w <;> simp_all
      rw [joinPending, if_pos hskip]
      exact ih fun e he => h e (List.mem_cons_of_mem _ he)

theorem filter_insertIdx_of_neg {l : List Window} {q : Window → Bool} {w : Window} {i : Nat}
    (hw : q w = false) : (l.insertIdx i w).filter q = l.filter q := by
  induction l generalizing i with
  | nil => cases i <;> simp [hw]
  | cons a l ih =>
      cases i with
      | zero => simp [hw]
      | succ i => simp [List.filter_cons, ih]

theorem filter_joinPending {pending : List (Window × Option Window)} {order : List Window}
    {q : Window → Bool} (h : ∀ e ∈ pending, q e.1 = false) :
    (s.joinPending windows pending order).1.filter q = order.filter q := by
  induction pending generalizing order with
  | nil => rfl
  | cons e pending ih =>
      obtain ⟨w, after⟩ := e
      have hrest : ∀ e ∈ pending, q e.1 = false := fun e he => h e (List.mem_cons_of_mem _ he)
      rw [joinPending]
      split
      · exact ih hrest
      · rw [ih hrest, filter_insertIdx_of_neg (h (w, after) List.mem_cons_self)]

theorem mem_joinPending {pending : List (Window × Option Window)} {order : List Window}
    {x : Window} : x ∈ (s.joinPending windows pending order).1 ↔
      x ∈ order ∨ (x ∈ pending.map Prod.fst ∧ x ∈ windows ∧ s.tileable x = true) := by
  induction pending generalizing order with
  | nil => simp [joinPending]
  | cons e pending ih =>
      obtain ⟨w, after⟩ := e
      rw [joinPending]
      split
      next hskip =>
        rw [ih]
        simp only [Bool.or_eq_true, Bool.not_eq_true', List.contains_eq_mem,
          decide_eq_false_iff_not, decide_eq_true_eq] at hskip
        constructor
        · rintro (h | ⟨h, hrest⟩)
          · exact .inl h
          · exact .inr ⟨List.mem_cons_of_mem _ h, hrest⟩
        · rintro (h | ⟨h, hin, ht⟩)
          · exact .inl h
          · rcases List.mem_cons.mp h with rfl | h
            · rcases hskip with (hno | hno) | hord
              · exact absurd hin hno
              · simp [ht] at hno
              · exact .inl hord
            · exact .inr ⟨h, hin, ht⟩
      next hnew =>
        simp only [Bool.or_eq_true, Bool.not_eq_true', List.contains_eq_mem,
          decide_eq_false_iff_not, decide_eq_true_eq, not_or, not_not, Bool.not_eq_false] at hnew
        have hle : (((after.bind fun a => order.idxOf? a).map (· + 1)).getD order.length) ≤
            order.length := by
          cases hat : after.bind fun a => order.idxOf? a with
          | none => exact le_refl _
          | some i =>
              obtain ⟨a, -, hi⟩ := Option.bind_eq_some_iff.mp hat
              exact (List.idxOf?_eq_some_iff.mp hi).1
        rw [ih, List.mem_insertIdx hle]
        constructor
        · rintro ((rfl | h) | ⟨h, hrest⟩)
          · exact .inr ⟨List.mem_cons_self, hnew.1.1, hnew.1.2⟩
          · exact .inl h
          · exact .inr ⟨List.mem_cons_of_mem _ h, hrest⟩
        · rintro (h | ⟨h, hrest⟩)
          · exact .inl (.inr h)
          · rcases List.mem_cons.mp h with rfl | h
            · exact .inl (.inl rfl)
            · exact .inr ⟨h, hrest⟩

theorem mem_joinPending_pending {pending : List (Window × Option Window)} {order : List Window}
    {e : Window × Option Window} (h : e ∈ (s.joinPending windows pending order).2) :
    e ∈ pending ∧ e.1 ∉ windows := by
  induction pending generalizing order with
  | nil => cases h
  | cons f pending ih =>
      obtain ⟨w, after⟩ := f
      rw [joinPending] at h
      split at h
      · simp only at h
        split at h
        next hout =>
          rcases List.mem_cons.mp h with rfl | h
          · exact ⟨List.mem_cons_self, by simpa using (Bool.and_eq_true_iff.mp hout).1⟩
          · exact ⟨List.mem_cons_of_mem _ (ih h).1, (ih h).2⟩
        next => exact ⟨List.mem_cons_of_mem _ (ih h).1, (ih h).2⟩
      · exact ⟨List.mem_cons_of_mem _ (ih h).1, (ih h).2⟩

end State

end MindOS.Wm
