import MindOS.Wm.Desk.Visits
import Mathlib.Data.Char
import Mathlib.Data.List.Lex

/-!
# A switch of desk and back, for the tiles

The order of the tiles is not saved with a desk. The tiles that are put away are stashed
in their order and come back in it, but what is on every desk stays in the order
meanwhile, and the window that has the keyboard again is raised above the others before
the layout adds them.
-/

namespace MindOS.Wm

open Places

variable {s t : State} {p : Window → Option Place} {w : Window}

/-! ## The tiles are stashed in their order -/

theorem slotLe_total (a b : Option (Text × Nat)) : slotLe a b = true ∨ slotLe b a = true := by
  rcases a with _ | ⟨m, i⟩
  · exact b.casesOn (.inl rfl) fun _ => .inr rfl
  · rcases b with _ | ⟨n, j⟩
    · exact .inl rfl
    · simp only [slotLe, Bool.or_eq_true, Bool.and_eq_true, decide_eq_true_eq, beq_iff_eq]
      rcases lt_trichotomy m n with h | rfl | h
      · exact .inl (.inl h)
      · exact (Nat.le_total i j).imp (fun h => .inr ⟨rfl, h⟩) fun h => .inr ⟨rfl, h⟩
      · exact .inr (.inl h)

theorem slotLe_trans {a b c : Option (Text × Nat)} (hab : slotLe a b = true)
    (hbc : slotLe b c = true) : slotLe a c = true := by
  rcases a with _ | ⟨m, i⟩ <;> rcases b with _ | ⟨n, j⟩ <;> rcases c with _ | ⟨k, l⟩ <;>
    simp only [slotLe, Bool.or_eq_true, Bool.and_eq_true, decide_eq_true_eq, beq_iff_eq,
      Bool.false_eq_true] at hab hbc ⊢
  rcases hab with hmn | ⟨rfl, hij⟩
  · rcases hbc with hnk | ⟨rfl, -⟩
    · exact .inl (hmn.trans hnk)
    · exact .inl hmn
  · rcases hbc with hnk | ⟨rfl, hjl⟩
    · exact .inl hnk
    · exact .inr ⟨rfl, hij.trans hjl⟩

theorem idxOf?_eq_some_idxOf {l : List Window} (h : w ∈ l) : l.idxOf? w = some (l.idxOf w) := by
  exact List.findIdx?_eq_some_iff_findIdx_eq.mpr ⟨List.idxOf_lt_length_of_mem h, rfl⟩

/-- Tiles of one output are stashed in the order that they have there. -/
theorem filter_stashOrder {n : Text} {order tiles stash : List Window}
    (htiling : s.layout.mode.isTiling = true) (hnodup : order.Nodup) (hstash : stash.Nodup)
    (htiles : tiles.Sublist order)
    (hslot : ∀ w ∈ tiles, s.slot w = some (n, order.idxOf w)) (hin : ∀ w ∈ tiles, w ∈ stash) :
    (s.stashOrder stash).filter (fun w => decide (w ∈ tiles)) = tiles := by
  have hle : ∀ a ∈ tiles, ∀ b ∈ tiles,
      slotLe (s.slot a) (s.slot b) = true ↔ order.idxOf a ≤ order.idxOf b := by
    intro a ha b hb
    rw [hslot a ha, hslot b hb]
    simp [slotLe]
  have : Std.Total fun a b => slotLe (s.slot a) (s.slot b) = true := ⟨fun a b => slotLe_total _ _⟩
  have : IsTrans Window fun a b => slotLe (s.slot a) (s.slot b) = true :=
    ⟨fun a b c => slotLe_trans⟩
  have hsorted : (s.stashOrder stash).Pairwise fun a b => slotLe (s.slot a) (s.slot b) = true := by
    rw [State.stashOrder, if_pos htiling]
    exact List.pairwise_insertionSort _ stash
  have hplaces : order.Pairwise fun a b => order.idxOf a ≤ order.idxOf b := by
    rw [List.pairwise_iff_getElem]
    intro i j hi hj hij
    rw [hnodup.idxOf_getElem i hi, hnodup.idxOf_getElem j hj]
    exact hij.le
  refine List.Perm.eq_of_pairwise ?_ (hsorted.filter _) ?_ ?_
  · intro a b ha hb hab hba
    have ha : a ∈ tiles := by simpa using (List.mem_filter.mp ha).2
    have hidx := le_antisymm ((hle a ha b hb).mp hab) ((hle b hb a ha).mp hba)
    exact (List.idxOf_inj (htiles.subset ha)).mp hidx
  · refine (hplaces.sublist htiles).imp_of_mem fun {a b} ha hb hab => (hle a ha b hb).mpr hab
  · refine (List.perm_ext_iff_of_nodup ?_ (hnodup.sublist htiles)).mpr fun w => ?_
    · exact ((stashOrder_perm s stash).nodup_iff.mpr hstash).filter _
    · rw [List.mem_filter, (stashOrder_perm s stash).mem_iff, decide_eq_true_eq]
      exact ⟨And.right, fun hw => ⟨hin w hw, hw⟩⟩

/-! ## The window that is raised -/

/-- Of what is no dialog, only the window that is activated is raised. -/
theorem filter_activateWindow {q : Window → Bool}
    (hq : ∀ x, q x = true → (s.client x).parent = none) (hlocked : s.locked = false)
    (hmin : s.isMinimized w = false) (hst : s.isStashed w = false) :
    (s.activateWindow w).elements.filter q = (s.space.stack.raise w).items.filter q := by
  obtain ⟨dialogs, hgroup, hdialogs⟩ := s.group_eq w
  have hneg : ∀ x ∈ dialogs, q x = false := by
    intro x hx
    by_contra hqx
    exact hdialogs x hx (hq x (by simpa using hqx))
  unfold State.activateWindow
  rw [hlocked, hmin, hst, if_neg (by simp)]
  simp only
  rw [State.foldl_raiseElement_eq]
  obtain ⟨focus, hfocus⟩ := State.focusWindow_eq
    { s with space := { s.space with stack := (s.group w).foldl Stack.raise s.space.stack } }
    ((s.group w).getLast?.getD w)
  rw [hfocus, hgroup]
  exact Stack.filter_foldl_raise_of_neg hneg

/-- The window that takes the keyboard on a desk, if it is one of these. -/
def raisedFrom (s : State) (desk : Text) (tiles : List Window) : List Window :=
  if s.locked then tiles
  else
    match s.desks.lastFocus desk with
    | some f => if f ∈ tiles then Stack.toEnd tiles f else tiles
    | none => tiles

/-- Tiles of a desk that is gone to are stacked as they came, but for the one that had the
keyboard there. -/
theorem filter_focusDesk (h : Reflects s p) {desk : Text} {tiles : List Window}
    (hin : s.elements.filter (fun w => decide (w ∈ tiles)) = tiles)
    (hparent : ∀ w ∈ tiles, (s.client w).parent = none)
    (hdesk : ∀ w ∈ tiles, s.windowDesk w = desk ∧ s.windowSticky w = false) :
    (s.focusDesk desk).elements.filter (fun w => decide (w ∈ tiles)) =
      raisedFrom s desk tiles := by
  have hmapped : ∀ w ∈ tiles, w ∈ s.elements := fun w hw => by
    rw [← hin] at hw
    exact List.mem_of_mem_filter hw
  have hparent' : ∀ x, decide (x ∈ tiles) = true → (s.client x).parent = none := fun x hx =>
    hparent x (by simpa using hx)
  have hactivate : ∀ w ∈ s.elements, (s.activateWindow w).elements.filter
      (fun w => decide (w ∈ tiles)) =
        if s.locked then tiles else if w ∈ tiles then Stack.toEnd tiles w else tiles := by
    intro w hw
    have hp := h.mem_elements.mp hw
    cases hlocked : s.locked with
    | true =>
        have hnone : s.activateWindow w = s := by simp [State.activateWindow, hlocked]
        rw [hnone]
        exact hin
    | false =>
        rw [filter_activateWindow hparent' hlocked (by simp [h.isMinimized, hp])
          (by simp [h.isStashed, hp])]
        by_cases htile : w ∈ tiles
        · have hraise := Stack.filter_raise_of_pos (s := s.space.stack)
            (p := fun x => decide (x ∈ tiles)) hw (decide_eq_true htile)
          rw [hraise, if_neg (by simp), if_pos htile]
          exact congrArg (Stack.toEnd · w) hin
        · have hraise := Stack.filter_raise_of_neg (s := s.space.stack)
            (p := fun x => decide (x ∈ tiles)) (decide_eq_false htile)
          rw [hraise, if_neg (by simp), if_neg htile]
          exact hin
  -- without a window to go back to, the top window of the desk is raised already
  have htop : ∀ t, t = (match s.elements.reverse.find? fun w =>
      decide (s.windowDesk w = desk) && !s.windowSticky w with
      | some w => s.activateWindow w
      | none => s.refreshFocus) → t.elements.filter (fun w => decide (w ∈ tiles)) = tiles := by
    rintro t rfl
    split
    next top hfind =>
      have hmem : top ∈ s.elements := List.mem_reverse.mp (List.mem_of_find?_eq_some hfind)
      rw [hactivate top hmem]
      split
      · rfl
      · split
        next htile =>
          obtain ⟨-, l₁, l₂, hsplit, hbefore⟩ := List.find?_eq_some_iff_append.mp hfind
          have helements : s.elements = l₂.reverse ++ [top] ++ l₁.reverse := by
            rw [← List.reverse_reverse s.elements, hsplit]
            simp
          have habove : l₁.reverse.filter (fun w => decide (w ∈ tiles)) = [] := by
            refine List.filter_eq_nil_iff.mpr fun w hw hin => ?_
            have hno := hbefore w (List.mem_reverse.mp hw)
            obtain ⟨hd, hs⟩ := hdesk w (by simpa using hin)
            simp [hd, hs] at hno
          have htiles : tiles = l₂.reverse.filter (fun w => decide (w ∈ tiles)) ++ [top] := by
            have hone : [top].filter (fun w => decide (w ∈ tiles)) = [top] := by simp [htile]
            rw [helements, List.filter_append, habove, List.append_nil, List.filter_append,
              hone] at hin
            exact hin.symm
          have hnew : top ∉ l₂.reverse.filter (fun w => decide (w ∈ tiles)) := by
            have hnodup := s.nodup_elements
            rw [helements, List.append_assoc, List.nodup_append] at hnodup
            intro h
            exact hnodup.2.2 top (List.mem_of_mem_filter h) top (by simp) rfl
          rw [htiles]
          exact Stack.toEnd_append_singleton hnew
        next => rfl
    next =>
      obtain ⟨focus, hfocus⟩ := s.refreshFocus_eq
      rw [hfocus]
      exact hin
  unfold State.focusDesk raisedFrom
  cases hlast : s.desks.lastFocus desk with
  | some f =>
      by_cases hf : f ∈ s.elements
      · rw [Option.bind_some, find?_eq_self, if_pos hf]
        exact hactivate f hf
      · have htile : f ∉ tiles := fun htile => hf (hmapped f htile)
        rw [Option.bind_some, find?_eq_self, if_neg hf]
        simp only [if_neg htile, ite_self]
        exact htop _ rfl
  | none =>
      simp only [ite_self]
      exact htop _ rfl

/-! ## The orders that the layout has arranged -/

theorem Turned.nodup_order (h : Turned s t) {n : Text} (hn : n ∈ s.outputs.list.map Output.name)
    (hs : (s.layout.order n).Nodup) : (t.layout.order n).Nodup := by
  obtain ⟨pending, -, horder⟩ := h.order n hn
  rw [horder]
  exact Stack.nodup_pushNew (State.nodup_joinPending (hs.filter _)) _

theorem findSome?_eq_some {α β : Type} {l : List α} {f : α → Option β} {x : β}
    (hall : ∀ e ∈ l, f e = none ∨ f e = some x)
    (hex : ∃ e ∈ l, f e = some x) : l.findSome? f = some x := by
  induction l with
  | nil =>
      obtain ⟨e, he, -⟩ := hex
      cases he
  | cons a l ih =>
      rw [List.findSome?_cons]
      rcases hall a List.mem_cons_self with ha | ha
      · rw [ha]
        refine ih (fun e he => hall e (List.mem_cons_of_mem a he)) ?_
        obtain ⟨e, he, hx⟩ := hex
        rcases List.mem_cons.mp he with rfl | he
        · rw [ha] at hx
          cases hx
        · exact ⟨e, he, hx⟩
      · rw [ha]

theorem Turned.slot (h : Turned s t) {n : Text} (hn : n ∈ s.outputs.list.map Output.name)
    (hw : w ∈ t.layout.order n) : t.slot w = some (n, (t.layout.order n).idxOf w) := by
  have hown := ((h.mem_order hn).mp hw).2.1
  refine findSome?_eq_some ?_ ?_
  · rintro ⟨m, order⟩ he
    obtain ⟨hname, horder⟩ := h.entries _ he
    dsimp only at hname horder ⊢
    by_cases hin : w ∈ order
    · have hsame : m = n := Option.some.inj
        ((((h.mem_order hname).mp (horder ▸ hin)).2.1).symm.trans hown)
      right
      rw [idxOf?_eq_some_idxOf hin, horder, hsame]
      rfl
    · left
      rw [List.idxOf?_eq_none_iff.mpr hin]
      rfl
  · cases hlookup : t.layout.outputs.lookup n with
    | none =>
        rw [Layout.order, hlookup] at hw
        cases hw
    | some order =>
        have horder : t.layout.order n = order := by
          rw [Layout.order, hlookup]
          rfl
        refine ⟨(n, order), ?_, ?_⟩
        · obtain ⟨l₁, l₂, hsplit, -⟩ := List.lookup_eq_some_iff.mp hlookup
          rw [hsplit]
          exact List.mem_append_right _ List.mem_cons_self
        · rw [horder] at hw ⊢
          dsimp only
          rw [idxOf?_eq_some_idxOf hw]
          rfl

/-- The orders of the outputs hold the tiles, as a turn leaves them. -/
structure Ordered (s : State) : Prop where
  mem : ∀ n ∈ s.outputs.list.map Output.name, ∀ w, w ∈ s.layout.order n ↔
    w ∈ s.elements ∧ (s.tile w).output = some n ∧ s.tileable w = true
  slot : ∀ n ∈ s.outputs.list.map Output.name, ∀ w ∈ s.layout.order n,
    s.slot w = some (n, (s.layout.order n).idxOf w)
  nodup : ∀ n ∈ s.outputs.list.map Output.name, (s.layout.order n).Nodup
  pending : ∀ e ∈ s.layout.pending, e.1 ∉ s.elements

/-! ## There and back -/

/-- A window that the current desk shows when it is come back to. -/
def State.belongs (s : State) (w : Window) : Bool :=
  s.windowSticky w || s.windowDesk w == s.desks.current

/-- A visit to another desk, and one to the desk that was left. -/
structure RoundTrip (s u v u' t : State) (desk : Text) : Prop where
  ready : ∃ p, Ready s p
  ordered : Ordered s
  out : Visited s u v desk
  back : Visited v u' t s.desks.current
  named : s.desks.current ≠ []
  target : desk ≠ []
  other : s.desks.current ≠ desk

namespace RoundTrip

variable {u v u' : State} {desk n : Text}

/-- The other desk shows what is on every desk, and nothing else of this one. -/
theorem comes_out (h : RoundTrip s u v u' t desk) (hw : s.belongs w = true) :
    s.comes desk w = s.windowSticky w := by
  unfold State.comes
  cases hsticky : s.windowSticky w with
  | true => rfl
  | false =>
      have hdesk : s.windowDesk w = s.desks.current := by simpa [State.belongs, hsticky] using hw
      have hname : s.desks.current.isEmpty = false := by simpa using h.named
      rw [hdesk, hname, Bool.false_or, Bool.false_or]
      exact beq_false_of_ne h.other

theorem comes_back (h : RoundTrip s u v u' t desk) (hw : w ∈ s.allWindows) :
    v.comes s.desks.current w = s.belongs w := by
  have htag : v.windowDesk w = if (s.windowDesk w).isEmpty || s.windowSticky w then desk
      else s.windowDesk w := by
    rw [State.windowDesk, h.out.deskTag, h.out.went.deskTag w hw, Option.getD_some]
  unfold State.comes State.belongs
  rw [h.out.windowSticky, htag]
  have hother : (desk == s.desks.current) = false := beq_false_of_ne h.other.symm
  have hempty : desk.isEmpty = false := by simpa using h.target
  cases hsticky : s.windowSticky w with
  | true => rfl
  | false =>
      cases hd : (s.windowDesk w).isEmpty with
      | true =>
          have hnil : s.windowDesk w = [] := by simpa using hd
          have hnamed : ([] == s.desks.current) = false := beq_false_of_ne h.named.symm
          simp [hnil, hother, hempty, hnamed]
      | false => simp [hd]

/-- What the desk shows in the end was mapped or put away in the beginning, and belongs. -/
theorem mem_elements (h : RoundTrip s u v u' t desk) : w ∈ t.elements ↔
    (w ∈ s.elements ∨ w ∈ s.stashedWindows) ∧ s.belongs w = true := by
  have hmanaged : w ∈ v.elements ∨ w ∈ v.stashedWindows ↔
      w ∈ s.elements ∨ w ∈ s.stashedWindows := by
    rw [h.out.mem_elements, h.out.stashedWindows, h.out.went.stashed, List.mem_append,
      mem_stashOrder, List.mem_filter, List.mem_filter]
    cases s.comes desk w <;> simp [or_comm]
  rw [h.back.mem_elements, hmanaged]
  refine and_congr_right fun hw => ?_
  rw [h.comes_back]
  rw [State.allWindows, List.mem_append, List.mem_append]
  exact .inl hw

theorem outputs (h : RoundTrip s u v u' t desk) : t.outputs = s.outputs := by
  rw [h.back.outputs, h.out.outputs]

theorem tileable (h : RoundTrip s u v u' t desk) (w : Window) : t.tileable w = s.tileable w := by
  rw [h.back.tileable, h.out.tileable]

theorem owner (h : RoundTrip s u v u' t desk) (n : Text) (hw : w ∈ s.elements) :
    ((v.tile w).output = some n ↔ (s.tile w).output = some n) ∧
      ((t.tile w).output = some n ↔ (s.tile w).output = some n) := by
  obtain ⟨p, hready⟩ := h.ready
  obtain ⟨o, ho, hown⟩ := hready.homed.owner w hw
  have hname : o.name ∈ s.outputs.list.map Output.name := List.mem_map.mpr ⟨o, ho, rfl⟩
  have hv : (v.tile w).output = some o.name := by
    refine h.out.turned.owner w o.name ?_ ?_
    · rw [h.out.outputs_focusDesk]
      exact hname
    · rw [h.out.tile_focusDesk]
      exact hown
  have ht : (t.tile w).output = some o.name := by
    refine h.back.turned.owner w o.name ?_ ?_
    · rw [h.back.outputs_focusDesk, h.out.outputs]
      exact hname
    · rw [h.back.tile_focusDesk]
      exact hv
  rw [hv, ht, hown]
  exact ⟨Iff.rfl, Iff.rfl⟩

theorem mem_order (h : RoundTrip s u v u' t desk) (hn : n ∈ s.outputs.list.map Output.name) :
    w ∈ t.layout.order n ↔
      w ∈ t.elements ∧ (t.tile w).output = some n ∧ s.tileable w = true := by
  have hn' : n ∈ (u'.focusDesk s.desks.current).outputs.list.map Output.name := by
    rw [h.back.outputs_focusDesk, h.out.outputs]
    exact hn
  rw [h.back.turned.mem_order hn', h.tileable]

end RoundTrip

/-- The tiles of an output keep their order over a visit to another desk: they belong to
the desk and nothing that is put away does, those on every desk come first, and of the
others the last one has the keyboard if any has it. -/
structure KeepsTiles (s : State) (n : Text) : Prop where
  belong : ∀ w ∈ s.layout.order n, s.belongs w = true
  alone : ∀ w ∈ s.stashedWindows, s.tileable w = true → s.belongs w = false
  stickyFirst : (s.layout.order n).Pairwise fun a b =>
    s.windowSticky b = true → s.windowSticky a = true
  focusLast : s.locked = false →
    ∀ f ∈ s.focusedWindow.or (s.desks.lastFocus s.desks.current), f ∈ s.layout.order n →
      s.windowSticky f = false → (s.layout.order n).getLast? = some f

namespace RoundTrip

variable {u v u' : State} {desk n : Text}

/-- When nothing that is put away belongs, what is a tile in the end was mapped. -/
theorem mapped (h : RoundTrip s u v u' t desk)
    (halone : ∀ w ∈ s.stashedWindows, s.tileable w = true → s.belongs w = false)
    (hw : w ∈ t.elements) (htile : s.tileable w = true) :
    w ∈ s.elements ∧ s.belongs w = true := by
  obtain ⟨hin, hbelongs⟩ := h.mem_elements.mp hw
  refine ⟨hin.resolve_right fun hst => ?_, hbelongs⟩
  rw [halone w hst htile] at hbelongs
  cases hbelongs

/-- The tiles that belong to the desk alone are stashed in their order on the other one. -/
theorem filter_stashed (h : RoundTrip s u v u' t desk)
    (hn : n ∈ s.outputs.list.map Output.name)
    (hbelong : ∀ w ∈ s.layout.order n, s.belongs w = true) {tiles : List Window}
    (htiles : tiles = (s.layout.order n).filter fun w => !s.windowSticky w) :
    u'.elements.filter (fun w => decide (w ∈ tiles)) = tiles := by
  obtain ⟨p, hready⟩ := h.ready
  have hmem : ∀ w ∈ tiles, w ∈ s.layout.order n ∧ s.windowSticky w = false := by
    intro w hw
    rw [htiles, List.mem_filter, Bool.not_eq_true'] at hw
    exact hw
  have hmapped : ∀ w ∈ tiles, w ∈ s.elements := fun w hw =>
    ((h.ordered.mem n hn w).mp (hmem w hw).1).1
  have haway : ∀ w ∈ tiles, s.comes desk w = false := fun w hw => by
    rw [h.comes_out (hbelong w (hmem w hw).1)]
    exact (hmem w hw).2
  have hcomes : ∀ w ∈ tiles, v.comes s.desks.current w = true := fun w hw => by
    rw [h.comes_back]
    · exact hbelong w (hmem w hw).1
    · rw [State.allWindows, List.mem_append, List.mem_append]
      exact .inl (.inl (hmapped w hw))
  have hshown : v.elements.filter (fun w =>
      decide (w ∈ tiles) && v.comes s.desks.current w) = [] := by
    refine List.filter_eq_nil_iff.mpr fun w hw hin => ?_
    have hin : w ∈ tiles := by simpa using (Bool.and_eq_true_iff.mp hin).1
    have hshows := (h.out.mem_elements.mp hw).2
    rw [haway w hin] at hshows
    cases hshows
  have hbefore : (s.stashedWindows.filter fun w => !s.comes desk w).filter (fun w =>
      decide (w ∈ tiles)) = [] := by
    refine List.filter_eq_nil_iff.mpr fun w hw hin => ?_
    refine hready.reflects.disjoint (a := .space) (b := .stashed) (by decide)
      (hmapped w (by simpa using hin)) (List.mem_of_mem_filter hw)
  have hkeep : ∀ l : List Window, l.filter (fun w =>
      decide (w ∈ tiles) && v.comes s.desks.current w) = l.filter fun w => decide (w ∈ tiles) := by
    intro l
    refine List.filter_congr fun w _ => ?_
    by_cases hw : w ∈ tiles
    · simp [hw, hcomes w hw]
    · simp [hw]
  rw [h.back.went.elements, List.filter_append, List.filter_filter, List.filter_filter, hshown,
    List.nil_append, hkeep, h.out.stashedWindows, h.out.went.stashed, List.filter_append, hbefore,
    List.nil_append]
  refine filter_stashOrder (n := n) hready.homed.tiling (h.ordered.nodup n hn)
    (s.nodup_elements.filter _) (htiles ▸ List.filter_sublist) ?_ ?_
  · exact fun w hw => h.ordered.slot n hn w (hmem w hw).1
  · exact fun w hw => List.mem_filter.mpr ⟨hmapped w hw, by simp [haway w hw]⟩

theorem mem_windowsOn_out (h : RoundTrip s u v u' t desk) :
    w ∈ v.windowsOn n ↔ w ∈ v.elements ∧ (v.tile w).output = some n :=
  h.out.turned.mem_windowsOn

theorem mem_windowsOn_back (h : RoundTrip s u v u' t desk) :
    w ∈ t.windowsOn n ↔ w ∈ t.elements ∧ (t.tile w).output = some n :=
  h.back.turned.mem_windowsOn

/-- What stays in the order over the visit: the tiles that are on every desk. -/
theorem filter_order_out (h : RoundTrip s u v u' t desk)
    (hn : n ∈ s.outputs.list.map Output.name)
    (hbelong : ∀ w ∈ s.layout.order n, s.belongs w = true)
    (halone : ∀ w ∈ s.stashedWindows, s.tileable w = true → s.belongs w = false) :
    (v.layout.order n).filter (fun w => s.tileable w && (t.windowsOn n).contains w) =
      (s.layout.order n).filter s.windowSticky := by
  have hn' : n ∈ (u.focusDesk desk).outputs.list.map Output.name := by
    rw [h.out.outputs_focusDesk]
    exact hn
  have htileable : (u.focusDesk desk).tileable = s.tileable := funext fun w => by
    rw [← h.out.turned.tileable, h.out.tileable]
  obtain ⟨pending, hpending, horder⟩ := h.out.turned.order n hn'
  rw [h.out.layout_focusDesk] at hpending horder
  rw [htileable] at horder
  have hkept : ((s.layout.order n).filter fun w =>
      s.tileable w && (v.windowsOn n).contains w).filter (fun w =>
        s.tileable w && (t.windowsOn n).contains w) =
      (s.layout.order n).filter s.windowSticky := by
    rw [List.filter_filter]
    refine List.filter_congr fun w hw => ?_
    obtain ⟨hin, hown, htile⟩ := (h.ordered.mem n hn w).mp hw
    have hout : w ∈ v.windowsOn n ↔ s.windowSticky w = true := by
      rw [h.mem_windowsOn_out, h.out.mem_elements, h.comes_out (hbelong w hw),
        (h.owner n hin).1]
      exact ⟨fun hw => hw.1.2, fun hs => ⟨⟨.inl hin, hs⟩, hown⟩⟩
    have hback : w ∈ t.windowsOn n := by
      rw [h.mem_windowsOn_back, h.mem_elements, (h.owner n hin).2]
      exact ⟨⟨.inl hin, hbelong w hw⟩, hown⟩
    cases hs : s.windowSticky w <;> simp [htile, hback, hout, hs]
  have hskip : ∀ e ∈ pending, (s.tileable e.1 && (t.windowsOn n).contains e.1) = false := by
    intro e he
    by_contra hq
    rw [Bool.not_eq_false, Bool.and_eq_true, List.contains_iff_mem, h.mem_windowsOn_back] at hq
    exact h.ordered.pending e (hpending e he) (h.mapped halone hq.2.1 hq.1).1
  have hnew : ((v.windowsOn n).filter s.tileable).filter (fun w =>
      decide (w ∉ (v.joinPending (v.windowsOn n) pending ((s.layout.order n).filter fun w =>
        s.tileable w && (v.windowsOn n).contains w)).1) &&
          (s.tileable w && (t.windowsOn n).contains w)) = [] := by
    refine List.filter_eq_nil_iff.mpr fun w hw hq => ?_
    obtain ⟨hw, htile⟩ := List.mem_filter.mp hw
    rw [Bool.and_eq_true, Bool.and_eq_true, decide_eq_true_eq, List.contains_iff_mem,
      h.mem_windowsOn_back] at hq
    obtain ⟨hnot, -, ht, -⟩ := hq
    have hin := (h.mapped halone ht htile).1
    have hown := ((h.owner n hin).1).mp (h.mem_windowsOn_out.mp hw).2
    refine hnot (State.mem_joinPending.mpr (.inl (List.mem_filter.mpr ?_)))
    exact ⟨(h.ordered.mem n hn w).mpr ⟨hin, hown, htile⟩, by simp [htile, hw]⟩
  rw [horder, Stack.pushNew_eq ((v.nodup_windowsOn n).filter _), List.filter_append,
    State.filter_joinPending hskip, hkept, List.filter_filter]
  have hcomm : ∀ l : List Window, l.filter (fun w =>
      (s.tileable w && (t.windowsOn n).contains w) &&
        decide (w ∉ (v.joinPending (v.windowsOn n) pending ((s.layout.order n).filter fun w =>
          s.tileable w && (v.windowsOn n).contains w)).1)) = l.filter fun w =>
      decide (w ∉ (v.joinPending (v.windowsOn n) pending ((s.layout.order n).filter fun w =>
        s.tileable w && (v.windowsOn n).contains w)).1) &&
          (s.tileable w && (t.windowsOn n).contains w) := fun l =>
    List.filter_congr fun w _ => Bool.and_comm _ _
  rw [hcomm, hnew, List.append_nil]

/-- The order in the end: the tiles on every desk as they were, then those that came back,
the one that had the keyboard last. -/
theorem order_eq (h : RoundTrip s u v u' t desk) (hn : n ∈ s.outputs.list.map Output.name)
    (hbelong : ∀ w ∈ s.layout.order n, s.belongs w = true)
    (halone : ∀ w ∈ s.stashedWindows, s.tileable w = true → s.belongs w = false) :
    t.layout.order n = (s.layout.order n).filter s.windowSticky ++
      raisedFrom u' s.desks.current ((s.layout.order n).filter fun w => !s.windowSticky w) := by
  let tiles := (s.layout.order n).filter fun w => !s.windowSticky w
  have hn' : n ∈ (u'.focusDesk s.desks.current).outputs.list.map Output.name := by
    rw [h.back.outputs_focusDesk, h.out.outputs]
    exact hn
  have htileable : (u'.focusDesk s.desks.current).tileable = s.tileable := funext fun w => by
    rw [← h.back.turned.tileable, h.tileable]
  obtain ⟨pending, hpending, horder⟩ := h.back.turned.order n hn'
  rw [h.back.layout_focusDesk] at hpending horder
  rw [htileable, h.filter_order_out hn hbelong halone] at horder
  have hskip : ∀ e ∈ pending, (t.windowsOn n).contains e.1 = true → t.tileable e.1 = true →
      ((s.layout.order n).filter s.windowSticky).contains e.1 = true := by
    intro e he hw htile
    rw [List.contains_iff_mem, h.mem_windowsOn_back] at hw
    rw [h.tileable] at htile
    have hp := (h.out.turned.pending e (hpending e he)).1
    rw [h.out.layout_focusDesk] at hp
    exact absurd (h.mapped halone hw.1 htile).1 (h.ordered.pending e hp)
  rw [horder, State.joinPending_of_skip hskip, Stack.pushNew_eq ((t.nodup_windowsOn n).filter _)]
  congr 1
  -- what is added is what came back, as it is stacked
  have hadded : ((t.windowsOn n).filter s.tileable).filter (fun w =>
      decide (w ∉ (s.layout.order n).filter s.windowSticky)) =
      (u'.focusDesk s.desks.current).elements.filter fun w => decide (w ∈ tiles) := by
    rw [h.back.windowsOn, List.filter_filter, List.filter_filter]
    refine List.filter_congr fun w hw => ?_
    rw [Bool.eq_iff_iff]
    simp only [Bool.and_eq_true, decide_eq_true_eq, tiles, List.mem_filter, Bool.not_eq_true',
      not_and, Bool.not_eq_true]
    constructor
    · rintro ⟨⟨hnot, htile⟩, hown⟩
      have hin := (h.mapped halone (h.back.mem_focusDesk.mpr hw) htile).1
      have hord := (h.ordered.mem n hn w).mpr ⟨hin, (h.owner n hin).2.mp hown, htile⟩
      exact ⟨hord, hnot hord⟩
    · rintro ⟨hord, hsticky⟩
      obtain ⟨hin, hown, htile⟩ := (h.ordered.mem n hn w).mp hord
      exact ⟨⟨fun _ => hsticky, htile⟩, (h.owner n hin).2.mpr hown⟩
  rw [hadded]
  obtain ⟨q, hq⟩ := h.back.reflects
  refine filter_focusDesk hq (h.filter_stashed hn hbelong rfl) ?_ ?_
  · intro w hw
    have htile := ((h.ordered.mem n hn w).mp (List.mem_of_mem_filter hw)).2.2
    rw [h.back.went.rest, h.out.client]
    cases hparent : (s.client w).parent with
    | none => rfl
    | some parent => simp [State.tileable, State.isDialog, hparent] at htile
  · intro w hw
    obtain ⟨hord, hsticky⟩ := List.mem_filter.mp hw
    rw [Bool.not_eq_true'] at hsticky
    have hin : w ∈ s.allWindows := by
      rw [State.allWindows, List.mem_append, List.mem_append]
      exact .inl (.inl ((h.ordered.mem n hn w).mp hord).1)
    have hdesk : s.windowDesk w = s.desks.current := by
      simpa [State.belongs, hsticky] using hbelong w hord
    have hname : s.desks.current.isEmpty = false := by simpa using h.named
    have hkept : v.windowDesk w = s.desks.current := by
      rw [State.windowDesk, h.out.deskTag, h.out.went.deskTag w hin, hsticky, hdesk, hname]
      rfl
    constructor
    · rw [State.windowDesk, h.back.went.deskTag w ((h.out.allWindows w).mpr hin), hkept]
      simp
    · rw [h.back.windowSticky_went, h.out.windowSticky]
      exact hsticky

/-- The window that has the keyboard on the desk again had it when the desk was left, or when
it was left before that. -/
theorem lastFocus (h : RoundTrip s u v u' t desk) : u'.desks.lastFocus s.desks.current =
    s.focusedWindow.or (s.desks.lastFocus s.desks.current) := by
  have hv : v.desks.lastFocus s.desks.current =
      s.focusedWindow.or (s.desks.lastFocus s.desks.current) := by
    rw [h.out.desks, h.out.went.lastFocus]
    cases s.focusedWindow with
    | none => rfl
    | some f => exact Function.update_self _ _ _
  have hne : s.desks.current ≠ v.desks.current := by
    rw [h.out.desks, h.out.went.current]
    exact h.other
  rw [← hv, h.back.went.lastFocus]
  cases v.focusedWindow with
  | none => rfl
  | some f => exact Function.update_of_ne hne _ _

theorem raisedFrom_eq_self (h : RoundTrip s u v u' t desk) {tiles : List Window}
    (htiles : tiles.Nodup) : raisedFrom u' s.desks.current tiles = tiles ↔
      (s.locked = false → ∀ f ∈ s.focusedWindow.or (s.desks.lastFocus s.desks.current),
        f ∈ tiles → tiles.getLast? = some f) := by
  have hlocked : u'.locked = s.locked := by
    rw [h.back.went.rest, h.out.locked]
  rw [raisedFrom, hlocked, h.lastFocus]
  cases s.locked with
  | true => simp
  | false =>
      cases s.focusedWindow.or (s.desks.lastFocus s.desks.current) with
      | none => simp
      | some f =>
          by_cases hf : f ∈ tiles
          · simp [hf, Stack.toEnd_eq_self htiles]
          · simp [hf]

/-- The tiles keep their order if and only if those on every desk come first and the one
that has the keyboard, if it came back, is the last. -/
theorem order_eq_self_iff (h : RoundTrip s u v u' t desk)
    (hn : n ∈ s.outputs.list.map Output.name)
    (hbelong : ∀ w ∈ s.layout.order n, s.belongs w = true)
    (halone : ∀ w ∈ s.stashedWindows, s.tileable w = true → s.belongs w = false) :
    t.layout.order n = s.layout.order n ↔ KeepsTiles s n := by
  let order := s.layout.order n
  let tiles := order.filter fun w => !s.windowSticky w
  have htiles : tiles.Nodup := (h.ordered.nodup n hn).filter _
  have hsplit : order.filter s.windowSticky ++ raisedFrom u' s.desks.current tiles = order ↔
      raisedFrom u' s.desks.current tiles = tiles ∧
        order.filter s.windowSticky ++ tiles = order := by
    constructor
    · intro heq
      have hraised : raisedFrom u' s.desks.current tiles = tiles := by
        have hperm : ∀ w ∈ raisedFrom u' s.desks.current tiles, s.windowSticky w = false := by
          intro w hw
          have hin : w ∈ tiles := by
            revert hw
            unfold raisedFrom
            split
            · exact id
            · split
              · split
                next f _ hf =>
                  intro hw
                  exact (Stack.mem_toEnd.mp hw).elim id fun hwf => hwf ▸ hf
                next => exact id
              · exact id
          simpa using (List.mem_filter.mp hin).2
        have hfilter := congrArg (List.filter fun w => !s.windowSticky w) heq
        rw [List.filter_append] at hfilter
        have hnone : (order.filter s.windowSticky).filter (fun w => !s.windowSticky w) = [] := by
          refine List.filter_eq_nil_iff.mpr fun w hw => ?_
          simp [(List.mem_filter.mp hw).2]
        have hall : (raisedFrom u' s.desks.current tiles).filter (fun w => !s.windowSticky w) =
            raisedFrom u' s.desks.current tiles :=
          List.filter_eq_self.mpr fun w hw => by simp [hperm w hw]
        rw [hnone, hall, List.nil_append] at hfilter
        exact hfilter
      exact ⟨hraised, by rw [← hraised]; exact heq⟩
    · rintro ⟨hraised, heq⟩
      rw [hraised]
      exact heq
  have hlast : order.filter s.windowSticky ++ tiles = order → ∀ f ∈ tiles,
      order.getLast? = tiles.getLast? := by
    intro heq f hf
    have hne : tiles ≠ [] := List.ne_nil_of_mem hf
    rw [← heq, List.getLast?_append_of_ne_nil _ hne]
  rw [h.order_eq hn hbelong halone]
  change order.filter s.windowSticky ++ raisedFrom u' s.desks.current tiles = order ↔ _
  rw [hsplit, h.raisedFrom_eq_self htiles]
  constructor
  · rintro ⟨hfocus, heq⟩
    refine ⟨hbelong, halone, Stack.filter_append_filter_not_eq_self.mp heq, ?_⟩
    intro hlocked f hf hin hsticky
    have hft : f ∈ tiles := List.mem_filter.mpr ⟨hin, by simp [hsticky]⟩
    exact (hlast heq f hft).trans (hfocus hlocked f hf hft)
  · rintro ⟨-, -, hfirst, hfocus⟩
    have heq : order.filter s.windowSticky ++ tiles = order :=
      Stack.filter_append_filter_not_eq_self.mpr hfirst
    refine ⟨fun hlocked f hf hft => ?_, heq⟩
    obtain ⟨hin, hsticky⟩ := List.mem_filter.mp hft
    rw [← hlast heq f hft]
    exact hfocus hlocked f hf hin (by simpa using hsticky)

/-- A visit keeps the tile orders of all outputs if and only if each keeps its tiles. -/
theorem orders_eq_iff (h : RoundTrip s u v u' t desk) :
    (∀ n ∈ s.outputs.list.map Output.name, t.layout.order n = s.layout.order n) ↔
      ∀ n ∈ s.outputs.list.map Output.name, KeepsTiles s n := by
  constructor
  · intro heq n hn
    have hbelong : ∀ w ∈ s.layout.order n, s.belongs w = true := by
      intro w hw
      rw [← heq n hn] at hw
      exact (h.mem_elements.mp ((h.mem_order hn).mp hw).1).2
    have halone : ∀ w ∈ s.stashedWindows, s.tileable w = true → s.belongs w = false := by
      intro w hw htile
      by_contra hbelongs
      have ht : w ∈ t.elements :=
        h.mem_elements.mpr ⟨.inr hw, by simpa using hbelongs⟩
      obtain ⟨o, ho, hown⟩ := h.back.turned.homed.owner w ht
      rw [h.outputs] at ho
      have hname : o.name ∈ s.outputs.list.map Output.name := List.mem_map.mpr ⟨o, ho, rfl⟩
      have hord := (h.mem_order hname).mpr ⟨ht, hown, htile⟩
      rw [heq o.name hname] at hord
      obtain ⟨p, hready⟩ := h.ready
      exact hready.reflects.disjoint (a := .space) (b := .stashed) (by decide)
        ((h.ordered.mem o.name hname w).mp hord).1 hw
    exact (h.order_eq_self_iff hn hbelong halone).mp (heq n hn)
  · intro hkeeps n hn
    exact (h.order_eq_self_iff hn (hkeeps n hn).belong (hkeeps n hn).alone).mpr (hkeeps n hn)

end RoundTrip

/-! ## From any state -/

/-- No window is managed twice, and none is twice in a tile order. -/
structure State.Proper (s : State) : Prop where
  windows : s.allWindows.Nodup
  orders : ∀ o ∈ s.outputs.list, (s.layout.order o.name).Nodup

/-- Where the containers have a window. -/
def State.place (s : State) (w : Window) : Option Place :=
  if w ∈ s.elements then some .space
  else if w ∈ s.stashedWindows then some .stashed
  else if w ∈ s.minimizedWindows then some .minimized
  else none

theorem Reflects.of_disjoint (hstashed : s.stashedWindows.Nodup)
    (hminimized : s.minimizedWindows.Nodup)
    (hdisjoint : ∀ w ∈ s.elements, w ∉ s.stashedWindows ∧ w ∉ s.minimizedWindows)
    (hdisjoint' : ∀ w ∈ s.stashedWindows, w ∉ s.minimizedWindows) : Reflects s s.place := by
  refine ⟨fun a w => ?_, fun a => ?_⟩
  · unfold State.place
    by_cases hel : w ∈ s.elements
    · obtain ⟨hst, hmi⟩ := hdisjoint w hel
      cases a <;> simp [State.container, hel, hst, hmi]
    · by_cases hst : w ∈ s.stashedWindows
      · have hmi := hdisjoint' w hst
        cases a <;> simp [State.container, hel, hst, hmi]
      · cases a <;> simp [State.container, hel, hst]
  · cases a with
    | space => exact s.nodup_elements
    | stashed => exact hstashed
    | minimized => exact hminimized

/-- The state that a turn and the housekeeping leave is ready for a visit. -/
theorem ready_turn (hs : s.Proper) (ht : Turned s t) (houtputs : s.outputs.list ≠ []) :
    ∃ p, Ready t.retainStashed.tagNewWindows p := by
  obtain ⟨tag, htag, -, -⟩ := tagNewWindows_eq t.retainStashed
  have hsame : t.stashedWindows = s.stashedWindows ∧ t.minimizedWindows = s.minimizedWindows := by
    rw [ht.rest]
    exact ⟨rfl, rfl⟩
  obtain ⟨hrest, hmi, hdisjoint⟩ := List.nodup_append.mp hs.windows
  obtain ⟨-, hst, hdisjoint'⟩ := List.nodup_append.mp hrest
  have hreflects : Reflects t t.place := by
    refine Reflects.of_disjoint ?_ ?_ (fun w hw => ?_) fun w hw => ?_
    · rw [hsame.1]
      exact hst
    · rw [hsame.2]
      exact hmi
    · have hin := ((ht.mem w).mp hw).1
      rw [hsame.1, hsame.2]
      exact ⟨fun h => hdisjoint' w hin w h rfl,
        fun h => hdisjoint w (List.mem_append_left _ hin) w h rfl⟩
    · rw [hsame.1] at hw
      rw [hsame.2]
      exact fun h => hdisjoint w (List.mem_append_right _ hw) w h rfl
  refine ⟨_, hreflects.retainStashed.tagNewWindows, ⟨?_, ?_⟩, ?_, ?_, ?_⟩
  · rw [htag]
    exact ht.homed.tiling
  · rw [htag]
    exact ht.homed.owner
  · rw [htag]
    change t.outputs.list ≠ []
    rw [ht.outputs]
    exact houtputs
  · rw [htag]
    intro w hw
    exact (ht.alive w).trans ((ht.mem w).mp hw).2
  · rw [htag]
    intro w hw
    obtain ⟨e, he, rfl⟩ := List.mem_map.mp hw
    exact (List.mem_filter.mp he).2

theorem ordered_turn (hs : s.Proper) (ht : Turned s t) :
    Ordered t.retainStashed.tagNewWindows := by
  obtain ⟨tag, htag, -, -⟩ := tagNewWindows_eq t.retainStashed
  have hnames : ∀ n ∈ t.outputs.list.map Output.name, n ∈ s.outputs.list.map Output.name := by
    rw [ht.outputs]
    exact fun _ h => h
  rw [htag]
  refine ⟨fun n hn w => ht.mem_order (hnames n hn), fun n hn w hw => ht.slot (hnames n hn) hw,
    fun n hn => ?_, fun e he => (ht.pending e he).2⟩
  obtain ⟨o, ho, rfl⟩ := List.mem_map.mp (hnames n hn)
  exact ht.nodup_order (hnames o.name hn) (hs.orders o ho)

/-- In a tiling mode, going to another desk and back, with a turn of the loop after each,
gives every output the order it had if and only if each output keeps its tiles. -/
theorem visit_keeps_orders_iff (g : Placement) (s : State) (desk : Text)
    (sticky sticky' : Option (List Text)) (mode mode' : Option LayoutMode) (hs : s.Proper)
    (htiling : s.layout.mode.isTiling = true) (hcurrent : s.desks.current ≠ [])
    (hdesk : desk ≠ []) (hother : s.desks.current ≠ desk)
    (hsticky : ∀ l, sticky = some l ∨ sticky' = some l → cleanSticky l = s.desks.sticky)
    (hmode : ∀ m, mode = some m ∨ mode' = some m → m = s.layout.mode) :
    let before := s.layoutTurn g
    let out := (before.setDesk g desk sticky mode).layoutTurn g
    let back := (out.setDesk g s.desks.current sticky' mode').layoutTurn g
    (∀ o ∈ s.outputs.list, back.layout.order o.name = before.layout.order o.name) ↔
      ∀ o ∈ s.outputs.list, KeepsTiles before.retainStashed.tagNewWindows o.name := by
  intro before out back
  by_cases houtputs : s.outputs.list = []
  · rw [houtputs]
    exact ⟨fun _ _ ho => (nomatch ho), fun _ _ ho => (nomatch ho)⟩
  have hturned : Turned s before := State.turned_layoutTurn s g htiling houtputs
  obtain ⟨tag, htag, -, -⟩ := tagNewWindows_eq before.retainStashed
  obtain ⟨b, hb⟩ : ∃ b, before.retainStashed.tagNewWindows = b := ⟨_, rfl⟩
  obtain ⟨p, hready⟩ := ready_turn hs hturned houtputs
  have hordered := ordered_turn hs hturned
  rw [hb] at hready hordered
  have hrest : b.desks.current = s.desks.current ∧ b.desks.sticky = s.desks.sticky ∧
      b.layout = before.layout ∧ b.outputs = s.outputs := by
    rw [← hb, htag]
    refine ⟨?_, ?_, rfl, hturned.outputs⟩
    · change before.desks.current = _
      rw [hturned.rest]
    · change before.desks.sticky = _
      rw [hturned.rest]
  obtain ⟨hcur, hlist, hlayout, houts⟩ := hrest
  have hmode₀ : b.layout.mode = s.layout.mode := by
    rw [hlayout, hturned.mode]
  obtain ⟨u, hout, hready', htagged⟩ := hready.visit hb g hdesk (hcur ▸ hcurrent) (hcur ▸ hother)
    (fun l hl => (hsticky l (.inl hl)).trans hlist.symm)
    fun m hm => (hmode m (.inl hm)).trans hmode₀.symm
  change Visited b u out desk at hout
  change Ready out _ at hready'
  have hcur' : out.desks.current = desk := by
    rw [hout.desks, hout.went.current]
  have hlist' : out.desks.sticky = s.desks.sticky := by
    rw [hout.desks, hout.went.sticky, hlist]
  have hmode' : out.layout.mode = s.layout.mode := by
    rw [hout.turned.mode, hout.layout_focusDesk, hmode₀]
  have hhousekept : out.retainStashed.tagNewWindows = out :=
    hready'.housekept fun w hw => htagged w ((hout.allWindows w).mp hw)
  obtain ⟨u', hback, -, -⟩ := hready'.visit hhousekept g hcurrent (hcur' ▸ hdesk)
    (hcur' ▸ hother.symm) (fun l hl => (hsticky l (.inr hl)).trans hlist'.symm)
    fun m hm => (hmode m (.inr hm)).trans hmode'.symm
  change Visited out u' back _ at hback
  have htrip : RoundTrip b u out u' back desk :=
    ⟨⟨p, hready⟩, hordered, hout, hcur.symm ▸ hback, hcur ▸ hcurrent, hdesk, hcur ▸ hother⟩
  have hiff := htrip.orders_eq_iff
  rw [houts, hlayout, List.forall_mem_map, List.forall_mem_map] at hiff
  rw [hb]
  exact hiff

/-- Three tiles of one desk, the first of them focused. -/
def threeTiles : State where
  nextId := 4
  space := { stack := ⟨[1, 2, 3], by decide⟩ }
  desks := { current := "work".toList }
  deskTag := fun _ => some "work".toList
  client := fun _ => { size := ⟨10, 10⟩ }
  layout := { mode := .dwindle }
  outputs := .single ⟨"DP-1".toList, ⟨⟨0, 0⟩, ⟨1920, 1080⟩⟩⟩
  focus := some (.window 1)

theorem threeTiles_keeps_order_iff :
    let before := threeTiles.layoutTurn {}
    let out := (before.setDesk {} "game".toList none none).layoutTurn {}
    let back := (out.setDesk {} "work".toList none (some .dwindle)).layoutTurn {}
    (∀ o ∈ threeTiles.outputs.list, back.layout.order o.name = before.layout.order o.name) ↔
      ∀ o ∈ threeTiles.outputs.list, KeepsTiles before.retainStashed.tagNewWindows o.name :=
  visit_keeps_orders_iff {} threeTiles "game".toList none none none (some .dwindle)
    ⟨by decide, by decide⟩ rfl (by decide) (by decide) (by decide)
    (by rintro l (h | h) <;> cases h) (by
      rintro m (h | h)
      · cases h
      · exact (Option.some.inj h).symm)

/-- The focused tile is raised when the desk comes back, and so goes to the end. -/
theorem focused_tile_goes_to_the_end :
    let before := threeTiles.layoutTurn {}
    let out := (before.setDesk {} "game".toList none none).layoutTurn {}
    let back := (out.setDesk {} "work".toList none none).layoutTurn {}
    threeTiles.Proper ∧ before.layout.order "DP-1".toList = [1, 2, 3] ∧
      back.layout.order "DP-1".toList = [2, 3, 1] :=
  ⟨⟨by decide, by decide⟩, by decide, by decide⟩

end MindOS.Wm
