import MindOS.Places
import MindOS.Wm.Desk.Basic

/-!
# Every window is in one place

What the space, the stashed list and the minimised list are for is a function from
windows to places. The operations on the containers are operations on this function, and
from what they do to it follows that no window is in two places and none is lost.
-/

namespace MindOS.Wm

open Places

/-- Where a managed window is. -/
inductive Place where
  | space
  | stashed
  | minimized
  deriving DecidableEq

def State.container (s : State) : Place → List Window
  | .space => s.elements
  | .stashed => s.stashedWindows
  | .minimized => s.minimizedWindows

/-- The containers of a state hold what the places say. -/
abbrev Reflects (s : State) (p : Window → Option Place) : Prop := Holds s.container p

namespace Reflects

variable {s t : State} {p : Window → Option Place} {w : Window}

theorem mem_elements (h : Reflects s p) : w ∈ s.elements ↔ p w = some .space := h.mem .space w

theorem mem_stashed (h : Reflects s p) : w ∈ s.stashedWindows ↔ p w = some .stashed :=
  h.mem .stashed w

theorem mem_minimized (h : Reflects s p) : w ∈ s.minimizedWindows ↔ p w = some .minimized :=
  h.mem .minimized w

theorem nodup_stashed (h : Reflects s p) : s.stashedWindows.Nodup := h.nodup .stashed

theorem mem_allWindows (h : Reflects s p) : w ∈ s.allWindows ↔ p w ≠ none := by
  rw [State.allWindows, List.mem_append, List.mem_append, h.mem_elements, h.mem_stashed,
    h.mem_minimized]
  cases p w with
  | none => simp
  | some place => cases place <;> simp

theorem isStashed (h : Reflects s p) : s.isStashed w = decide (p w = some .stashed) := by
  rw [State.isStashed, List.contains_eq_mem]
  exact decide_eq_decide.mpr h.mem_stashed

theorem isMinimized (h : Reflects s p) : s.isMinimized w = decide (p w = some .minimized) := by
  rw [State.isMinimized, List.contains_eq_mem]
  exact decide_eq_decide.mpr h.mem_minimized

theorem count_eq_one (h : Reflects s p) (hw : p w ≠ none) : s.allWindows.count w = 1 := by
  obtain ⟨a, ha⟩ := Option.ne_none_iff_exists'.mp hw
  have hall : [Place.space, .stashed, .minimized].flatMap s.container = s.allWindows := by
    simp [State.allWindows, State.container]
  rw [← hall]
  exact h.count_flatMap (by decide) ha (by cases a <;> decide)

/-- What stacks the same windows and keeps the lists reflects the same places. -/
theorem of_same (h : Reflects s p) (hspace : ∀ w, w ∈ t.elements ↔ w ∈ s.elements)
    (hstashed : t.desks.stashed = s.desks.stashed) (hminimized : t.minimized = s.minimized) :
    Reflects t p := by
  have hst : t.stashedWindows = s.stashedWindows :=
    congrArg (List.map Minimized.window) hstashed
  have hmi : t.minimizedWindows = s.minimizedWindows :=
    congrArg (List.map Minimized.window) hminimized
  refine h.congr ?_ ?_
  · intro a
    cases a with
    | space => exact hspace
    | stashed => exact fun w => by rw [State.container, State.container, hst]
    | minimized => exact fun w => by rw [State.container, State.container, hmi]
  · intro a
    cases a with
    | space => exact t.space.stack.nodup
    | stashed =>
        rw [State.container, hst]
        exact h.nodup .stashed
    | minimized =>
        rw [State.container, hmi]
        exact h.nodup .minimized

theorem mapElement (h : Reflects s p) (hw : p w = none ∨ p w = some .space) (loc : Point) :
    Reflects (s.mapElement w loc) (Function.update p w (some .space)) := by
  refine h.insert hw ?_ (fun x => Stack.mem_put) (Stack.nodup _)
  intro b hb
  cases b with
  | space => exact absurd rfl hb
  | stashed => rfl
  | minimized => rfl

theorem unmapElem (h : Reflects s p) (hw : p w = some .space) :
    Reflects (s.unmapElem w) (Function.update p w none) := by
  refine h.erase hw ?_ rfl
  intro b hb
  cases b with
  | space => exact absurd rfl hb
  | stashed => rfl
  | minimized => rfl

/-- What is in no other place joins the stashed windows. -/
theorem pushStashed (h : Reflects s p) {e : Minimized} (hw : p e.window = none) :
    Reflects { s with desks := { s.desks with stashed := s.desks.stashed ++ [e] } }
      (Function.update p e.window (some .stashed)) := by
  have hlist : State.stashedWindows
      { s with desks := { s.desks with stashed := s.desks.stashed ++ [e] } } =
        s.stashedWindows ++ [e.window] := List.map_append
  refine h.insert (.inl hw) ?_ ?_ ?_
  · intro b hb
    cases b with
    | space => rfl
    | stashed => exact absurd rfl hb
    | minimized => rfl
  · intro x
    rw [State.container, hlist, List.mem_append, List.mem_singleton]
    exact Iff.rfl
  · have hnew : e.window ∉ s.stashedWindows := by
      rw [h.mem_stashed, hw]
      exact nofun
    rw [State.container, hlist]
    exact List.nodup_append_comm.mp (List.nodup_cons.mpr ⟨hnew, h.nodup .stashed⟩)

/-- What is in no other place joins the minimised windows. -/
theorem pushMinimized (h : Reflects s p) {e : Minimized} (hw : p e.window = none) :
    Reflects { s with minimized := s.minimized ++ [e] }
      (Function.update p e.window (some .minimized)) := by
  have hlist : State.minimizedWindows { s with minimized := s.minimized ++ [e] } =
      s.minimizedWindows ++ [e.window] := List.map_append
  refine h.insert (.inl hw) ?_ ?_ ?_
  · intro b hb
    cases b with
    | space => rfl
    | stashed => rfl
    | minimized => exact absurd rfl hb
  · intro x
    rw [State.container, hlist, List.mem_append, List.mem_singleton]
    exact Iff.rfl
  · have hnew : e.window ∉ s.minimizedWindows := by
      rw [h.mem_minimized, hw]
      exact nofun
    rw [State.container, hlist]
    exact List.nodup_append_comm.mp (List.nodup_cons.mpr ⟨hnew, h.nodup .minimized⟩)

end Reflects

/-- Taking the entry of a window out of a list of entries. -/
theorem map_window_eraseP (l : List Minimized) (w : Window) :
    (l.eraseP fun e => decide (e.window = w)).map Minimized.window =
      (l.map Minimized.window).erase w := by
  induction l with
  | nil => rfl
  | cons e l ih =>
      by_cases he : e.window = w
      · simp [he]
      · simp [he, ih]

theorem find?_window {l : List Minimized} {w : Window} {e : Minimized}
    (h : l.find? (fun e => decide (e.window = w)) = some e) :
    e.window = w ∧ w ∈ l.map Minimized.window := by
  have he : e.window = w := by simpa using List.find?_some h
  exact ⟨he, List.mem_map.mpr ⟨e, List.mem_of_find?_eq_some h, he⟩⟩

theorem find?_window_none {l : List Minimized} {w : Window} :
    l.find? (fun e => decide (e.window = w)) = none ↔ w ∉ l.map Minimized.window := by
  simp [List.find?_eq_none]

namespace Reflects

variable {s t : State} {p : Window → Option Place} {w : Window}

theorem unstash (h : Reflects s p) (hw : p w = some .stashed) :
    Reflects (s.unstash w) (Function.update p w none) := by
  refine h.erase hw ?_ (map_window_eraseP _ _)
  intro b hb
  cases b with
  | space => rfl
  | stashed => exact absurd rfl hb
  | minimized => rfl

theorem unlistMinimized (h : Reflects s p) (hw : p w = some .minimized) :
    Reflects (s.unlistMinimized w) (Function.update p w none) := by
  refine h.erase hw ?_ (map_window_eraseP _ _)
  intro b hb
  cases b with
  | space => rfl
  | stashed => rfl
  | minimized => exact absurd rfl hb

theorem stashedEntry_none (h : Reflects s p) : s.stashedEntry w = none ↔ p w ≠ some .stashed :=
  find?_window_none.trans (not_congr h.mem_stashed)

theorem minimizedEntry_none (h : Reflects s p) :
    s.minimizedEntry w = none ↔ p w ≠ some .minimized :=
  find?_window_none.trans (not_congr h.mem_minimized)

theorem takeOutOfSpace_none (h : Reflects s p) :
    s.takeOutOfSpace w = none ↔ p w ≠ some .space := by
  rw [State.takeOutOfSpace, Option.map_eq_none_iff, State.elementLocation, ite_eq_right_iff,
    h.mem_elements]
  constructor
  · intro hnone hw
    cases hnone hw
  · intro hw hw'
    exact absurd hw' hw

/-- A mapped window is put away, any other is left. -/
theorem stashWindow (h : Reflects s p) (w : Window) :
    Reflects (s.stashWindow w) (move p .space .stashed [w]) := by
  rw [State.stashWindow, h.isStashed]
  by_cases hw : p w = some .space
  · have hst : ¬ decide (p w = some .stashed) = true := by simp [hw]
    have hin : w ∈ s.elements := h.mem_elements.mpr hw
    rw [if_neg hst, move_eq_update hw, State.takeOutOfSpace, State.elementLocation, if_pos hin,
      Option.map_some]
    have hout := (h.unmapElem hw).pushStashed (e := ⟨w, s.space.location w, s.windowHome w⟩)
      (Function.update_self w none p)
    rwa [Function.update_idem] at hout
  · rw [move_of_ne hw, h.takeOutOfSpace_none.mpr hw, ite_self]
    exact h

theorem foldl_stashWindow (h : Reflects s p) (ws : List Window) :
    Reflects (ws.foldl State.stashWindow s) (move p .space .stashed ws) := by
  induction ws generalizing s p with
  | nil => exact (move_nil (p := p)).symm ▸ h
  | cons w ws ih => exact move_cons (p := p) w ws ▸ ih (h.stashWindow w)

/-- A stashed window that is still there comes back, any other is left. -/
theorem restoreWindow (h : Reflects s p) (hw : s.alive w = true) :
    Reflects (s.restoreWindow w) (move p .stashed .space [w]) := by
  unfold State.restoreWindow
  cases he : s.stashedEntry w with
  | none => exact (move_of_ne (h.stashedEntry_none.mp he)).symm ▸ h
  | some e =>
      have hp : p w = some .stashed := h.mem_stashed.mp (find?_window he).2
      obtain rfl := (find?_window he).1
      have hback : (s.unstash e.window).putBackInSpace e =
          ((s.unstash e.window).mapElement e.window e.location, true) := if_pos hw
      simp only [hback]
      rw [move_eq_update hp]
      have hin := (h.unstash hp).mapElement (w := e.window)
        (.inl (Function.update_self e.window none p)) e.location
      rwa [Function.update_idem] at hin

end Reflects

/-- What says where a window belongs, and which ids are taken, is the same in two states. -/
structure SameDesks (s t : State) : Prop where
  nextId : t.nextId = s.nextId
  current : t.desks.current = s.desks.current
  sticky : t.desks.sticky = s.desks.sticky
  deskTag : t.deskTag = s.deskTag
  alive : ∀ w, t.alive w = s.alive w
  appId : ∀ w, (t.client w).appId = (s.client w).appId
  parent : ∀ w, (t.client w).parent = (s.client w).parent

namespace SameDesks

variable {s t u : State} {w : Window}

theorem of_client (hnextId : t.nextId = s.nextId) (hcurrent : t.desks.current = s.desks.current)
    (hsticky : t.desks.sticky = s.desks.sticky) (hdeskTag : t.deskTag = s.deskTag)
    (hclient : t.client = s.client) : SameDesks s t :=
  ⟨hnextId, hcurrent, hsticky, hdeskTag, fun w => by rw [State.alive, hclient, State.alive],
    fun w => by rw [hclient], fun w => by rw [hclient]⟩

theorem refl (s : State) : SameDesks s s := of_client rfl rfl rfl rfl rfl

theorem trans (h : SameDesks s t) (h' : SameDesks t u) : SameDesks s u :=
  ⟨h'.nextId.trans h.nextId, h'.current.trans h.current, h'.sticky.trans h.sticky,
    h'.deskTag.trans h.deskTag, fun w => (h'.alive w).trans (h.alive w),
    fun w => (h'.appId w).trans (h.appId w), fun w => (h'.parent w).trans (h.parent w)⟩

theorem foldl {f : State → Window → State} (hf : ∀ s w, SameDesks s (f s w)) (s : State)
    (ws : List Window) : SameDesks s (ws.foldl f s) := by
  induction ws generalizing s with
  | nil => exact refl s
  | cons w ws ih => exact (hf s w).trans (ih (f s w))

theorem takeOutOfSpace {e : Minimized} (h : s.takeOutOfSpace w = some (t, e)) :
    SameDesks s t := by
  obtain ⟨_, -, heq⟩ := Option.map_eq_some_iff.mp h
  obtain ⟨rfl, -⟩ := Prod.mk.inj heq
  exact of_client rfl rfl rfl rfl rfl

theorem stashWindow (s : State) (w : Window) : SameDesks s (s.stashWindow w) := by
  unfold State.stashWindow
  split
  · exact refl s
  · split
    · exact refl s
    · next t e h =>
      have ht := takeOutOfSpace h
      exact ⟨ht.nextId, ht.current, ht.sticky, ht.deskTag, ht.alive, ht.appId, ht.parent⟩

theorem putBackInSpace (s : State) (e : Minimized) : SameDesks s (s.putBackInSpace e).1 := by
  unfold State.putBackInSpace
  split
  · exact of_client rfl rfl rfl rfl rfl
  · exact refl s

theorem restoreWindow (s : State) (w : Window) : SameDesks s (s.restoreWindow w) := by
  unfold State.restoreWindow
  split
  · exact refl s
  · next e h =>
    have hout : SameDesks s (s.unstash w) := of_client rfl rfl rfl rfl rfl
    exact hout.trans (putBackInSpace _ e)

theorem refreshFocus (s : State) : SameDesks s s.refreshFocus := by
  obtain ⟨focus, h⟩ := s.refreshFocus_eq
  rw [h]
  exact of_client rfl rfl rfl rfl rfl

theorem activateWindow (s : State) (w : Window) : SameDesks s (s.activateWindow w) := by
  obtain ⟨stack, focus, h, -⟩ := s.activateWindow_eq w
  rw [h]
  exact of_client rfl rfl rfl rfl rfl

theorem focusDesk (s : State) (desk : Text) : SameDesks s (s.focusDesk desk) := by
  unfold State.focusDesk
  split
  · exact activateWindow s _
  · split
    · exact activateWindow s _
    · exact refreshFocus s

theorem unmaximizeWindow (s : State) (g : Placement) (w : Window) :
    SameDesks s (s.unmaximizeWindow g w) := by
  let client := Function.update s.client w { s.client w with pendingMaximized := false }
  have hclient : SameDesks s { s with client := client } := by
    refine ⟨rfl, rfl, rfl, rfl, fun x => ?_, fun x => ?_, fun x => ?_⟩
    all_goals
      by_cases hx : x = w
      · simp [client, State.alive, hx]
      · simp [client, State.alive, hx]
  unfold State.unmaximizeWindow
  split
  · exact refl s
  · split
    · exact hclient
    · exact hclient.trans (of_client rfl rfl rfl rfl rfl)

theorem setLayoutMode (s : State) (g : Placement) (mode : LayoutMode) :
    SameDesks s (s.setLayoutMode g mode) := by
  unfold State.setLayoutMode
  split
  · exact refl s
  · split
    · have hstart : SameDesks s { s with layout := { mode := mode } } :=
        of_client rfl rfl rfl rfl rfl
      refine hstart.trans (foldl (fun t w => ?_) _ _)
      split
      · exact unmaximizeWindow t g w
      · exact refl t
    · exact of_client rfl rfl rfl rfl rfl

end SameDesks

theorem find?_eq_self (l : List Window) (a : Window) :
    l.find? (fun c => decide (c = a)) = if a ∈ l then some a else none := by
  induction l with
  | nil => rfl
  | cons b l ih =>
      by_cases hb : b = a
      · simp [hb]
      · simp [hb, Ne.symm hb, ih]

/-- Stickiness depends on what the clients say and on which windows are managed. -/
theorem stickyUnder_congr {s t : State}
    (happId : ∀ w, (t.client w).appId = (s.client w).appId)
    (hparent : ∀ w, (t.client w).parent = (s.client w).parent)
    (hall : ∀ w, w ∈ t.allWindows ↔ w ∈ s.allWindows) (sticky : List Text) (w : Window) :
    t.stickyUnder sticky w = s.stickyUnder sticky w := by
  have hwindow : ∀ x, t.windowParent x = s.windowParent x := by
    intro x
    rw [State.windowParent, State.windowParent, hparent x]
    refine congrArg _ (funext fun parent => ?_)
    rw [find?_eq_self, find?_eq_self]
    exact if_congr (hall parent) rfl rfl
  have hwithin : ∀ depth x, t.stickyWithin sticky depth x = s.stickyWithin sticky depth x := by
    intro depth
    induction depth with
    | zero => exact fun _ => rfl
    | succ depth ih =>
        intro x
        rw [State.stickyWithin, State.stickyWithin, happId x, hwindow x]
        simp only [ih]
  rw [State.stickyUnder, State.stickyUnder, hwithin]

theorem SameDesks.windowSticky {s t : State} (h : SameDesks s t)
    (hall : ∀ w, w ∈ t.allWindows ↔ w ∈ s.allWindows) (w : Window) :
    t.windowSticky w = s.windowSticky w := by
  rw [State.windowSticky, State.windowSticky, h.sticky]
  exact stickyUnder_congr h.appId h.parent hall _ w

theorem SameDesks.deskShows {s t : State} (h : SameDesks s t)
    (hall : ∀ w, w ∈ t.allWindows ↔ w ∈ s.allWindows) (w : Window) :
    t.deskShows w = s.deskShows w := by
  rw [State.deskShows, State.deskShows, h.current, h.windowSticky hall, State.windowDesk,
    State.windowDesk, h.deskTag]

/-! ## The new windows get a desk -/

theorem tagWindow_eq (s : State) (w : Window) :
    ∃ tag, s.tagWindow w = { s with deskTag := tag } ∧ (tag w).isSome = true ∧
      ∀ x, s.hasDesk x = true → tag x = s.deskTag x := by
  unfold State.tagWindow
  split
  next hw => exact ⟨s.deskTag, rfl, hw, fun _ _ => rfl⟩
  next hw =>
    refine ⟨_, rfl, ?_, ?_⟩
    · rw [Function.update_self]
      rfl
    · intro x hx
      rw [Function.update_of_ne]
      rintro rfl
      exact hw hx

theorem foldl_tagWindow_eq (ws : List Window) (s : State) :
    ∃ tag, ws.foldl State.tagWindow s = { s with deskTag := tag } ∧
      (∀ w ∈ ws, (tag w).isSome = true) ∧ ∀ x, s.hasDesk x = true → tag x = s.deskTag x := by
  induction ws generalizing s with
  | nil => exact ⟨s.deskTag, rfl, fun _ h => (nomatch h), fun _ _ => rfl⟩
  | cons w ws ih =>
      obtain ⟨tag, htag, hw, hkeep⟩ := tagWindow_eq s w
      obtain ⟨tag', htag', hws, hkeep'⟩ := ih { s with deskTag := tag }
      refine ⟨tag', ?_, ?_, ?_⟩
      · rw [List.foldl_cons, htag, htag']
      · intro x hx
        rcases List.mem_cons.mp hx with rfl | hx
        · exact (hkeep' x hw).symm ▸ hw
        · exact hws x hx
      · intro x hx
        have hx' : (tag x).isSome = true := (hkeep x hx).symm ▸ hx
        exact (hkeep' x hx').trans (hkeep x hx)

/-- Every managed window has a desk then; those that had one keep it. -/
theorem tagNewWindows_eq (s : State) :
    ∃ tag, s.tagNewWindows = { s with deskTag := tag } ∧
      (∀ w ∈ s.allWindows, (tag w).isSome = true) ∧
        ∀ x, s.hasDesk x = true → tag x = s.deskTag x :=
  foldl_tagWindow_eq s.allWindows s

namespace Reflects

variable {s t : State} {p : Window → Option Place} {w : Window}

theorem retainStashed (h : Reflects s p) :
    Reflects s.retainStashed (retain p .stashed s.alive) := by
  refine Holds.retain h ?_ ?_
  · intro b hb
    cases b with
    | space => rfl
    | stashed => exact absurd rfl hb
    | minimized => rfl
  · change _ = (s.desks.stashed.map Minimized.window).filter s.alive
    rw [List.filter_map]
    rfl

theorem tagNewWindows (h : Reflects s p) : Reflects s.tagNewWindows p := by
  obtain ⟨tag, heq, -, -⟩ := tagNewWindows_eq s
  rw [heq]
  exact h.of_same (fun _ => Iff.rfl) rfl rfl

theorem refreshFocus (h : Reflects s p) : Reflects s.refreshFocus p := by
  obtain ⟨focus, heq⟩ := s.refreshFocus_eq
  rw [heq]
  exact h.of_same (fun _ => Iff.rfl) rfl rfl

theorem activateWindow (h : Reflects s p) (w : Window) : Reflects (s.activateWindow w) p := by
  obtain ⟨stack, focus, heq, hmem⟩ := s.activateWindow_eq w
  rw [heq]
  exact h.of_same hmem rfl rfl

theorem focusDesk (h : Reflects s p) (desk : Text) : Reflects (s.focusDesk desk) p := by
  unfold State.focusDesk
  split
  · exact h.activateWindow _
  · split
    · exact h.activateWindow _
    · exact h.refreshFocus

/-- A mapped window stays in its place when it is mapped again. -/
theorem remap (h : Reflects s p) (hw : p w = some .space) (loc : Point) :
    Reflects (s.mapElement w loc) p := by
  have hmap := h.mapElement (.inr hw) loc
  rwa [← hw, Function.update_eq_self] at hmap

theorem unmaximizeWindow (h : Reflects s p) (hw : p w = some .space) (g : Placement) :
    Reflects (s.unmaximizeWindow g w) p := by
  let client := Function.update s.client w { s.client w with pendingMaximized := false }
  have hclient : Reflects { s with client := client } p := h.of_same (fun _ => Iff.rfl) rfl rfl
  unfold State.unmaximizeWindow
  split
  · exact h
  · split
    · exact hclient
    · exact hclient.remap hw _

theorem setLayoutMode (h : Reflects s p) (g : Placement) (mode : LayoutMode) :
    Reflects (s.setLayoutMode g mode) p := by
  have hfold : ∀ (ws : List Window) (t : State), Reflects t p → (∀ w ∈ ws, p w = some .space) →
      Reflects (ws.foldl (fun t w =>
        if (t.client w).pendingMaximized && t.tileable w then t.unmaximizeWindow g w else t) t)
        p := by
    intro ws
    induction ws with
    | nil => exact fun t ht _ => ht
    | cons w ws ih =>
        intro t ht hws
        refine ih _ ?_ fun x hx => hws x (List.mem_cons_of_mem w hx)
        dsimp only
        split
        · exact ht.unmaximizeWindow (hws w List.mem_cons_self) g
        · exact ht
  unfold State.setLayoutMode
  split
  · exact h
  · split
    · refine hfold _ _ (h.of_same (fun _ => Iff.rfl) rfl rfl) ?_
      exact fun w hw => h.mem_elements.mp hw
    · exact h.of_same (fun _ => Iff.rfl) rfl rfl

theorem foldl_restoreWindow (h : Reflects s p) (ws : List Window)
    (halive : ∀ w ∈ ws, s.alive w = true) :
    Reflects (ws.foldl State.restoreWindow s) (move p .stashed .space ws) := by
  induction ws generalizing s p with
  | nil => exact (move_nil (p := p)).symm ▸ h
  | cons w ws ih =>
      have hrest : ∀ x ∈ ws, (s.restoreWindow w).alive x = true := fun x hx =>
        ((SameDesks.restoreWindow s w).alive x).trans (halive x (List.mem_cons_of_mem w hx))
      exact move_cons (p := p) w ws ▸
        ih (h.restoreWindow (halive w List.mem_cons_self)) hrest

end Reflects

/-! ## A switch of desk -/

/-- What a switch is for: what is not minimised is mapped if it shows and stashed if not. -/
def sortBy (shows : Window → Bool) (p : Window → Option Place) : Window → Option Place := fun w =>
  match p w with
  | none => none
  | some .minimized => some .minimized
  | some _ => if shows w then some .space else some .stashed

theorem sortBy_eq_none {shows : Window → Bool} {p : Window → Option Place} {w : Window} :
    sortBy shows p w = none ↔ p w = none := by
  unfold sortBy
  cases hp : p w with
  | none => simp
  | some place => cases place <;> cases shows w <;> simp

theorem mem_stashOrder {s : State} {stash : List Window} {w : Window} :
    w ∈ s.stashOrder stash ↔ w ∈ stash := by
  unfold State.stashOrder
  split
  · exact List.mem_insertionSort _
  · exact Iff.rfl

theorem SameDesks.exchange (s : State) (stash restore : List Window) :
    SameDesks s (s.exchange stash restore) := by
  unfold State.exchange
  split
  · exact refl s
  · exact (foldl stashWindow s _).trans (foldl restoreWindow _ _)

/-- Putting away what does not show and bringing back what does sorts the windows. -/
theorem Reflects.exchange {s : State} {p : Window → Option Place} (h : Reflects s p)
    {shows : Window → Bool} {stash restore : List Window}
    (hstash : ∀ w, w ∈ stash ↔ p w = some .space ∧ shows w = false)
    (hrestore : ∀ w, w ∈ restore ↔ p w = some .stashed ∧ shows w = true)
    (halive : ∀ w, p w = some .stashed → s.alive w = true) :
    Reflects (s.exchange stash restore) (sortBy shows p) := by
  have hsort : ∀ back : List Window,
      (∀ w, p w = some .stashed → (w ∈ back ↔ shows w = true)) →
      (∀ w, p w ≠ some .stashed → w ∉ back) →
      move (move p .space .stashed (s.stashOrder stash)) .stashed .space back =
        sortBy shows p := by
    intro back hback hother
    funext w
    cases hp : p w with
    | none => simp [move, sortBy, hp]
    | some place =>
        cases place with
        | space =>
            have hw : w ∉ back := hother w (by simp [hp])
            cases hshows : shows w <;>
              simp [move, sortBy, mem_stashOrder, hstash, hw, hp, hshows]
        | stashed =>
            have hw := hback w hp
            cases hshows : shows w <;> simp [move, sortBy, hw, hp, hshows]
        | minimized => simp [move, sortBy, hp]
  unfold State.exchange
  split
  next hnone =>
    have hsame := hsort [] ?_ fun w _ => List.not_mem_nil
    · rw [← hsame]
      have hstashed : s.stashOrder stash = [] :=
        List.eq_nil_iff_forall_not_mem.mpr fun w hw => by
          simpa [hnone.1] using mem_stashOrder.mp hw
      rw [hstashed, move_nil, move_nil]
      exact h
    · intro w hw
      have hno : w ∉ restore := hnone.2 ▸ List.not_mem_nil
      have hshows : shows w ≠ true := fun hshows => hno ((hrestore w).mpr ⟨hw, hshows⟩)
      simp [hshows]
  next =>
    have hout := h.foldl_stashWindow (s.stashOrder stash)
    have hkeep := SameDesks.foldl SameDesks.stashWindow s (s.stashOrder stash)
    have hback : ∀ w, w ∈ ((s.stashOrder stash).foldl State.stashWindow s).stashedWindows.filter
        (fun w => restore.contains w) ↔ p w = some .stashed ∧ shows w = true := by
      intro w
      rw [List.mem_filter, List.contains_iff_mem, hrestore, hout.mem_stashed]
      constructor
      · exact And.right
      · rintro ⟨hw, hshows⟩
        exact ⟨by simp [move, hw], hw, hshows⟩
    rw [← hsort (((s.stashOrder stash).foldl State.stashWindow s).stashedWindows.filter
      fun w => restore.contains w)]
    · refine hout.foldl_restoreWindow _ fun w hw => ?_
      exact (hkeep.alive w).trans (halive w ((hback w).mp hw).1)
    · intro w hw
      rw [hback]
      exact and_iff_right hw
    · intro w hw hin
      exact hw ((hback w).mp hin).1

/-- What a switch to a desk does to the places and to the desks of the windows. -/
structure Switch (s t : State) (p : Window → Option Place) (desk : Text) : Prop where
  nextId : t.nextId = s.nextId
  reflects : Reflects t (sortBy t.deskShows (retain p .stashed s.alive))
  current : t.desks.current = desk
  alive : ∀ w, t.alive w = s.alive w
  hasDesk : ∀ w ∈ t.allWindows, t.hasDesk w = true
  windowDesk : ∀ w ∈ t.allWindows, s.hasDesk w = true → s.windowDesk w = desk →
    t.windowDesk w = desk

/-- A switch stashes what is in the space and not shown. -/
theorem Reflects.mem_toStash {s : State} {p : Window → Option Place} (h : Reflects s p)
    (old : List Text) (w : Window) :
    w ∈ s.toStash old ↔ p w = some .space ∧ (s.switched old w).2 = false := by
  rw [State.toStash, List.mem_filter, h.mem_allWindows, h.isStashed, h.isMinimized]
  rcases hw : p w with _ | _ | _ | _ <;> simp

/-- A switch takes back what is stashed and shown. -/
theorem Reflects.mem_toRestore {s : State} {p : Window → Option Place} (h : Reflects s p)
    (old : List Text) (w : Window) :
    w ∈ s.toRestore old ↔ p w = some .stashed ∧ (s.switched old w).2 = true := by
  rw [State.toRestore, List.mem_filter, h.mem_allWindows, h.isStashed]
  rcases hw : p w with _ | _ | _ | _ <;> simp

theorem alive_of_retain {p : Window → Option Place} {alive : Window → Bool} {w : Window}
    (hw : retain p .stashed alive w = some .stashed) : alive w = true := by
  by_contra hdead
  have hdead : alive w = false := by simpa using hdead
  by_cases hst : p w = some .stashed
  · simp [retain, hst, hdead] at hw
  · simp [retain, hst] at hw

theorem Reflects.setDesk {s : State} {p : Window → Option Place} (h : Reflects s p)
    (g : Placement) (desk : Text) (sticky : Option (List Text)) (mode : Option LayoutMode) :
    Switch s (s.setDesk g desk sticky mode) p desk := by
  obtain ⟨tag, htag, htagged, hkept⟩ := tagNewWindows_eq s.retainStashed
  let p₁ := retain p .stashed s.alive
  let s₂ := s.retainStashed.tagNewWindows.enterDesk desk sticky
  let old := s.retainStashed.tagNewWindows.desks.sticky
  let s₃ := s₂.retagAll old
  let s₄ := s₃.exchange (s₂.toStash old) (s₂.toRestore old)
  have h₁ : Reflects s.retainStashed.tagNewWindows p₁ := h.retainStashed.tagNewWindows
  have h₂ : Reflects s₂ p₁ := h₁.of_same (fun _ => Iff.rfl) rfl rfl
  have h₃ : Reflects s₃ p₁ := h₂.of_same (fun _ => Iff.rfl) rfl rfl
  have hclient : s₃.client = s.client := by
    change s.retainStashed.tagNewWindows.client = _
    rw [htag]
    rfl
  have halive : ∀ w, p₁ w = some .stashed → s₃.alive w = true := by
    intro w hw
    rw [State.alive, hclient]
    exact alive_of_retain hw
  have h₄ : Reflects s₄ (sortBy (fun w => (s₂.switched old w).2) p₁) :=
    h₃.exchange (h₂.mem_toStash old) (h₂.mem_toRestore old) halive
  -- the mode and the keyboard change nothing of this
  have hrest : ∃ t, s.setDesk g desk sticky mode = t ∧ SameDesks s₃ t ∧
      Reflects t (sortBy (fun w => (s₂.switched old w).2) p₁) := by
    refine ⟨_, rfl, ?_⟩
    have hsame₄ : SameDesks s₃ s₄ := SameDesks.exchange _ _ _
    have hmode : SameDesks s₃ ((mode.map fun mode => s₄.setLayoutMode g mode).getD s₄) ∧
        Reflects ((mode.map fun mode => s₄.setLayoutMode g mode).getD s₄)
          (sortBy (fun w => (s₂.switched old w).2) p₁) := by
      cases mode with
      | none => exact ⟨hsame₄, h₄⟩
      | some mode =>
          exact ⟨hsame₄.trans (SameDesks.setLayoutMode s₄ g mode), h₄.setLayoutMode g mode⟩
    have hfocus : ∀ (c : Prop) [Decidable c] (u : State), SameDesks s₃ u ∧
        Reflects u (sortBy (fun w => (s₂.switched old w).2) p₁) →
          SameDesks s₃ (if c then u.focusDesk desk else u) ∧
            Reflects (if c then u.focusDesk desk else u)
              (sortBy (fun w => (s₂.switched old w).2) p₁) := by
      intro c _ u hu
      split
      · exact ⟨hu.1.trans (SameDesks.focusDesk u desk), hu.2.focusDesk desk⟩
      · exact hu
    exact hfocus _ _ hmode
  obtain ⟨t, ht, hsame, ht'⟩ := hrest
  have hall : ∀ w, w ∈ t.allWindows ↔ w ∈ s₃.allWindows := by
    intro w
    rw [ht'.mem_allWindows, h₃.mem_allWindows]
    exact not_congr sortBy_eq_none
  have hswitched : ∀ w ∈ s₃.allWindows, t.deskTag w = some (s₂.switched old w).1 := by
    intro w hw
    rw [hsame.deskTag]
    exact if_pos hw
  have hshows : ∀ w ∈ s₃.allWindows, t.deskShows w = (s₂.switched old w).2 := by
    intro w hw
    have hsticky : s₃.windowSticky w = s₂.windowSticky w :=
      stickyUnder_congr (fun _ => rfl) (fun _ => rfl) (fun _ => Iff.rfl) _ w
    rw [State.deskShows, hsame.current, hsame.windowSticky hall, hsticky, State.windowDesk,
      hswitched w hw]
    rfl
  have hnextId : s₃.nextId = s.nextId := by
    change s.retainStashed.tagNewWindows.nextId = _
    rw [htag]
    rfl
  rw [ht]
  refine ⟨hsame.nextId.trans hnextId, ?_, hsame.current, ?_, ?_, ?_⟩
  · have hplaces : sortBy t.deskShows p₁ = sortBy (fun w => (s₂.switched old w).2) p₁ := by
      funext w
      unfold sortBy
      cases hw : p₁ w with
      | none => rfl
      | some place =>
          have hin : w ∈ s₃.allWindows := h₃.mem_allWindows.mpr (by simp [hw])
          cases place <;> simp [hshows w hin]
    exact hplaces ▸ ht'
  · intro w
    rw [hsame.alive, State.alive, hclient, State.alive]
  · intro w hw
    rw [State.hasDesk, hswitched w ((hall w).mp hw)]
    rfl
  · intro w hw hhas hdesk
    have hs₂ : s₂.windowDesk w = desk := by
      change (s.retainStashed.tagNewWindows.deskTag w).getD [] = desk
      rw [htag]
      change (tag w).getD [] = desk
      rw [hkept w hhas]
      exact hdesk
    rw [State.windowDesk, hswitched w ((hall w).mp hw), Option.getD_some, State.switched, hs₂]
    change (if _ then desk else desk) = desk
    exact ite_self desk

/-- Whatever becomes of the windows, a switch sets the current desk and the sticky list. -/
theorem setDesk_desks (s : State) (g : Placement) (desk : Text) (sticky : Option (List Text))
    (mode : Option LayoutMode) :
    (s.setDesk g desk sticky mode).desks.current = desk ∧
      (s.setDesk g desk sticky mode).desks.sticky =
        (sticky.map cleanSticky).getD s.desks.sticky := by
  obtain ⟨tag, htag, -, -⟩ := tagNewWindows_eq s.retainStashed
  have hsticky : s.retainStashed.tagNewWindows.desks.sticky = s.desks.sticky := by
    rw [htag]
    rfl
  have hfocus : ∀ (c : Prop) [Decidable c] (t : State),
      SameDesks t (if c then t.focusDesk desk else t) := by
    intro c _ t
    split
    · exact SameDesks.focusDesk t desk
    · exact SameDesks.refl t
  have hmode : ∀ t : State, SameDesks t ((mode.map fun mode => t.setLayoutMode g mode).getD t) := by
    intro t
    cases mode with
    | none => exact SameDesks.refl t
    | some mode => exact SameDesks.setLayoutMode t g mode
  let s₂ := s.retainStashed.tagNewWindows.enterDesk desk sticky
  have hrest : SameDesks (s₂.retagAll s.retainStashed.tagNewWindows.desks.sticky)
      (s.setDesk g desk sticky mode) :=
    (SameDesks.exchange _ _ _).trans ((hmode _).trans
      (hfocus (s.retainStashed.tagNewWindows.desks.current ≠ desk) _))
  refine ⟨hrest.current, hrest.sticky.trans ?_⟩
  show (sticky.map cleanSticky).getD s.retainStashed.tagNewWindows.desks.sticky = _
  rw [hsticky]

theorem showDeskOf_desks (s : State) (g : Placement) (w : Window) :
    SameDesks s (s.showDeskOf g w) ∨ s.windowDesk w ≠ s.desks.current ∧
      SameDesks (s.setDesk g (s.windowDesk w) none none) (s.showDeskOf g w) := by
  have hrestore : ∀ t : State, SameDesks t (if t.isStashed w then t.restoreWindow w else t) := by
    intro t
    split
    · exact SameDesks.restoreWindow t w
    · exact SameDesks.refl t
  unfold State.showDeskOf
  split
  · exact .inl (SameDesks.refl s)
  · by_cases hother : s.windowDesk w ≠ s.desks.current
    · simp only [if_pos hother]
      exact .inr ⟨hother, hrestore _⟩
    · simp only [if_neg hother]
      exact .inl (hrestore s)

end MindOS.Wm
