import MindOS.Wm.Arrange
import MindOS.Wm.Desk.Partition

/-!
# A visit to a desk

Which windows a switch puts away and brings back is told by the places of the windows.
Here is how they are stacked and listed after it: what stays keeps its order and is below
what comes back, and what is put away is listed after what was. A turn of the loop after
the switch leaves a state that the next switch can start from.
-/

namespace MindOS.Wm

open Places

variable {s t : State} {p : Window → Option Place} {w : Window}

/-! ## The lists that a switch leaves -/

theorem filter_erase {l ws : List Window} (hl : l.Nodup) (w : Window) :
    (l.erase w).filter (fun x => decide (x ∉ ws)) =
      l.filter fun x => decide (x ∉ w :: ws) := by
  rw [hl.erase_eq_filter, List.filter_filter]
  refine List.filter_congr fun x _ => ?_
  by_cases hx : x = w
  · simp [hx]
  · simp [hx]

/-- The windows that are put away leave the space, and join the stashed ones in turn. -/
theorem lists_foldl_stashWindow {ws : List Window} (hws : ws.Nodup)
    (hin : ∀ w ∈ ws, w ∈ s.elements) (hout : ∀ w ∈ ws, w ∉ s.stashedWindows) :
    (ws.foldl State.stashWindow s).elements = s.elements.filter (fun w => decide (w ∉ ws)) ∧
      (ws.foldl State.stashWindow s).stashedWindows = s.stashedWindows ++ ws := by
  induction ws generalizing s with
  | nil => simp
  | cons w ws ih =>
      obtain ⟨hw, hrest⟩ := List.nodup_cons.mp hws
      let e : Minimized := ⟨w, s.space.location w, s.windowHome w⟩
      have hstep : s.stashWindow w =
          { s.unmapElem w with desks := { s.desks with stashed := s.desks.stashed ++ [e] } } := by
        have hst : ¬ s.isStashed w = true := by
          simpa [State.isStashed] using hout w List.mem_cons_self
        rw [State.stashWindow, if_neg hst, State.takeOutOfSpace, State.elementLocation,
          if_pos (hin w List.mem_cons_self)]
        rfl
      have helements : (s.stashWindow w).elements = s.elements.erase w := by
        rw [hstep]
        rfl
      have hstashed : (s.stashWindow w).stashedWindows = s.stashedWindows ++ [w] := by
        rw [hstep]
        exact List.map_append
      have hne : ∀ x ∈ ws, x ≠ w := fun x hx h => hw (h ▸ hx)
      obtain ⟨hels, hsts⟩ := ih (s := s.stashWindow w) hrest
        (fun x hx => by
          rw [helements, List.mem_erase_of_ne (hne x hx)]
          exact hin x (List.mem_cons_of_mem w hx))
        (fun x hx => by
          rw [hstashed, List.mem_append, List.mem_singleton]
          rintro (h | h)
          · exact hout x (List.mem_cons_of_mem w hx) h
          · exact hne x hx h)
      rw [List.foldl_cons, hels, hsts, helements, hstashed]
      exact ⟨filter_erase s.nodup_elements w, by simp⟩

/-- The windows that come back go on top of the others in turn. -/
theorem lists_foldl_restoreWindow {ws : List Window} (hws : ws.Nodup)
    (hin : ∀ w ∈ ws, w ∈ s.stashedWindows) (hout : ∀ w ∈ ws, w ∉ s.elements)
    (halive : ∀ w ∈ ws, s.alive w = true) (hnodup : s.stashedWindows.Nodup) :
    (ws.foldl State.restoreWindow s).elements = s.elements ++ ws ∧
      (ws.foldl State.restoreWindow s).stashedWindows =
        s.stashedWindows.filter fun w => decide (w ∉ ws) := by
  induction ws generalizing s with
  | nil => simp
  | cons w ws ih =>
      obtain ⟨hw, hrest⟩ := List.nodup_cons.mp hws
      obtain ⟨e, he⟩ : ∃ e, s.stashedEntry w = some e := by
        refine Option.ne_none_iff_exists'.mp fun hnone => ?_
        exact find?_window_none.mp hnone (hin w List.mem_cons_self)
      obtain rfl := (find?_window he).1
      have hstep : s.restoreWindow e.window =
          (s.unstash e.window).mapElement e.window e.location := by
        simp only [State.restoreWindow, he]
        exact congrArg Prod.fst (if_pos (halive e.window List.mem_cons_self))
      have helements : (s.restoreWindow e.window).elements = s.elements ++ [e.window] := by
        rw [hstep]
        exact Stack.toEnd_of_notMem (hout e.window List.mem_cons_self)
      have hstashed : (s.restoreWindow e.window).stashedWindows =
          s.stashedWindows.erase e.window := by
        rw [hstep]
        exact map_window_eraseP _ _
      have hne : ∀ x ∈ ws, x ≠ e.window := fun x hx h => hw (h ▸ hx)
      obtain ⟨hels, hsts⟩ := ih (s := s.restoreWindow e.window) hrest
        (fun x hx => by
          rw [hstashed, List.mem_erase_of_ne (hne x hx)]
          exact hin x (List.mem_cons_of_mem _ hx))
        (fun x hx => by
          rw [helements, List.mem_append, List.mem_singleton]
          rintro (h | h)
          · exact hout x (List.mem_cons_of_mem _ hx) h
          · exact hne x hx h)
        (fun x hx => ((SameDesks.restoreWindow s e.window).alive x).trans
          (halive x (List.mem_cons_of_mem _ hx)))
        (hstashed ▸ hnodup.erase _)
      rw [List.foldl_cons, hels, hsts, helements, hstashed]
      exact ⟨by simp, filter_erase hnodup e.window⟩

theorem stashOrder_perm (s : State) (stash : List Window) : (s.stashOrder stash).Perm stash := by
  unfold State.stashOrder
  split
  · exact List.perm_insertionSort _ _
  · exact List.Perm.refl _

/-- What shows is stacked as it was, below what comes back; what does not show is stashed,
after what was stashed before. -/
theorem lists_exchange (h : Reflects s p) {shows : Window → Bool} {stash restore : List Window}
    (hstash : stash = s.elements.filter fun w => !shows w)
    (hrestore : restore = s.stashedWindows.filter shows)
    (halive : ∀ w ∈ s.stashedWindows, s.alive w = true) :
    (s.exchange stash restore).elements =
        s.elements.filter shows ++ s.stashedWindows.filter shows ∧
      (s.exchange stash restore).stashedWindows =
        s.stashedWindows.filter (fun w => !shows w) ++ s.stashOrder stash := by
  have hdisjoint : ∀ w ∈ s.stashedWindows, w ∉ s.elements := fun w hw =>
    h.disjoint (a := .stashed) (b := .space) (by decide) hw
  have hmem : ∀ w, w ∈ s.stashOrder stash ↔ w ∈ s.elements ∧ shows w = false := by
    intro w
    rw [mem_stashOrder, hstash, List.mem_filter, Bool.not_eq_true']
  have hnodup : (s.stashOrder stash).Nodup := by
    rw [(stashOrder_perm s stash).nodup_iff, hstash]
    exact s.nodup_elements.filter _
  unfold State.exchange
  split
  next hnone =>
    have hall : s.elements.filter shows = s.elements := by
      rw [List.filter_eq_self]
      intro w hw
      by_contra hshows
      have hin : w ∈ stash := by
        rw [hstash, List.mem_filter]
        exact ⟨hw, by simpa using hshows⟩
      rw [hnone.1] at hin
      cases hin
    have hback : s.stashedWindows.filter shows = [] := hrestore.symm.trans hnone.2
    have hkeep : s.stashedWindows.filter (fun w => !shows w) = s.stashedWindows := by
      rw [List.filter_eq_self]
      intro w hw
      have hw := List.filter_eq_nil_iff.mp hback w hw
      simpa using hw
    have hsorted : s.stashOrder stash = [] :=
      (stashOrder_perm s stash).trans (List.Perm.of_eq hnone.1) |>.eq_nil
    rw [hall, hback, hkeep, hsorted, List.append_nil, List.append_nil]
    exact ⟨rfl, rfl⟩
  next =>
    obtain ⟨hels, hsts⟩ := lists_foldl_stashWindow hnodup (fun w hw => ((hmem w).mp hw).1)
      fun w hw hst => hdisjoint w hst ((hmem w).mp hw).1
    have halive' := (SameDesks.foldl SameDesks.stashWindow s (s.stashOrder stash)).alive
    have hreflects := h.foldl_stashWindow (s.stashOrder stash)
    generalize (s.stashOrder stash).foldl State.stashWindow s = u at hels hsts halive' hreflects
    have hback : u.stashedWindows.filter (fun w => restore.contains w) =
        s.stashedWindows.filter shows := by
      rw [hsts, List.filter_append]
      have hnew : (s.stashOrder stash).filter (fun w => restore.contains w) = [] := by
        refine List.filter_eq_nil_iff.mpr fun w hw => ?_
        rw [List.contains_iff_mem, hrestore, List.mem_filter]
        exact fun hin => hdisjoint w hin.1 ((hmem w).mp hw).1
      rw [hnew, List.append_nil, hrestore]
      refine List.filter_congr fun w hw => ?_
      cases hshows : shows w <;> simp [hw, hshows]
    dsimp only
    rw [hback]
    obtain ⟨hels', hsts'⟩ := lists_foldl_restoreWindow (s := u)
      (h.nodup_stashed.filter shows)
      (fun w hw => by
        rw [hsts]
        exact List.mem_append_left _ (List.mem_of_mem_filter hw))
      (fun w hw => by
        rw [hels]
        exact fun hin => hdisjoint w (List.mem_of_mem_filter hw) (List.mem_of_mem_filter hin))
      (fun w hw => (halive' w).trans (halive w (List.mem_of_mem_filter hw)))
      hreflects.nodup_stashed
    rw [hels', hsts', hels, hsts, List.filter_append]
    refine ⟨?_, ?_⟩
    · congr 1
      refine List.filter_congr fun w hw => ?_
      have hw := hmem w
      cases hshows : shows w <;> simp_all
    · congr 1
      · refine List.filter_congr fun w hw => ?_
        cases hshows : shows w <;> simp [hw, hshows]
      · rw [List.filter_eq_self]
        intro w hw
        have hno : w ∉ s.stashedWindows := fun hin => hdisjoint w hin ((hmem w).mp hw).1
        simp [hno]

/-! ## A switch that keeps the list and the mode -/

/-- The window shows on a desk that is gone to. -/
def State.comes (s : State) (desk : Text) (w : Window) : Bool :=
  s.windowSticky w || (s.windowDesk w).isEmpty || s.windowDesk w == desk

theorem stashWindow_eq (s : State) (w : Window) : ∃ space stashed,
    s.stashWindow w = { s with space := space, desks := { s.desks with stashed := stashed } } := by
  unfold State.stashWindow
  split
  · exact ⟨s.space, s.desks.stashed, rfl⟩
  · split
    · exact ⟨s.space, s.desks.stashed, rfl⟩
    next t e h =>
      obtain ⟨loc, -, heq⟩ := Option.map_eq_some_iff.mp h
      obtain ⟨rfl, -⟩ := Prod.mk.inj heq
      exact ⟨_, _, rfl⟩

theorem restoreWindow_eq (s : State) (w : Window) : ∃ space stashed,
    s.restoreWindow w =
      { s with space := space, desks := { s.desks with stashed := stashed } } := by
  unfold State.restoreWindow
  split
  · exact ⟨s.space, s.desks.stashed, rfl⟩
  next e h =>
    unfold State.putBackInSpace
    split
    · exact ⟨_, _, rfl⟩
    · exact ⟨s.space, _, rfl⟩

theorem foldl_stashed_eq {f : State → Window → State}
    (hf : ∀ s w, ∃ space stashed,
      f s w = { s with space := space, desks := { s.desks with stashed := stashed } })
    (ws : List Window) (s : State) : ∃ space stashed,
      ws.foldl f s = { s with space := space, desks := { s.desks with stashed := stashed } } := by
  induction ws generalizing s with
  | nil => exact ⟨s.space, s.desks.stashed, rfl⟩
  | cons w ws ih =>
      obtain ⟨space, stashed, h⟩ := hf s w
      obtain ⟨space', stashed', h'⟩ := ih (f s w)
      refine ⟨space', stashed', ?_⟩
      rw [List.foldl_cons, h', h]

/-- Putting windows away and bringing others back changes what is mapped and stashed. -/
theorem exchange_eq (s : State) (stash restore : List Window) : ∃ space stashed,
    s.exchange stash restore =
      { s with space := space, desks := { s.desks with stashed := stashed } } := by
  unfold State.exchange
  split
  · exact ⟨s.space, s.desks.stashed, rfl⟩
  · obtain ⟨space, stashed, h⟩ := foldl_stashed_eq stashWindow_eq (s.stashOrder stash) s
    dsimp only
    rw [h]
    obtain ⟨space', stashed', h'⟩ := foldl_stashed_eq restoreWindow_eq _ _
    exact ⟨space', stashed', h'⟩

/-- What a switch to another desk leaves, before a window gets the keyboard. -/
structure Went (s u : State) (desk : Text) : Prop where
  rest : u = { s with space := u.space, desks := u.desks, deskTag := u.deskTag }
  current : u.desks.current = desk
  sticky : u.desks.sticky = s.desks.sticky
  lastFocus : u.desks.lastFocus =
    match s.focusedWindow with
    | some w => Function.update s.desks.lastFocus s.desks.current (some w)
    | none => s.desks.lastFocus
  elements : u.elements =
    s.elements.filter (s.comes desk) ++ s.stashedWindows.filter (s.comes desk)
  stashed : u.stashedWindows = s.stashedWindows.filter (fun w => !s.comes desk w) ++
    s.stashOrder (s.elements.filter fun w => !s.comes desk w)
  deskTag : ∀ w ∈ s.allWindows, u.deskTag w =
    some (if (s.windowDesk w).isEmpty || s.windowSticky w then desk else s.windowDesk w)

/-- A window shows on the desk that is gone to if it comes there. -/
theorem switched_eq {b s : State} {desk : Text} (hdesk : desk ≠ [])
    (hcurrent : s.desks.current = desk) (htag : s.windowDesk w = b.windowDesk w)
    (hsticky : s.windowSticky w = b.windowSticky w)
    (hbefore : s.stickyUnder b.desks.sticky w = b.windowSticky w) :
    s.switched b.desks.sticky w =
      (if (b.windowDesk w).isEmpty || b.windowSticky w then desk else b.windowDesk w,
        b.comes desk w) := by
  have hname : desk.isEmpty = false := by simpa using hdesk
  rw [State.switched, hcurrent, htag, hsticky, hbefore, switchWindow, State.comes, showsOn]
  cases b.windowSticky w with
  | true => simp
  | false => cases hd : (b.windowDesk w).isEmpty <;> simp [hd, hname]

/-- A switch to another desk, by what it does to the windows as they are after the
housekeeping. -/
theorem setDesk_went {b : State} (hb : s.retainStashed.tagNewWindows = b) (h : Reflects b p)
    (halive : ∀ w ∈ b.stashedWindows, b.alive w = true) (g : Placement) {desk : Text}
    (hdesk : desk ≠ []) (hcurrent : b.desks.current ≠ []) (hother : b.desks.current ≠ desk)
    {sticky : Option (List Text)} {mode : Option LayoutMode}
    (hsticky : ∀ l ∈ sticky, cleanSticky l = b.desks.sticky)
    (hmode : ∀ m ∈ mode, m = b.layout.mode) :
    ∃ u, Went b u desk ∧ Reflects u (sortBy (b.comes desk) p) ∧
      s.setDesk g desk sticky mode = u.focusDesk desk := by
  have hlist : (sticky.map cleanSticky).getD b.desks.sticky = b.desks.sticky := by
    cases sticky with
    | none => rfl
    | some l => exact hsticky l rfl
  let s₂ := b.enterDesk desk sticky
  let s₃ := s₂.retagAll b.desks.sticky
  have hstickyUnder : ∀ w, s₂.stickyUnder b.desks.sticky w = b.windowSticky w := fun w =>
    stickyUnder_congr (fun _ => rfl) (fun _ => rfl) (fun _ => Iff.rfl) _ w
  have hswitched : ∀ w, s₂.switched b.desks.sticky w =
      (if (b.windowDesk w).isEmpty || b.windowSticky w then desk else b.windowDesk w,
        b.comes desk w) := by
    intro w
    refine switched_eq hdesk rfl rfl ?_ (hstickyUnder w)
    change s₂.stickyUnder ((sticky.map cleanSticky).getD b.desks.sticky) w = _
    rw [hlist]
    exact hstickyUnder w
  have h₃ : Reflects s₃ p := h.of_same (fun _ => Iff.rfl) rfl rfl
  have hstash : s₂.toStash b.desks.sticky = b.elements.filter fun w => !b.comes desk w := by
    change b.allWindows.filter (fun w => !b.isStashed w &&
      (!(s₂.switched b.desks.sticky w).2 && !b.isMinimized w)) = _
    simp only [hswitched, State.allWindows, List.filter_append]
    have hst : b.stashedWindows.filter (fun w => !b.isStashed w &&
        (!b.comes desk w && !b.isMinimized w)) = [] := by
      refine List.filter_eq_nil_iff.mpr fun w hw => ?_
      simp [h.isStashed, h.mem_stashed.mp hw]
    have hmi : b.minimizedWindows.filter (fun w => !b.isStashed w &&
        (!b.comes desk w && !b.isMinimized w)) = [] := by
      refine List.filter_eq_nil_iff.mpr fun w hw => ?_
      simp [h.isMinimized, h.mem_minimized.mp hw]
    rw [hst, hmi, List.append_nil, List.append_nil]
    refine List.filter_congr fun w hw => ?_
    simp [h.isStashed, h.isMinimized, h.mem_elements.mp hw]
  have hrestore : s₂.toRestore b.desks.sticky = b.stashedWindows.filter (b.comes desk) := by
    change b.allWindows.filter (fun w => b.isStashed w &&
      (s₂.switched b.desks.sticky w).2) = _
    simp only [hswitched, State.allWindows, List.filter_append]
    have hel : b.elements.filter (fun w => b.isStashed w && b.comes desk w) = [] := by
      refine List.filter_eq_nil_iff.mpr fun w hw => ?_
      simp [h.isStashed, h.mem_elements.mp hw]
    have hmi : b.minimizedWindows.filter (fun w => b.isStashed w && b.comes desk w) = [] := by
      refine List.filter_eq_nil_iff.mpr fun w hw => ?_
      simp [h.isStashed, h.mem_minimized.mp hw]
    rw [hel, hmi, List.append_nil, List.nil_append]
    refine List.filter_congr fun w hw => ?_
    simp [h.isStashed, h.mem_stashed.mp hw]
  have hset : s.setDesk g desk sticky mode =
      (s₃.exchange (s₂.toStash b.desks.sticky) (s₂.toRestore b.desks.sticky)).focusDesk desk := by
    unfold State.setDesk
    rw [hb]
    dsimp only
    rw [if_pos hother]
    cases mode with
    | none => rfl
    | some m =>
        obtain ⟨space, stashed, hu⟩ := exchange_eq s₃ (s₂.toStash b.desks.sticky)
          (s₂.toRestore b.desks.sticky)
        have hkeep : (s₃.exchange (s₂.toStash b.desks.sticky)
            (s₂.toRestore b.desks.sticky)).layout.mode = m := by
          rw [hu]
          exact (hmode m rfl).symm
        exact congrArg (State.focusDesk · desk) (if_pos hkeep)
  have hreflects : Reflects (s₃.exchange (s₂.toStash b.desks.sticky)
      (s₂.toRestore b.desks.sticky)) (sortBy (b.comes desk) p) := by
    refine h₃.exchange (fun w => ?_) (fun w => ?_) fun w hw => halive w (h.mem_stashed.mpr hw)
    · rw [hstash, List.mem_filter, h.mem_elements, Bool.not_eq_true']
    · rw [hrestore, List.mem_filter, h.mem_stashed]
  obtain ⟨space, stashed, hu⟩ := exchange_eq s₃ (s₂.toStash b.desks.sticky)
    (s₂.toRestore b.desks.sticky)
  obtain ⟨helements, hstashed⟩ := lists_exchange h₃ hstash hrestore halive
  refine ⟨_, ⟨?_, ?_, ?_, ?_, helements, ?_, ?_⟩, hreflects, hset⟩
  · rw [hu]
    rfl
  · rw [hu]
    rfl
  · rw [hu]
    exact hlist
  · rw [hu]
    change (match if b.desks.current ≠ desk ∧ b.desks.current ≠ [] then b.focusedWindow else none
      with
      | some w => Function.update b.desks.lastFocus b.desks.current (some w)
      | none => b.desks.lastFocus) = _
    rw [if_pos ⟨hother, hcurrent⟩]
  · rw [hstashed, hstash]
    rfl
  · intro w hw
    rw [hu]
    change (if w ∈ s₂.allWindows then some (s₂.switched b.desks.sticky w).1
      else s₂.deskTag w) = _
    rw [hswitched]
    exact if_pos hw

/-! ## A visit to a desk -/

theorem focusDesk_eq (s : State) (desk : Text) : ∃ stack : Stack Window, ∃ focus,
    s.focusDesk desk = { s with space := { s.space with stack := stack }, focus := focus } ∧
      ∀ x, x ∈ stack.items ↔ x ∈ s.elements := by
  have hrefresh : ∃ stack : Stack Window, ∃ focus,
      s.refreshFocus = { s with space := { s.space with stack := stack }, focus := focus } ∧
        ∀ x, x ∈ stack.items ↔ x ∈ s.elements := by
    obtain ⟨focus, h⟩ := s.refreshFocus_eq
    exact ⟨s.space.stack, focus, h, fun _ => Iff.rfl⟩
  unfold State.focusDesk
  split
  · exact s.activateWindow_eq _
  · split
    · exact s.activateWindow_eq _
    · exact hrefresh

theorem tagNewWindows_of_hasDesk (h : ∀ w ∈ s.allWindows, s.hasDesk w = true) :
    s.tagNewWindows = s := by
  have hfold : ∀ ws : List Window, (∀ w ∈ ws, s.hasDesk w = true) →
      ws.foldl State.tagWindow s = s := by
    intro ws
    induction ws with
    | nil => exact fun _ => rfl
    | cons w ws ih =>
        intro hws
        rw [List.foldl_cons, State.tagWindow, if_pos (hws w List.mem_cons_self)]
        exact ih fun x hx => hws x (List.mem_cons_of_mem w hx)
  exact hfold s.allWindows h

theorem retainStashed_of_alive (h : ∀ w ∈ s.stashedWindows, s.alive w = true) :
    s.retainStashed = s := by
  have hall : s.desks.stashed.filter (fun e => s.alive e.window) = s.desks.stashed := by
    rw [List.filter_eq_self]
    exact fun e he => h e.window (List.mem_map.mpr ⟨e, he, rfl⟩)
  rw [State.retainStashed, hall]

/-- The layout has arranged, and the housekeeping of the desks is done. -/
structure Ready (s : State) (p : Window → Option Place) : Prop where
  reflects : Reflects s p
  homed : Homed s
  outputs : s.outputs.list ≠ []
  mapped : ∀ w ∈ s.elements, s.alive w = true
  stashed : ∀ w ∈ s.stashedWindows, s.alive w = true

/-- A switch to a desk from a state that is ready, and a turn of the loop after it. -/
structure Visited (s u t : State) (desk : Text) : Prop where
  went : Went s u desk
  reflects : ∃ q, Reflects u q
  turned : Turned (u.focusDesk desk) t
  alive : ∀ w ∈ u.elements, s.alive w = true
  allWindows : ∀ w, w ∈ t.allWindows ↔ w ∈ s.allWindows

namespace Visited

variable {u : State} {desk n : Text}

theorem client (h : Visited s u t desk) : t.client = s.client := by
  obtain ⟨stack, focus, hfocus, -⟩ := focusDesk_eq u desk
  rw [h.turned.rest, hfocus, h.went.rest]

theorem outputs (h : Visited s u t desk) : t.outputs = s.outputs := by
  obtain ⟨stack, focus, hfocus, -⟩ := focusDesk_eq u desk
  rw [h.turned.rest, hfocus, h.went.rest]

theorem locked (h : Visited s u t desk) : t.locked = s.locked := by
  obtain ⟨stack, focus, hfocus, -⟩ := focusDesk_eq u desk
  rw [h.turned.rest, hfocus, h.went.rest]

theorem desks (h : Visited s u t desk) : t.desks = u.desks := by
  obtain ⟨stack, focus, hfocus, -⟩ := focusDesk_eq u desk
  rw [h.turned.rest, hfocus]

theorem deskTag (h : Visited s u t desk) : t.deskTag = u.deskTag := by
  obtain ⟨stack, focus, hfocus, -⟩ := focusDesk_eq u desk
  rw [h.turned.rest, hfocus]

theorem layout_focusDesk (h : Visited s u t desk) : (u.focusDesk desk).layout = s.layout := by
  obtain ⟨stack, focus, hfocus, -⟩ := focusDesk_eq u desk
  rw [hfocus, h.went.rest]

theorem tile_focusDesk (h : Visited s u t desk) : (u.focusDesk desk).tile = s.tile := by
  obtain ⟨stack, focus, hfocus, -⟩ := focusDesk_eq u desk
  rw [hfocus, h.went.rest]

theorem outputs_focusDesk (h : Visited s u t desk) : (u.focusDesk desk).outputs = s.outputs := by
  obtain ⟨stack, focus, hfocus, -⟩ := focusDesk_eq u desk
  rw [hfocus, h.went.rest]

theorem tileable (h : Visited s u t desk) (w : Window) : t.tileable w = s.tileable w := by
  obtain ⟨stack, focus, hfocus, -⟩ := focusDesk_eq u desk
  rw [h.turned.tileable, hfocus, h.went.rest]
  rfl

theorem stashedWindows (h : Visited s u t desk) : t.stashedWindows = u.stashedWindows := by
  rw [State.stashedWindows, h.desks, State.stashedWindows]

/-- Nothing that is mapped when the desk has the keyboard is lost in the turn. -/
theorem mem_focusDesk (h : Visited s u t desk) :
    w ∈ t.elements ↔ w ∈ (u.focusDesk desk).elements := by
  obtain ⟨stack, focus, hfocus, hmem⟩ := focusDesk_eq u desk
  have halive : (u.focusDesk desk).alive w = s.alive w := by
    rw [State.alive, hfocus, h.went.rest, State.alive]
  rw [h.turned.mem, halive]
  refine and_iff_left_of_imp fun hw => h.alive w ?_
  rw [hfocus] at hw
  exact (hmem w).mp hw

theorem mem_elements_went (h : Visited s u t desk) : w ∈ t.elements ↔ w ∈ u.elements := by
  obtain ⟨stack, focus, hfocus, hmem⟩ := focusDesk_eq u desk
  rw [h.mem_focusDesk, hfocus]
  exact hmem w

/-- What the desk shows was mapped or put away before, and comes there. -/
theorem mem_elements (h : Visited s u t desk) : w ∈ t.elements ↔
    (w ∈ s.elements ∨ w ∈ s.stashedWindows) ∧ s.comes desk w = true := by
  rw [h.mem_elements_went, h.went.elements, List.mem_append, List.mem_filter, List.mem_filter,
    or_and_right]

theorem windowSticky (h : Visited s u t desk) (w : Window) :
    t.windowSticky w = s.windowSticky w := by
  rw [State.windowSticky, State.windowSticky, h.desks, h.went.sticky]
  exact stickyUnder_congr (fun _ => by rw [h.client]) (fun _ => by rw [h.client])
    h.allWindows _ w

theorem windowSticky_went (h : Visited s u t desk) (w : Window) :
    u.windowSticky w = s.windowSticky w := by
  have hall : ∀ w, w ∈ u.allWindows ↔ w ∈ s.allWindows := by
    intro w
    have hminimized : t.minimizedWindows = u.minimizedWindows := by
      obtain ⟨stack, focus, hfocus, -⟩ := focusDesk_eq u desk
      rw [h.turned.rest, hfocus]
      rfl
    rw [← h.allWindows w, State.allWindows, State.allWindows, h.stashedWindows, hminimized,
      List.mem_append, List.mem_append, List.mem_append, List.mem_append, h.mem_elements_went]
  rw [State.windowSticky, State.windowSticky, h.went.sticky]
  exact stickyUnder_congr (fun _ => by rw [h.went.rest]) (fun _ => by rw [h.went.rest]) hall _ w

/-- The windows of an output are stacked as they are when the desk has the keyboard. -/
theorem windowsOn (h : Visited s u t desk) (n : Text) : t.windowsOn n =
    (u.focusDesk desk).elements.filter fun w => decide ((t.tile w).output = some n) := by
  rw [h.turned.stacked]
  refine List.filter_congr fun w hw => ?_
  obtain ⟨stack, focus, hfocus, hmem⟩ := focusDesk_eq u desk
  have hin : w ∈ u.elements := by
    rw [hfocus] at hw
    exact (hmem w).mp hw
  have halive : (u.focusDesk desk).alive w = true := by
    rw [State.alive, hfocus, h.went.rest]
    exact h.alive w hin
  rw [halive, Bool.true_and]

end Visited

/-- A visit leads from a state that is ready to one that is. -/
theorem Ready.visit {b : State} (h : Ready b p) (hb : s.retainStashed.tagNewWindows = b)
    (g : Placement) {desk : Text} (hdesk : desk ≠ []) (hcurrent : b.desks.current ≠ [])
    (hother : b.desks.current ≠ desk) {sticky : Option (List Text)} {mode : Option LayoutMode}
    (hsticky : ∀ l ∈ sticky, cleanSticky l = b.desks.sticky)
    (hmode : ∀ m ∈ mode, m = b.layout.mode) :
    ∃ u, Visited b u ((s.setDesk g desk sticky mode).layoutTurn g) desk ∧
      Ready ((s.setDesk g desk sticky mode).layoutTurn g) (sortBy (b.comes desk) p) ∧
        ∀ w ∈ b.allWindows,
          ((s.setDesk g desk sticky mode).layoutTurn g).hasDesk w = true := by
  obtain ⟨u, hwent, hu, hset⟩ := setDesk_went hb h.reflects h.stashed g hdesk hcurrent hother
    hsticky hmode
  rw [hset]
  obtain ⟨stack, focus, hfocus, hmem⟩ := focusDesk_eq u desk
  have htiling : (u.focusDesk desk).layout.mode.isTiling = true := by
    rw [hfocus, hwent.rest]
    exact h.homed.tiling
  have houtputs : (u.focusDesk desk).outputs.list ≠ [] := by
    rw [hfocus, hwent.rest]
    exact h.outputs
  have hturned := State.turned_layoutTurn (u.focusDesk desk) g htiling houtputs
  have halive : ∀ w, (u.focusDesk desk).alive w = b.alive w := by
    intro w
    rw [hfocus, hwent.rest, State.alive, State.alive]
  have hmapped : ∀ w ∈ u.elements, b.alive w = true := by
    intro w hw
    rw [hwent.elements, List.mem_append] at hw
    rcases hw with hw | hw
    · exact h.mapped w (List.mem_of_mem_filter hw)
    · exact h.stashed w (List.mem_of_mem_filter hw)
  have hreflects : Reflects ((u.focusDesk desk).layoutTurn g) (sortBy (b.comes desk) p) := by
    refine (hu.focusDesk desk).of_same ?_ ?_ ?_
    · intro w
      rw [hturned.mem, halive]
      refine and_iff_left_of_imp fun hw => hmapped w ?_
      rw [hfocus] at hw
      exact (hmem w).mp hw
    · rw [hturned.rest]
    · rw [hturned.rest]
  have hall : ∀ w, w ∈ ((u.focusDesk desk).layoutTurn g).allWindows ↔ w ∈ b.allWindows := by
    intro w
    rw [hreflects.mem_allWindows, h.reflects.mem_allWindows]
    exact not_congr sortBy_eq_none
  have hvisited : Visited b u ((u.focusDesk desk).layoutTurn g) desk :=
    ⟨hwent, ⟨_, hu⟩, hturned, hmapped, hall⟩
  refine ⟨u, hvisited, ⟨hreflects, hturned.homed, ?_, ?_, ?_⟩, ?_⟩
  · rw [hvisited.outputs]
    exact h.outputs
  · intro w hw
    rw [hturned.alive]
    exact ((hturned.mem w).mp hw).2
  · intro w hw
    rw [hturned.alive, halive]
    rw [hvisited.stashedWindows, hwent.stashed, List.mem_append] at hw
    rcases hw with hw | hw
    · exact h.stashed w (List.mem_of_mem_filter hw)
    · rw [mem_stashOrder] at hw
      exact h.mapped w (List.mem_of_mem_filter hw)
  · intro w hw
    rw [State.hasDesk, hvisited.deskTag, hwent.deskTag w hw]
    rfl

/-- A state after a visit has had its housekeeping. -/
theorem Ready.housekept (h : Ready s p) (htagged : ∀ w ∈ s.allWindows, s.hasDesk w = true) :
    s.retainStashed.tagNewWindows = s := by
  rw [retainStashed_of_alive h.stashed, tagNewWindows_of_hasDesk htagged]

end MindOS.Wm
