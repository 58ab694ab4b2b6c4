import MindOS.Wm.Cycle
import MindOS.Wm.Windows

/-!
# Switching between the windows of the screen

A step of the cycle comes to a window and activates it. What gets the keyboard is the
last of its dialogs, and the change of the focus is told to the cycle: what the cycle
stands at does not count as used, but the focus of any other window ends it.
-/

namespace MindOS.Wm

open MindOS.Cycle

/-- The windows, and the cycle through them. -/
structure Switcher where
  state : State
  cycle : WindowCycle := {}

namespace Switcher

/-- The focus went to another window, or from the windows. -/
def focusChanged (s : Switcher) : Switcher :=
  match s.state.focus with
  | some (.window w) => { s with cycle := (s.cycle.retain s.state.elements).focus w }
  | _ => { s with cycle := s.cycle.finish }

/-- Raise a window to the top of the stack and give it the keyboard. A focus that is there
already is no change. -/
def activateWindow (s : Switcher) (w : Window) : Switcher :=
  let t := s.state.activateWindow w
  if t.focus = s.state.focus then { s with state := t } else { s with state := t }.focusChanged

/-- A mapped, minimised or stashed window. -/
def windowById (s : Switcher) (id : Nat) : Option Window :=
  s.state.allWindows.find? fun w => decide (w = id)

/-- A step of the cycle among the windows that are visible, the top one first. -/
def nextWindow (s : Switcher) (reverse : Bool) (modifier : CycleModifier) :
    WindowCycle × Option Nat :=
  s.cycle.step s.state.elements.reverse s.state.focusedWindow reverse modifier

/-- Switch recent visible windows, preserving order until the modifier is released. -/
def cycleWindows (s : Switcher) (reverse : Bool) (modifier : CycleModifier) : Switcher :=
  let (cycle, id) := s.nextWindow reverse modifier
  match id.bind s.windowById with
  | some w => { s with cycle := cycle }.activateWindow w
  | none => { s with cycle := cycle }

def release (s : Switcher) (alt logo : Bool) : Switcher :=
  { s with cycle := s.cycle.release alt logo }

/-- The keys that are held have the modifier among them. -/
def isHeld : CycleModifier → Bool → Bool → Bool
  | .alt, alt, _ => alt
  | .super, _, logo => logo

/-- So many calls, with the modifier held. -/
def calls (reverse : Bool) (modifier : CycleModifier) (s : Switcher) : Nat → Switcher
  | 0 => s
  | k + 1 => (calls reverse modifier s k).cycleWindows reverse modifier

/-- The window of a dialog group that gets the keyboard: the last of the dialogs. -/
def groupTop (s : Switcher) (w : Window) : Window := ((s.state.group w).getLast?).getD w

/-- A call gives the keyboard to a window, or to the last dialog of its group. -/
def Gives (s t : Switcher) (w : Window) : Prop :=
  t.state.focus = some (.window w) ∨ t.state.focus = some (.window (s.groupTop w))

/-- As many calls as there are windows come by each of them, in one session that lasts
until the modifier is released. -/
structure ReachesAll (reverse : Bool) (modifier : CycleModifier) (s : Switcher) : Prop where
  reached : ∀ w ∈ s.state.elements, ∃ k < s.state.elements.length,
    Gives (calls reverse modifier s k) (calls reverse modifier s (k + 1)) w
  held : ∃ order, ∀ k < s.state.elements.length,
    (calls reverse modifier s (k + 1)).cycle.selection.map Selection.order = some order
  released : ∀ alt logo, isHeld modifier alt logo = false →
    ((calls reverse modifier s s.state.elements.length).release alt logo).cycle.active = false

/-- The window that the next call comes to has no dialogs above it, or the last of them
has the keyboard already. -/
def Steady (reverse : Bool) (modifier : CycleModifier) (s : Switcher) : Prop :=
  ∀ w, (s.nextWindow reverse modifier).2 = some w →
    s.groupTop w = w ∨ s.state.focus = some (.window (s.groupTop w))

/-! ## What a call leaves as it was -/

variable {s t : Switcher} {reverse : Bool} {modifier : CycleModifier} {w : Window}

/-- No window is put away or minimised while it is visible, the session is not locked, and no
popup has grabbed the keyboard: until its grab ends, no window gets it. -/
structure Open (s : State) : Prop where
  locked : s.locked = false
  grab : s.focus ≠ some .popup
  minimized : ∀ w ∈ s.elements, s.isMinimized w = false
  stashed : ∀ w ∈ s.elements, s.isStashed w = false

/-- The windows are the same, whatever their order and the keyboard. -/
structure SameWindows (s t : State) : Prop where
  mem : ∀ w, w ∈ t.elements ↔ w ∈ s.elements
  rest : ∃ stack focus, t = { s with space := { s.space with stack := stack }, focus := focus }

theorem SameWindows.trans {s t u : State} (h : SameWindows s t) (h' : SameWindows t u) :
    SameWindows s u := by
  obtain ⟨stack, focus, rfl⟩ := h.rest
  obtain ⟨stack', focus', rfl⟩ := h'.rest
  exact ⟨fun w => (h'.mem w).trans (h.mem w), stack', focus', rfl⟩

theorem SameWindows.length (h : SameWindows s.state t.state) :
    t.state.elements.length = s.state.elements.length :=
  ((List.perm_ext_iff_of_nodup t.state.nodup_elements s.state.nodup_elements).mpr h.mem).length_eq

theorem SameWindows.isOpen (h : SameWindows s.state t.state) (hs : Open s.state)
    (hfocus : t.state.focus = some (.window w)) : Open t.state := by
  obtain ⟨stack, focus, ht⟩ := h.rest
  refine ⟨?_, by rw [hfocus]; exact nofun, fun w hw => ?_, fun w hw => ?_⟩
  · rw [ht]
    exact hs.locked
  · have hmin := hs.minimized w ((h.mem w).mp hw)
    rw [ht]
    exact hmin
  · have hst := hs.stashed w ((h.mem w).mp hw)
    rw [ht]
    exact hst

theorem focus_activateWindow (hs : Open s.state) (hw : w ∈ s.state.elements) :
    (s.state.activateWindow w).focus = some (.window (s.groupTop w)) ∧
      SameWindows s.state (s.state.activateWindow w) := by
  obtain ⟨stack, focus, heq, hmem⟩ := s.state.activateWindow_eq w
  refine ⟨?_, ⟨fun x => ?_, stack, focus, heq⟩⟩
  · unfold State.activateWindow
    rw [hs.locked, hs.minimized w hw, hs.stashed w hw, if_neg (by simp)]
    simp only [State.foldl_raiseElement_eq]
    rw [State.focusWindow, if_neg (by simp [hs.locked])]
    rfl
  · rw [heq]
    exact hmem x

/-! ## A session -/

/-- A session that stands at a place of an order of all visible windows. -/
structure InSession (modifier : CycleModifier) (order : List Window) (i : Nat) (s : Switcher) :
    Prop where
  selection : ∃ origin, s.cycle.selection = some ⟨order, i, origin, modifier⟩
  sound : s.cycle.Sound
  mem : ∀ w, w ∈ order ↔ w ∈ s.state.elements

namespace InSession

variable {order : List Window} {i : Nat}

theorem index (h : InSession modifier order i s) : i < order.length := by
  obtain ⟨origin, hsel⟩ := h.selection
  exact h.sound.index _ hsel

theorem nodup (h : InSession modifier order i s) : order.Nodup := by
  obtain ⟨origin, hsel⟩ := h.selection
  exact h.sound.order _ hsel

theorem length (h : InSession modifier order i s) : order.length = s.state.elements.length :=
  ((List.perm_ext_iff_of_nodup h.nodup s.state.nodup_elements).mpr h.mem).length_eq

end InSession

/-- One place on, forwards or back. -/
def stride (reverse : Bool) (n : Nat) : Nat := if reverse then n - 1 else 1

theorem stride_eq (reverse : Bool) (n : Nat) : stride reverse n = 1 ∨ stride reverse n = n - 1 := by
  cases reverse
  · exact .inl rfl
  · exact .inr rfl

theorem step_of_held {order : List Window} {i : Nat} {origin : Option Window}
    (hsound : s.cycle.Sound) (hne : s.state.elements ≠ [])
    (hheld : (s.cycle.held s.state.elements.reverse s.state.focusedWindow reverse modifier).2 =
      ⟨order, i, origin, modifier⟩)
    (hmem : ∀ w, w ∈ order ↔ w ∈ s.state.elements) :
    ∃ w, order[(i + stride reverse order.length) % order.length]? = some w ∧
      (s.nextWindow reverse modifier).2 = some w ∧
      InSession modifier order ((i + stride reverse order.length) % order.length)
        { s with cycle := (s.nextWindow reverse modifier).1 } := by
  have havailable : s.state.elements.reverse ≠ [] := by simpa using hne
  have hall : ∀ w ∈ order, s.state.elements.reverse.contains w = true := by
    intro w hw
    simpa using (hmem w).mp hw
  have hpos : 0 < order.length := by
    obtain ⟨w, hw⟩ := List.exists_mem_of_ne_nil _ hne
    exact List.length_pos_of_mem ((hmem w).mpr hw)
  let j := (i + stride reverse order.length) % order.length
  have hj : j < order.length := Nat.mod_lt _ hpos
  have hseek : Cyclic.seek (fun id => s.state.elements.reverse.contains id) order
      (stride reverse order.length) order.length i = some (j, order[j]) := by
    have hone : Cyclic.seek (fun id => s.state.elements.reverse.contains id) order
        (stride reverse order.length) order.length i =
          some ((i + 1 * stride reverse order.length) % order.length, order[j]) :=
      Cyclic.seek_of_first le_rfl hpos (by rw [Nat.one_mul]; exact List.getElem?_eq_getElem hj)
        (hall _ (List.getElem_mem hj)) (by omega)
    rwa [Nat.one_mul] at hone
  have hstep := WindowCycle.step_cases hsound havailable s.state.focusedWindow reverse modifier
  rw [hheld] at hstep
  obtain ⟨k, id, hk, heq⟩ | ⟨-, hno⟩ := hstep
  · obtain ⟨rfl, rfl⟩ : k = j ∧ id = order[j] := by
      have hfound := hk.symm.trans hseek
      simpa using hfound
    have hnext : (s.nextWindow reverse modifier) = _ := heq
    refine ⟨order[j], List.getElem?_eq_getElem hj, by rw [hnext], ?_⟩
    refine ⟨⟨origin, by rw [hnext]⟩, ?_, hmem⟩
    exact hsound.step _ _ _ _
  · exact absurd (by simpa using (hmem _).mp (List.getElem_mem hj)) (hno _ (List.getElem_mem hj))

theorem InSession.next {order : List Window} {i : Nat} (h : InSession modifier order i s)
    (reverse : Bool) (hne : s.state.elements ≠ []) :
    ∃ w, order[(i + stride reverse order.length) % order.length]? = some w ∧
      (s.nextWindow reverse modifier).2 = some w ∧
      InSession modifier order ((i + stride reverse order.length) % order.length)
        { s with cycle := (s.nextWindow reverse modifier).1 } := by
  obtain ⟨origin, hsel⟩ := h.selection
  have hheld := WindowCycle.held_of_selection hsel s.state.elements.reverse
    s.state.focusedWindow reverse
  exact step_of_held h.sound hne (congrArg Prod.snd hheld) h.mem

theorem next_of_none (hnone : s.cycle.selection = none) (hsound : s.cycle.Sound)
    (hne : s.state.elements ≠ []) :
    ∃ order i w, order[i]? = some w ∧ (s.nextWindow reverse modifier).2 = some w ∧
      InSession modifier order i { s with cycle := (s.nextWindow reverse modifier).1 } := by
  have havailable : s.state.elements.reverse ≠ [] := by simpa using hne
  let c := s.cycle.retain s.state.elements.reverse
  have hheld : s.cycle.held s.state.elements.reverse s.state.focusedWindow reverse modifier =
      c.start s.state.elements.reverse s.state.focusedWindow reverse modifier := by
    unfold WindowCycle.held
    simp only [show (s.cycle.retain s.state.elements.reverse).selection = none from hnone,
      Option.any_none, Bool.false_eq_true, if_false]
    rfl
  have hrecent : ∀ w ∈ c.recent, w ∈ s.state.elements.reverse := fun w hw => by
    simpa using (List.mem_filter.mp hw).2
  have hmem : ∀ w, w ∈ (c.start s.state.elements.reverse s.state.focusedWindow reverse
      modifier).2.order ↔ w ∈ s.state.elements := fun w => by
    rw [WindowCycle.mem_start_order hrecent, List.mem_reverse]
  obtain ⟨w, hw, hnext, hin⟩ := step_of_held hsound hne (congrArg Prod.snd hheld) hmem
  exact ⟨_, _, w, hw, hnext, hin⟩

/-- The cycle is in a session through all visible windows, or in none. -/
def Ready (modifier : CycleModifier) (s : Switcher) : Prop :=
  s.cycle.Sound ∧ (s.cycle.selection = none ∨ ∃ order i, InSession modifier order i s)

theorem windowById_of_mem (hw : w ∈ s.state.elements) : s.windowById w = some w := by
  have hall : w ∈ s.state.allWindows :=
    List.mem_append_left _ (List.mem_append_left _ hw)
  obtain ⟨x, hx⟩ := Option.isSome_iff_exists.mp
    ((List.find?_isSome (p := fun x => decide (x = w))).mpr ⟨w, hall, by simp⟩)
  have hxw : x = w := by simpa using List.find?_some hx
  exact hxw ▸ hx

theorem InSession.focus {order : List Window} {i : Nat} (h : InSession modifier order i s)
    (hw : order[i]? = some w) : s.cycle.focus w = s.cycle := by
  obtain ⟨origin, hsel⟩ := h.selection
  unfold WindowCycle.focus
  rw [hsel]
  exact if_pos (decide_eq_true hw)

theorem InSession.focus_other {order : List Window} {i : Nat} (h : InSession modifier order i s)
    (hw : order[i]? = some w) {x : Window} (hx : x ≠ w) : (s.cycle.focus x).selection = none := by
  obtain ⟨origin, hsel⟩ := h.selection
  unfold WindowCycle.focus
  rw [hsel, if_neg (by simpa [Selection.chosen, hw] using hx.symm)]

theorem InSession.ofState {order : List Window} {i : Nat} (h : InSession modifier order i s)
    (hsame : SameWindows s.state t.state) (hselection : t.cycle.selection = s.cycle.selection)
    (hsound : t.cycle.Sound) : InSession modifier order i t := by
  refine ⟨?_, hsound, fun w => (h.mem w).trans (hsame.mem w).symm⟩
  rw [hselection]
  exact h.selection

/-- What a call does: it comes to a window, whose group gets the keyboard, and the session
goes on if this is the window, or if the keyboard was there. -/
theorem cycleWindows_cases {order : List Window} {i : Nat} (hopen : Open s.state)
    (hnext : (s.nextWindow reverse modifier).2 = some w) (hw : order[i]? = some w)
    (hin : InSession modifier order i { s with cycle := (s.nextWindow reverse modifier).1 }) :
    (s.cycleWindows reverse modifier).state.focus = some (.window (s.groupTop w)) ∧
      SameWindows s.state (s.cycleWindows reverse modifier).state ∧
      (s.cycleWindows reverse modifier).cycle.Sound ∧
      if s.groupTop w = w ∨ s.state.focus = some (.window (s.groupTop w)) then
        InSession modifier order i (s.cycleWindows reverse modifier)
      else (s.cycleWindows reverse modifier).cycle.selection = none := by
  have hmem : w ∈ s.state.elements := (hin.mem w).mp (List.mem_of_getElem? hw)
  obtain ⟨hfocus, hsame⟩ := focus_activateWindow hopen hmem
  let c := (s.nextWindow reverse modifier).1
  have hcall : s.cycleWindows reverse modifier = { s with cycle := c }.activateWindow w := by
    unfold cycleWindows
    simp only [hnext, Option.bind_some, windowById_of_mem hmem]
    rfl
  by_cases hkept : s.state.focus = some (.window (s.groupTop w))
  · have hsteady : s.cycleWindows reverse modifier =
        { state := s.state.activateWindow w, cycle := c } := by
      rw [hcall]
      exact if_pos (hfocus.trans hkept.symm)
    rw [hsteady, if_pos (.inr hkept)]
    exact ⟨hfocus, hsame, hin.sound, hin.ofState hsame rfl hin.sound⟩
  · let d := c.retain (s.state.activateWindow w).elements
    have hretained : InSession modifier order i { state := s.state.activateWindow w, cycle := d } :=
      hin.ofState hsame rfl (hin.sound.retain _)
    have hchanged : s.cycleWindows reverse modifier =
        { state := s.state.activateWindow w, cycle := d.focus (s.groupTop w) } := by
      rw [hcall]
      refine (if_neg fun h => hkept (h.symm.trans hfocus)).trans ?_
      unfold focusChanged
      simp only [hfocus]
      rfl
    rw [hchanged]
    refine ⟨hfocus, hsame, hretained.sound.focus _, ?_⟩
    by_cases htop : s.groupTop w = w
    · rw [if_pos (.inl htop), htop, hretained.focus hw]
      exact hretained
    · rw [if_neg (by rintro (h | h); exacts [htop h, hkept h])]
      exact hretained.focus_other hw htop

/-! ## All calls -/

/-- What holds before each call. -/
structure Going (modifier : CycleModifier) (n : Nat) (s : Switcher) : Prop where
  isOpen : Open s.state
  count : s.state.elements.length = n
  ready : Ready modifier s

theorem Ready.next (h : Ready modifier s) (reverse : Bool) (hne : s.state.elements ≠ []) :
    ∃ order i w, order[i]? = some w ∧ (s.nextWindow reverse modifier).2 = some w ∧
      InSession modifier order i { s with cycle := (s.nextWindow reverse modifier).1 } := by
  obtain ⟨hsound, hnone | ⟨order, i, hin⟩⟩ := h
  · exact next_of_none hnone hsound hne
  · obtain ⟨w, hw⟩ := hin.next reverse hne
    exact ⟨_, _, w, hw⟩

namespace Going

variable {n : Nat}

theorem nonempty (h : Going modifier n s) (hpos : 0 < n) : s.state.elements ≠ [] := by
  intro hnil
  have hcount := h.count
  rw [hnil] at hcount
  exact hpos.ne hcount

theorem call (h : Going modifier n s) (hpos : 0 < n) :
    Going modifier n (s.cycleWindows reverse modifier) ∧
      SameWindows s.state (s.cycleWindows reverse modifier).state ∧
      ((s.cycleWindows reverse modifier).cycle.selection ≠ none ↔ Steady reverse modifier s) := by
  obtain ⟨order, i, w, hw, hnext, hin⟩ := h.ready.next reverse (h.nonempty hpos)
  obtain ⟨hfocus, hsame, hsound, hsession⟩ := cycleWindows_cases h.isOpen hnext hw hin
  have hsteady : Steady reverse modifier s ↔
      s.groupTop w = w ∨ s.state.focus = some (.window (s.groupTop w)) := by
    constructor
    · exact fun hs => hs w hnext
    · intro hs x hx
      cases hnext.symm.trans hx
      exact hs
  have hgoing : Ready modifier (s.cycleWindows reverse modifier) →
      Going modifier n (s.cycleWindows reverse modifier) := fun hready =>
    ⟨hsame.isOpen h.isOpen hfocus, hsame.length.trans h.count, hready⟩
  by_cases hcond : s.groupTop w = w ∨ s.state.focus = some (.window (s.groupTop w))
  · rw [if_pos hcond] at hsession
    refine ⟨hgoing ⟨hsound, .inr ⟨order, i, hsession⟩⟩, hsame, iff_of_true ?_ (hsteady.mpr hcond)⟩
    obtain ⟨origin, hsel⟩ := hsession.selection
    rw [hsel]
    exact nofun
  · rw [if_neg hcond] at hsession
    exact ⟨hgoing ⟨hsound, .inl hsession⟩, hsame,
      iff_of_false (fun hne => hne hsession) fun hs => hcond (hsteady.mp hs)⟩

theorem calls (h : Going modifier n s) (reverse : Bool) (hpos : 0 < n) (k : Nat) :
    Going modifier n (calls reverse modifier s k) ∧
      SameWindows s.state (Switcher.calls reverse modifier s k).state := by
  induction k with
  | zero => exact ⟨h, ⟨fun _ => Iff.rfl, s.state.space.stack, s.state.focus, rfl⟩⟩
  | succ k ih =>
      obtain ⟨hgoing, hsame, -⟩ := ih.1.call hpos
      exact ⟨hgoing, ih.2.trans hsame⟩

theorem release (h : Going modifier n s) {alt logo : Bool}
    (hup : isHeld modifier alt logo = false) :
    (s.release alt logo).cycle.active = false := by
  obtain ⟨-, hnone | ⟨order, i, hin⟩⟩ := h.ready
  · simp [Switcher.release, WindowCycle.release, WindowCycle.active, hnone]
  · obtain ⟨origin, hsel⟩ := hin.selection
    have hends : s.cycle.release alt logo = s.cycle.finish := by
      unfold WindowCycle.release
      rw [hsel]
      cases modifier with
      | alt => exact if_pos (by simpa [isHeld] using hup)
      | super => exact if_pos (by simpa [isHeld] using hup)
    rw [Switcher.release, hends, WindowCycle.active, WindowCycle.finish_selection]
    rfl

theorem steady (h : Going modifier n s) {order : List Window} {i : Nat}
    (hnext : (s.nextWindow reverse modifier).2 = some w) (hw : order[i]? = some w)
    (hin : InSession modifier order i { s with cycle := (s.nextWindow reverse modifier).1 })
    (hsteady : Steady reverse modifier s) :
    InSession modifier order i (s.cycleWindows reverse modifier) ∧
      ∀ x, order[i]? = some x → Gives s (s.cycleWindows reverse modifier) x := by
  obtain ⟨hfocus, -, -, hsession⟩ := cycleWindows_cases h.isOpen hnext hw hin
  rw [if_pos (hsteady w hnext)] at hsession
  refine ⟨hsession, fun x hx => .inr ?_⟩
  rw [← Option.some.inj (hw.symm.trans hx)]
  exact hfocus

theorem session (h : Going modifier n s) (hpos : 0 < n)
    (hsteady : ∀ k < n, Steady reverse modifier (Switcher.calls reverse modifier s k)) :
    ∃ order i, i < order.length ∧ order.length = n ∧ (∀ w ∈ s.state.elements, w ∈ order) ∧
      ∀ k < n,
        InSession modifier order ((i + k * stride reverse order.length) % order.length)
          (Switcher.calls reverse modifier s (k + 1)) ∧
        ∀ x, order[(i + k * stride reverse order.length) % order.length]? = some x →
          Gives (Switcher.calls reverse modifier s k)
            (Switcher.calls reverse modifier s (k + 1)) x := by
  obtain ⟨order, i, w, hw, hnext, hin⟩ := h.ready.next reverse (h.nonempty hpos)
  refine ⟨order, i, hin.index, hin.length.trans h.count, fun x hx => (hin.mem x).mpr hx, ?_⟩
  intro k
  induction k with
  | zero =>
      intro hk
      rw [Nat.zero_mul, Nat.add_zero, Nat.mod_eq_of_lt hin.index]
      exact h.steady hnext hw hin (hsteady 0 hk)
  | succ k ih =>
      intro hk
      obtain ⟨hkin, -⟩ := ih (by omega)
      have hgoing := (h.calls reverse hpos (k + 1)).1
      obtain ⟨x, hx, hxnext, hxin⟩ := hkin.next reverse (hgoing.nonempty hpos)
      have hplace : ((i + k * stride reverse order.length) % order.length +
          stride reverse order.length) % order.length =
            (i + (k + 1) * stride reverse order.length) % order.length := by
        rw [Nat.mod_add_mod, Nat.succ_mul, Nat.add_assoc]
      rw [hplace] at hx hxin
      exact hgoing.steady hxnext hx hxin (hsteady (k + 1) hk)

end Going

/-- Alt+Tab comes by every window in one session exactly where no call comes to a window
with dialogs that do not have the keyboard already. -/
theorem reachesAll_iff (hsound : s.cycle.Sound) (hnone : s.cycle.selection = none)
    (hopen : Open s.state) :
    ReachesAll reverse modifier s ↔
      ∀ k < s.state.elements.length, Steady reverse modifier (calls reverse modifier s k) := by
  have hgoing : Going modifier s.state.elements.length s := ⟨hopen, rfl, hsound, .inl hnone⟩
  constructor
  · intro h k hk
    obtain ⟨order, hheld⟩ := h.held
    refine ((hgoing.calls reverse (by omega) k).1.call (by omega)).2.2.mp fun hno => ?_
    have hsel := hheld k hk
    rw [calls, hno] at hsel
    cases hsel
  · intro hsteady
    by_cases hpos : 0 < s.state.elements.length
    · obtain ⟨order, i, hi, hlength, hall, hsession⟩ := hgoing.session hpos hsteady
      refine ⟨fun w hw => ?_, ⟨order, fun k hk => ?_⟩, fun alt logo hup => ?_⟩
      · obtain ⟨p, hp, hpw⟩ := List.getElem_of_mem (hall w hw)
        obtain ⟨d, -, hd, hplace⟩ :=
          Cyclic.exists_strides (stride_eq reverse order.length) hi hp
        have hwhere : order[p]? = some w := by rw [List.getElem?_eq_getElem hp, hpw]
        -- after a whole round the place is the first one again
        by_cases hround : d = order.length
        · refine ⟨0, hpos, (hsession 0 hpos).2 w ?_⟩
          rw [hround, Nat.add_mul_mod_self_left] at hplace
          rw [Nat.zero_mul, Nat.add_zero, hplace]
          exact hwhere
        · refine ⟨d, by omega, (hsession d (by omega)).2 w ?_⟩
          rw [hplace]
          exact hwhere
      · obtain ⟨origin, hsel⟩ := (hsession k hk).1.selection
        rw [hsel]
        rfl
      · exact (hgoing.calls reverse hpos _).1.release hup
    · have hzero : s.state.elements.length = 0 := by omega
      refine ⟨fun w hw => ?_, ⟨[], fun k hk => absurd hk (by omega)⟩, fun alt logo hup => ?_⟩
      · rw [List.length_eq_zero_iff.mp hzero] at hw
        cases hw
      · rw [hzero]
        exact hgoing.release hup

instance (reverse : Bool) (modifier : CycleModifier) (s : Switcher) :
    Decidable (Steady reverse modifier s) :=
  inferInstanceAs (Decidable (∀ w ∈ (s.nextWindow reverse modifier).2, _))

/-- A dialog that has the keyboard, its window, and another window. -/
theorem reachesAll_iff_dialog :
    ReachesAll false .alt
      { state :=
          { space := { stack := { items := [3, 1, 2], nodup := by decide } }
            client := fun w => if w = 2 then { parent := some 1 } else {}
            focus := some (.window 2) }
        cycle := { recent := [2, 1, 3] } } := by
  refine (reachesAll_iff ⟨by decide, ?_, ?_⟩ rfl ⟨rfl, by decide, ?_, ?_⟩).mpr (by decide)
  · intro selection hsel
    cases hsel
  · intro selection hsel
    cases hsel
  · exact fun _ _ => rfl
  · exact fun _ _ => rfl

instance (s t : Switcher) (w : Window) : Decidable (Gives s t w) :=
  inferInstanceAs (Decidable (_ ∨ _))

/-- A game, a window with a dialog that opened behind the game, and another window. -/
def gameWithDialog : Switcher where
  state :=
    { space := { stack := { items := [3, 2, 1, 4], nodup := by decide } }
      client := fun w => if w = 4 then { parent := some 2 } else {}
      focus := some (.window 1) }
  cycle := { recent := [1, 2, 3] }

/-- The dialog gets the keyboard instead of its window, which ends the session: the next one
begins with the game again, and window 3 is never come to. -/
theorem dialog_ends_cycle : ¬ ReachesAll false .alt gameWithDialog ∧
    (∀ k < 4, ¬ Gives (calls false .alt gameWithDialog k)
      (calls false .alt gameWithDialog (k + 1)) 3) ∧
    (calls false .alt gameWithDialog 1).cycle.active = false := by
  have hnever : ∀ k < 4, ¬ Gives (calls false .alt gameWithDialog k)
      (calls false .alt gameWithDialog (k + 1)) 3 := by decide
  refine ⟨fun h => ?_, hnever, by decide⟩
  obtain ⟨k, hk, hgives⟩ := h.reached 3 (by decide)
  exact hnever k hk hgives

end Switcher

end MindOS.Wm
