import MindOS.Wm.Desk.Partition

/-!
# The desks along a run

Windows open and close, clients say other things of them, desks are switched, windows
are given to other desks, minimised and brought back, in any order. No window that is
there is ever lost.
-/

namespace MindOS.Wm

open Places

variable {s t u : State} {p q r : Window → Option Place} {w : Window}

/-- The containers keep the windows apart, the ids in use are used up, and what is
stashed has a desk. -/
structure Orderly (s : State) (p : Window → Option Place) : Prop where
  reflects : Reflects s p
  known : ∀ w, p w ≠ none → w < s.nextId
  tagged : ∀ w, p w = some .stashed → s.hasDesk w = true

/-- A step keeps the order and loses no window that is there. -/
structure Leads (s t : State) (p q : Window → Option Place) : Prop where
  orderly : Orderly t q
  kept : ∀ w, p w ≠ none → s.alive w = true → q w ≠ none
  alive : ∀ w, t.alive w = s.alive w

namespace Leads

theorem refl (h : Orderly s p) : Leads s s p p := ⟨h, fun _ hw _ => hw, fun _ => rfl⟩

theorem trans (h : Leads s t p q) (h' : Leads t u q r) : Leads s u p r := by
  refine ⟨h'.orderly, ?_, fun w => (h'.alive w).trans (h.alive w)⟩
  intro w hw halive
  exact h'.kept w (h.kept w hw halive) ((h.alive w).trans halive)

theorem of_same (h : Orderly s p) (hsame : SameDesks s t) (ht : Reflects t p) :
    Leads s t p p := by
  refine ⟨⟨ht, ?_, ?_⟩, fun _ hw _ => hw, hsame.alive⟩
  · intro w hw
    exact hsame.nextId.symm ▸ h.known w hw
  · intro w hw
    rw [State.hasDesk, hsame.deskTag]
    exact h.tagged w hw

/-- One window goes to another place than the stashed ones, or is forgotten if it is gone. -/
theorem of_update (h : Orderly s p) {a : Option Place}
    (ht : Reflects t (Function.update p w a)) (hsame : SameDesks s t) (hw : p w ≠ none)
    (ha : a ≠ some .stashed) (hgone : a = none → s.alive w = false) :
    Leads s t p (Function.update p w a) := by
  refine ⟨⟨ht, ?_, ?_⟩, ?_, hsame.alive⟩
  · intro x hx
    rw [hsame.nextId]
    by_cases hxw : x = w
    · exact h.known x (hxw ▸ hw)
    · exact h.known x (by simpa [hxw] using hx)
  · intro x hx
    rw [State.hasDesk, hsame.deskTag]
    by_cases hxw : x = w
    · exact absurd (by simpa [hxw] using hx) ha
    · exact h.tagged x (by simpa [hxw] using hx)
  · intro x hx halive
    by_cases hxw : x = w
    · rw [hxw, Function.update_self]
      intro hnone
      exact absurd (hgone hnone) (by simp [← hxw, halive])
    · simpa [hxw] using hx

end Leads

namespace Orderly

theorem refreshFocus (h : Orderly s p) : Leads s s.refreshFocus p p :=
  .of_same h (SameDesks.refreshFocus s) h.reflects.refreshFocus

theorem activateWindow (h : Orderly s p) (w : Window) : Leads s (s.activateWindow w) p p :=
  .of_same h (SameDesks.activateWindow s w) (h.reflects.activateWindow w)

theorem retainStashed (h : Orderly s p) :
    Leads s s.retainStashed p (retain p .stashed s.alive) := by
  have hle : ∀ w a, retain p .stashed s.alive w = some a → p w = some a := by
    intro w a hw
    unfold retain at hw
    split at hw
    · cases hw
    · exact hw
  refine ⟨⟨h.reflects.retainStashed, ?_, ?_⟩, ?_, fun _ => rfl⟩
  · intro w hw
    obtain ⟨a, ha⟩ := Option.ne_none_iff_exists'.mp hw
    exact h.known w (by simp [hle w a ha])
  · intro w hw
    exact h.tagged w (hle w _ hw)
  · intro w hw halive
    unfold retain
    rw [if_neg (by simp [halive])]
    exact hw

theorem tagNewWindows (h : Orderly s p) : Leads s s.tagNewWindows p p := by
  obtain ⟨tag, heq, -, hkeep⟩ := tagNewWindows_eq s
  refine ⟨⟨h.reflects.tagNewWindows, ?_, ?_⟩, fun _ hw _ => hw, ?_⟩
  · rw [heq]
    exact h.known
  · intro w hw
    have hdesk := h.tagged w hw
    rw [heq]
    change (tag w).isSome = true
    rw [hkeep w hdesk]
    exact hdesk
  · rw [heq]
    exact fun _ => rfl

theorem foldl_stashWindow (h : Orderly s p) (ws : List Window)
    (hws : ∀ w ∈ ws, s.hasDesk w = true) :
    Leads s (ws.foldl State.stashWindow s) p (move p .space .stashed ws) := by
  have hsame := SameDesks.foldl SameDesks.stashWindow s ws
  have hnone : ∀ w, move p .space .stashed ws w ≠ none ↔ p w ≠ none := by
    intro w
    unfold move
    split
    next hw => simp [hw.2]
    next => exact Iff.rfl
  refine ⟨⟨h.reflects.foldl_stashWindow ws, ?_, ?_⟩, ?_, hsame.alive⟩
  · intro w hw
    exact hsame.nextId.symm ▸ h.known w ((hnone w).mp hw)
  · intro w hw
    rw [State.hasDesk, hsame.deskTag]
    unfold move at hw
    split at hw
    next hin => exact hws w hin.1
    next => exact h.tagged w hw
  · exact fun w hw _ => (hnone w).mpr hw

theorem restoreWindow (h : Orderly s p) (w : Window) :
    ∃ q, Leads s (s.restoreWindow w) p q ∧
      (s.alive w = true → q = move p .stashed .space [w]) := by
  have hsame := SameDesks.restoreWindow s w
  cases he : s.stashedEntry w with
  | none =>
      have hnone : s.restoreWindow w = s := by simp [State.restoreWindow, he]
      rw [hnone]
      exact ⟨p, .refl h, fun _ => (move_of_ne (h.reflects.stashedEntry_none.mp he)).symm⟩
  | some e =>
      have hp : p w = some .stashed := h.reflects.mem_stashed.mp (find?_window he).2
      by_cases hw : s.alive w = true
      · have hback := h.reflects.restoreWindow hw
        rw [move_eq_update hp] at hback ⊢
        refine ⟨_, .of_update h hback hsame (by simp [hp]) (by simp) nofun, fun _ => rfl⟩
      · obtain rfl := (find?_window he).1
        have hgone : s.restoreWindow e.window = s.unstash e.window := by
          simp only [State.restoreWindow, he]
          exact congrArg Prod.fst (if_neg hw)
        have hout := h.reflects.unstash hp
        rw [← hgone] at hout
        refine ⟨_, .of_update h hout hsame (by simp [hp]) nofun ?_, fun halive => absurd halive hw⟩
        exact fun _ => by simpa using hw

/-- A switch leaves mapped what shows and stashed what does not, and loses nothing. -/
theorem setDesk (h : Orderly s p) (g : Placement) (desk : Text) (sticky : Option (List Text))
    (mode : Option LayoutMode) :
    Leads s (s.setDesk g desk sticky mode) p
      (sortBy (s.setDesk g desk sticky mode).deskShows (retain p .stashed s.alive)) := by
  have hswitch := h.reflects.setDesk g desk sticky mode
  have hretain := h.retainStashed
  refine ⟨⟨hswitch.reflects, ?_, ?_⟩, ?_, hswitch.alive⟩
  · intro w hw
    rw [hswitch.nextId]
    exact hretain.orderly.known w fun hnone => hw (sortBy_eq_none.mpr hnone)
  · intro w hw
    exact hswitch.hasDesk w (hswitch.reflects.mem_allWindows.mpr (by simp [hw]))
  · intro w hw halive hnone
    exact hretain.kept w hw halive (sortBy_eq_none.mp hnone)

theorem setWindowDesk (h : Orderly s p) (w : Window) (desk : Text) :
    Leads s (s.setWindowDesk w desk) p p := by
  refine ⟨⟨h.reflects.of_same (fun _ => Iff.rfl) rfl rfl, h.known, ?_⟩, fun _ hx _ => hx,
    fun _ => rfl⟩
  intro x hx
  change (Function.update s.deskTag w (some desk) x).isSome = true
  by_cases hxw : x = w
  · rw [hxw, Function.update_self]
    rfl
  · rw [Function.update_of_ne hxw]
    exact h.tagged x hx

theorem moveWindowToDesk (h : Orderly s p) (w : Window) (desk : Text) :
    ∃ q, Leads s (s.moveWindowToDesk w desk) p q := by
  have htag := h.tagNewWindows
  have hset := htag.trans (htag.orderly.setWindowDesk w desk)
  have hhas : (s.tagNewWindows.setWindowDesk w desk).hasDesk w = true := by
    change (Function.update s.tagNewWindows.deskTag w (some desk) w).isSome = true
    rw [Function.update_self]
    rfl
  have hstash := hset.trans (hset.orderly.foldl_stashWindow [w] (by simpa using hhas))
  obtain ⟨q, hrestore, -⟩ := hset.orderly.restoreWindow w
  unfold State.moveWindowToDesk
  simp only
  split
  · split
    · exact ⟨q, hset.trans hrestore⟩
    · exact ⟨p, hset⟩
  · split
    · exact ⟨_, hstash.trans hstash.orderly.refreshFocus⟩
    · exact ⟨p, hset⟩

theorem desksRefresh (h : Orderly s p) : ∃ q, Leads s s.desksRefresh p q := by
  have hretain := h.retainStashed
  have htag := hretain.trans hretain.orderly.tagNewWindows
  obtain ⟨tag, heq, htagged, -⟩ := tagNewWindows_eq s.retainStashed
  have hhas : ∀ w ∈ s.retainStashed.elements, s.retainStashed.tagNewWindows.hasDesk w = true := by
    intro w hw
    rw [heq]
    exact htagged w (List.mem_append_left _ (List.mem_append_left _ hw))
  have helements : s.retainStashed.tagNewWindows.elements = s.retainStashed.elements := by
    rw [heq]
    rfl
  have hstash : ∀ stray : Window → Bool,
      Leads s ((s.retainStashed.tagNewWindows.elements.filter stray).foldl State.stashWindow
        s.retainStashed.tagNewWindows) p
        (move (retain p .stashed s.alive) .space .stashed
          (s.retainStashed.tagNewWindows.elements.filter stray)) := fun stray =>
    htag.trans (htag.orderly.foldl_stashWindow _
      fun w hw => hhas w (helements ▸ List.mem_of_mem_filter hw))
  unfold State.desksRefresh
  simp only
  split
  · exact ⟨_, htag⟩
  · exact ⟨_, (hstash _).trans (hstash _).orderly.refreshFocus⟩

theorem minimizeWindow (h : Orderly s p) (w : Window) : ∃ q, Leads s (s.minimizeWindow w) p q := by
  unfold State.minimizeWindow
  split
  · exact ⟨p, .refl h⟩
  · unfold State.minimizeStashed
    cases he : s.stashedEntry w with
    | some e =>
        have hp : p w = some .stashed := h.reflects.mem_stashed.mp (find?_window he).2
        obtain rfl := (find?_window he).1
        have hout := (h.reflects.unstash hp).pushMinimized (e := e) (Function.update_self _ _ _)
        rw [Function.update_idem] at hout
        exact ⟨_, .of_update h hout (.of_client rfl rfl rfl rfl rfl) (by simp [hp]) (by simp) nofun⟩
    | none =>
        rw [Option.map_none]
        cases htake : s.takeOutOfSpace w with
        | none => exact ⟨p, .refl h⟩
        | some te =>
            obtain ⟨t, e⟩ := te
            have hp : p w = some .space := by
              by_contra hp
              rw [h.reflects.takeOutOfSpace_none.mpr hp] at htake
              cases htake
            obtain ⟨loc, -, heq⟩ := Option.map_eq_some_iff.mp htake
            obtain ⟨rfl, rfl⟩ := Prod.mk.inj heq
            have hout := (h.reflects.unmapElem hp).pushMinimized
              (e := ⟨w, loc, s.windowHome w⟩) (Function.update_self w none p)
            rw [Function.update_idem] at hout
            have hmin := Leads.of_update h hout (.of_client rfl rfl rfl rfl rfl) (by simp [hp])
              (by simp) nofun
            exact ⟨_, hmin.trans hmin.orderly.refreshFocus⟩

end Orderly

/-! ## Reaching for a window -/

theorem State.deskShows_of_windowDesk (h : s.windowDesk w = s.desks.current) :
    s.deskShows w = true := by
  simp [State.deskShows, showsOn, h]

theorem Orderly.hasDesk_of_away (h : Orderly s p) (hw : s.isAway w = true) :
    s.hasDesk w = true := by
  rw [State.isAway, Bool.or_eq_true, h.reflects.isStashed, decide_eq_true_eq] at hw
  rcases hw with hw | hw
  · exact h.tagged w hw
  · have hshows : s.deskShows w = false := by simpa using (Bool.and_eq_true_iff.mp hw).2
    cases htag : s.deskTag w with
    | some desk => simp [State.hasDesk, htag]
    | none => simp [State.deskShows, showsOn, State.windowDesk, htag] at hshows

/-- Going to the desk of a window: nothing is lost, and if the window was put away or
minimised, then it is not put away any more and its desk shows. -/
theorem Orderly.showDeskOf (h : Orderly s p) (g : Placement) (w : Window) :
    ∃ q, Leads s (s.showDeskOf g w) p q ∧
      (s.alive w = true → p w = some .stashed ∨ p w = some .minimized →
        (q w = some .space ∨ q w = some .minimized) ∧ (s.showDeskOf g w).deskShows w = true) := by
  unfold State.showDeskOf
  by_cases haway : s.isAway w = true
  · rw [if_neg (by simp [haway])]
    simp only
    have hhas := h.hasDesk_of_away haway
    by_cases hdesk : s.windowDesk w = s.desks.current
    · rw [if_neg (not_not_intro hdesk)]
      have hshows := State.deskShows_of_windowDesk hdesk
      obtain ⟨q, hq, hback⟩ := h.restoreWindow w
      have hst : s.isStashed w = true := by simpa [State.isAway, hshows] using haway
      rw [if_pos hst]
      refine ⟨q, hq, fun halive _ => ?_⟩
      have hp : p w = some .stashed := by simpa [h.reflects.isStashed] using hst
      have hsame := SameDesks.restoreWindow s w
      refine ⟨.inl ?_, State.deskShows_of_windowDesk ?_⟩
      · rw [hback halive]
        simp [move, hp]
      · rw [State.windowDesk, hsame.deskTag, hsame.current]
        exact hdesk
    · rw [if_pos hdesk]
      have hset := h.setDesk g (s.windowDesk w) none none
      have hswitch := h.reflects.setDesk g (s.windowDesk w) none none
      obtain ⟨q, hq, hback⟩ := hset.orderly.restoreWindow w
      -- the window belongs to the desk that is gone to
      have hshows : p w = some .stashed ∨ p w = some .minimized → s.alive w = true →
          (s.setDesk g (s.windowDesk w) none none).deskShows w = true := by
        intro hp halive
        have hin : w ∈ (s.setDesk g (s.windowDesk w) none none).allWindows := by
          rw [hswitch.reflects.mem_allWindows]
          exact hset.kept w (by rcases hp with hp | hp <;> simp [hp]) halive
        refine State.deskShows_of_windowDesk ?_
        rw [hswitch.windowDesk w hin hhas rfl, hswitch.current]
      split
      next hst =>
        refine ⟨q, hset.trans hq, fun halive hp => ?_⟩
        have hst := hswitch.reflects.isStashed.symm.trans hst
        have hshow := hshows hp halive
        simp only [sortBy, hshow] at hst
        rcases hp with hp | hp <;> simp [retain, hp, halive] at hst
      next hst =>
        refine ⟨_, hset, fun halive hp => ⟨?_, hshows hp halive⟩⟩
        have hshow := hshows hp halive
        rcases hp with hp | hp
        · simp [sortBy, retain, hp, halive, hshow]
        · simp [sortBy, retain, hp]
  · rw [if_pos (by simpa using haway)]
    refine ⟨p, .refl h, fun _ hp => ?_⟩
    have hst : p w ≠ some .stashed := by
      intro hp
      simp [State.isAway, h.reflects.isStashed, hp] at haway
    have hp : p w = some .minimized := hp.resolve_left hst
    refine ⟨.inr hp, ?_⟩
    simpa [State.isAway, h.reflects.isStashed, h.reflects.isMinimized, hp] using haway

/-- Bringing a window back: if it was put away or minimised, then it is mapped and its
desk shows. -/
theorem Orderly.unminimizeWindow (h : Orderly s p) (g : Placement) (w : Window) :
    ∃ q, Leads s (s.unminimizeWindow g w) p q ∧
      (s.alive w = true → p w = some .stashed ∨ p w = some .minimized →
        q w = some .space ∧ (s.unminimizeWindow g w).deskShows w = true) := by
  obtain ⟨q, hq, hreached⟩ := h.showDeskOf g w
  unfold State.unminimizeWindow
  generalize s.showDeskOf g w = t at hq hreached
  simp only
  cases he : t.minimizedEntry w with
  | none =>
      refine ⟨q, hq, fun halive hp => ?_⟩
      obtain ⟨hplace, hshows⟩ := hreached halive hp
      exact ⟨hplace.resolve_right (hq.orderly.reflects.minimizedEntry_none.mp he), hshows⟩
  | some e =>
      have hp : q w = some .minimized :=
        hq.orderly.reflects.mem_minimized.mp (find?_window he).2
      obtain rfl := (find?_window he).1
      have hout := hq.orderly.reflects.unlistMinimized hp
      have hsame : SameDesks t (t.unlistMinimized e.window) := .of_client rfl rfl rfl rfl rfl
      by_cases halive : t.alive e.window = true
      · have hback : (t.unlistMinimized e.window).putBackInSpace e =
            ((t.unlistMinimized e.window).mapElement e.window e.location, true) := if_pos halive
        simp only [hback]
        have hin := hout.mapElement (w := e.window) (.inl (Function.update_self _ _ _)) e.location
        rw [Function.update_idem] at hin
        have hmapped := Leads.of_update hq.orderly hin (.of_client rfl rfl rfl rfl rfl)
          (by simp [hp]) (by simp) nofun
        have hlast := hmapped.orderly.activateWindow e.window
        refine ⟨_, hq.trans (hmapped.trans hlast), fun hthere hplace =>
          ⟨Function.update_self _ _ _, ?_⟩⟩
        have hsame' := hsame.trans (SameDesks.of_client (s := t.unlistMinimized e.window)
          (t := (t.unlistMinimized e.window).mapElement e.window e.location) rfl rfl rfl rfl rfl)
        rw [(hsame'.trans (SameDesks.activateWindow _ e.window)).deskShows]
        · exact (hreached hthere hplace).2
        · intro x
          rw [hlast.orderly.reflects.mem_allWindows, hq.orderly.reflects.mem_allWindows]
          by_cases hx : x = e.window
          · simp [hx, hp]
          · simp [hx]
      · have hback : (t.unlistMinimized e.window).putBackInSpace e =
            (t.unlistMinimized e.window, false) := if_neg halive
        simp only [hback]
        have hgone := Leads.of_update hq.orderly hout hsame (by simp [hp]) nofun
          (fun _ => by simpa using halive)
        exact ⟨_, hq.trans hgone, fun hthere => absurd ((hq.alive _).trans hthere) halive⟩

/-! ## Runs -/

/-- What happens to the windows. -/
inductive Event where
  | setDesk (desk : Text) (sticky : Option (List Text)) (mode : Option LayoutMode)
  | moveWindowToDesk (w : Window) (desk : Text)
  | desksRefresh
  | minimize (w : Window)
  | unminimize (w : Window)
  /-- A client maps a new window. -/
  | opened (client : Client) (loc : Point)
  /-- A client destroys its window. -/
  | closed (w : Window)
  /-- An X11 client unmaps its window. -/
  | withdrawn (w : Window)
  /-- Windows that are gone leave the space, and the minimised list. -/
  | spaceRefresh
  | retainMinimized
  /-- A client says something else of its window. -/
  | changed (w : Window) (client : Client)
  | focused (focus : Option KeyboardFocusTarget)
  | locked (on : Bool)

namespace State

/-- A new window is mapped on top; it has no desk yet. -/
def openWindow (s : State) (client : Client) (loc : Point) : State :=
  { s with
    nextId := s.nextId + 1
    client := Function.update s.client s.nextId { client with alive := true }
    deskTag := Function.update s.deskTag s.nextId none
    tile := Function.update s.tile s.nextId {} }.mapElement s.nextId loc

def closeWindow (s : State) (w : Window) : State :=
  { s with client := Function.update s.client w { s.client w with alive := false } }

/-- A window that its client unmaps is gone for the shell too, wherever it was. -/
def withdrawWindow (s : State) (w : Window) : State :=
  ((s.unmapElem w).unlistMinimized w).unstash w |>.refreshFocus

def changeClient (s : State) (w : Window) (client : Client) : State :=
  { s with client := Function.update s.client w { client with alive := s.alive w } }

def spaceRefresh (s : State) : State :=
  { s with space := { s.space with stack := s.space.stack.retain s.alive } }

def retainMinimized (s : State) : State :=
  { s with minimized := s.minimized.filter fun e => s.alive e.window }

/-- Before any window has opened. -/
def withoutWindows (s : State) : State :=
  { s with space := {}, minimized := [], desks := { s.desks with stashed := [] } }

end State

/-- The compositor, and the windows that are open: mapped by their clients, and neither
destroyed nor withdrawn since. -/
structure Desktop where
  state : State
  opened : List Window := []

namespace Desktop

def step (g : Placement) (d : Desktop) : Event → Desktop
  | .setDesk desk sticky mode => { d with state := d.state.setDesk g desk sticky mode }
  | .moveWindowToDesk w desk => { d with state := d.state.moveWindowToDesk w desk }
  | .desksRefresh => { d with state := d.state.desksRefresh }
  | .minimize w => { d with state := d.state.minimizeWindow w }
  | .unminimize w => { d with state := d.state.unminimizeWindow g w }
  | .opened client loc =>
      { state := d.state.openWindow client loc, opened := d.state.nextId :: d.opened }
  | .closed w => { state := d.state.closeWindow w, opened := d.opened.filter (· ≠ w) }
  | .withdrawn w => { state := d.state.withdrawWindow w, opened := d.opened.filter (· ≠ w) }
  | .spaceRefresh => { d with state := d.state.spaceRefresh }
  | .retainMinimized => { d with state := d.state.retainMinimized }
  | .changed w client => { d with state := d.state.changeClient w client }
  | .focused focus => { d with state := { d.state with focus := focus } }
  | .locked on => { d with state := { d.state with locked := on } }

def run (g : Placement) (d : Desktop) (es : List Event) : Desktop := es.foldl (step g) d

end Desktop

/-- Every open window has a place. -/
structure Desktop.Sound (d : Desktop) (p : Window → Option Place) : Prop where
  orderly : Orderly d.state p
  opened : ∀ w ∈ d.opened, d.state.alive w = true ∧ p w ≠ none

namespace Desktop.Sound

variable {d : Desktop}

theorem leads (h : d.Sound p) (hq : Leads d.state t p q) : Sound { d with state := t } q := by
  refine ⟨hq.orderly, fun w hw => ?_⟩
  obtain ⟨halive, hplace⟩ := h.opened w hw
  exact ⟨(hq.alive w).trans halive, hq.kept w hplace halive⟩

theorem of_same (h : d.Sound p) (ht : Reflects t p) (hnext : t.nextId = d.state.nextId)
    (htag : t.deskTag = d.state.deskTag) (halive : ∀ w, t.alive w = d.state.alive w) :
    Sound { d with state := t } p := by
  refine ⟨⟨ht, ?_, ?_⟩, ?_⟩
  · intro w hw
    rw [hnext]
    exact h.orderly.known w hw
  · intro w hw
    rw [State.hasDesk, htag]
    exact h.orderly.tagged w hw
  · intro w hw
    rw [halive]
    exact h.opened w hw

/-- Forgetting in one place what is not selected, when every window still open is. -/
theorem of_retain (h : d.Sound p) {a : Place} {keep : Window → Bool} {opened : List Window}
    (ht : Reflects t (retain p a keep)) (hnext : t.nextId = d.state.nextId)
    (htag : t.deskTag = d.state.deskTag) (halive : ∀ w, t.alive w = d.state.alive w)
    (hopened : ∀ w ∈ opened, w ∈ d.opened ∧ keep w = true) :
    Sound { state := t, opened := opened } (retain p a keep) := by
  have hle : ∀ w b, retain p a keep w = some b → p w = some b := by
    intro w b hw
    unfold retain at hw
    split at hw
    · cases hw
    · exact hw
  refine ⟨⟨ht, ?_, ?_⟩, ?_⟩
  · intro w hw
    obtain ⟨b, hb⟩ := Option.ne_none_iff_exists'.mp hw
    rw [hnext]
    exact h.orderly.known w (by simp [hle w b hb])
  · intro w hw
    rw [State.hasDesk, htag]
    exact h.orderly.tagged w (hle w _ hw)
  · intro w hw
    obtain ⟨hin, hkeep⟩ := hopened w hw
    rw [halive]
    refine ⟨(h.opened w hin).1, ?_⟩
    unfold retain
    rw [if_neg (by simp [hkeep])]
    exact (h.opened w hin).2

theorem openWindow (h : d.Sound p) (client : Client) (loc : Point) :
    Sound { state := d.state.openWindow client loc, opened := d.state.nextId :: d.opened }
      (Function.update p d.state.nextId (some .space)) := by
  have hnew : p d.state.nextId = none := by
    by_contra hp
    exact absurd (h.orderly.known _ hp) (lt_irrefl _)
  have hother : ∀ w, p w ≠ none → w ≠ d.state.nextId := fun w hw heq => hw (heq ▸ hnew)
  refine ⟨⟨?_, ?_, ?_⟩, ?_⟩
  · refine Reflects.mapElement ?_ (.inl hnew) loc
    exact h.orderly.reflects.of_same (fun _ => Iff.rfl) rfl rfl
  · intro w hw
    change w < d.state.nextId + 1
    by_cases hwn : w = d.state.nextId
    · exact hwn ▸ Nat.lt_succ_self _
    · exact Nat.lt_succ_of_lt (h.orderly.known w (by simpa [hwn] using hw))
  · intro w hw
    by_cases hwn : w = d.state.nextId
    · simp [hwn] at hw
    · change (Function.update d.state.deskTag d.state.nextId none w).isSome = true
      rw [Function.update_of_ne hwn]
      exact h.orderly.tagged w (by simpa [hwn] using hw)
  · intro w hw
    change (Function.update d.state.client d.state.nextId { client with alive := true } w).alive =
      true ∧ _
    rcases List.mem_cons.mp hw with rfl | hw
    · simp
    · obtain ⟨halive, hplace⟩ := h.opened w hw
      have hwn := hother w hplace
      rw [Function.update_of_ne hwn, Function.update_of_ne hwn]
      exact ⟨halive, hplace⟩

theorem closeWindow (h : d.Sound p) (w : Window) :
    Sound { state := d.state.closeWindow w, opened := d.opened.filter (· ≠ w) } p := by
  refine ⟨⟨h.orderly.reflects.of_same (fun _ => Iff.rfl) rfl rfl, h.orderly.known,
    h.orderly.tagged⟩, ?_⟩
  intro x hx
  have hxw : x ≠ w := by simpa using (List.mem_filter.mp hx).2
  change (Function.update d.state.client w { d.state.client w with alive := false } x).alive =
    true ∧ _
  rw [Function.update_of_ne hxw]
  exact h.opened x (List.mem_of_mem_filter hx)

theorem erase_eq_filter_ne {l : List Window} (hl : l.Nodup) (w : Window) :
    l.erase w = l.filter fun x => decide (x ≠ w) := by
  rw [hl.erase_eq_filter]
  refine List.filter_congr fun x _ => ?_
  by_cases hx : x = w
  · simp [hx]
  · simp [hx]

theorem withdrawWindow (h : d.Sound p) (w : Window) :
    ∃ q, Sound { state := d.state.withdrawWindow w, opened := d.opened.filter (· ≠ w) } q := by
  have hkeep : ∀ x ∈ d.opened.filter (· ≠ w), x ∈ d.opened ∧ decide (x ≠ w) = true :=
    fun x hx => List.mem_filter.mp hx
  have herase : ∀ l : List Minimized, (l.map Minimized.window).Nodup →
      (l.eraseP fun e => decide (e.window = w)).map Minimized.window =
        (l.map Minimized.window).filter fun x => decide (x ≠ w) := by
    intro l hl
    rw [map_window_eraseP, erase_eq_filter_ne hl]
  have h₁ : Sound { state := d.state.unmapElem w, opened := d.opened.filter (· ≠ w) }
      (retain p .space fun x => decide (x ≠ w)) := by
    refine h.of_retain ?_ rfl rfl (fun _ => rfl) hkeep
    refine Holds.retain h.orderly.reflects ?_ ?_
    · intro b hb
      cases b with
      | space => exact absurd rfl hb
      | stashed => rfl
      | minimized => rfl
    · exact erase_eq_filter_ne d.state.space.stack.nodup w
  have h₂ : Sound ⟨(d.state.unmapElem w).unlistMinimized w, d.opened.filter (· ≠ w)⟩
      (retain (retain p .space fun x => decide (x ≠ w)) .minimized fun x => decide (x ≠ w)) := by
    refine h₁.of_retain ?_ rfl rfl (fun _ => rfl) fun x hx => ⟨hx, (hkeep x hx).2⟩
    refine Holds.retain h₁.orderly.reflects ?_ ?_
    · intro b hb
      cases b with
      | space => rfl
      | stashed => rfl
      | minimized => exact absurd rfl hb
    · exact herase _ (h₁.orderly.reflects.nodup .minimized)
  have h₃ : Sound ⟨((d.state.unmapElem w).unlistMinimized w).unstash w,
      d.opened.filter (· ≠ w)⟩ (retain (retain (retain p .space fun x => decide (x ≠ w))
        .minimized fun x => decide (x ≠ w)) .stashed fun x => decide (x ≠ w)) := by
    refine h₂.of_retain ?_ rfl rfl (fun _ => rfl) fun x hx => ⟨hx, (hkeep x hx).2⟩
    refine Holds.retain h₂.orderly.reflects ?_ ?_
    · intro b hb
      cases b with
      | space => rfl
      | stashed => exact absurd rfl hb
      | minimized => rfl
    · exact herase _ (h₂.orderly.reflects.nodup .stashed)
  exact ⟨_, h₃.leads h₃.orderly.refreshFocus⟩

theorem step (h : d.Sound p) (g : Placement) (e : Event) : ∃ q, (d.step g e).Sound q := by
  cases e with
  | setDesk desk sticky mode => exact ⟨_, h.leads (h.orderly.setDesk g desk sticky mode)⟩
  | moveWindowToDesk w desk =>
      obtain ⟨q, hq⟩ := h.orderly.moveWindowToDesk w desk
      exact ⟨q, h.leads hq⟩
  | desksRefresh =>
      obtain ⟨q, hq⟩ := h.orderly.desksRefresh
      exact ⟨q, h.leads hq⟩
  | minimize w =>
      obtain ⟨q, hq⟩ := h.orderly.minimizeWindow w
      exact ⟨q, h.leads hq⟩
  | unminimize w =>
      obtain ⟨q, hq, -⟩ := h.orderly.unminimizeWindow g w
      exact ⟨q, h.leads hq⟩
  | opened client loc => exact ⟨_, h.openWindow client loc⟩
  | closed w => exact ⟨p, h.closeWindow w⟩
  | withdrawn w => exact h.withdrawWindow w
  | spaceRefresh =>
      refine ⟨retain p .space d.state.alive, h.of_retain ?_ rfl rfl (fun _ => rfl) ?_⟩
      · refine Holds.retain h.orderly.reflects ?_ rfl
        rintro (_ | _ | _) hb <;> first | rfl | exact absurd rfl hb
      · exact fun w hw => ⟨hw, (h.opened w hw).1⟩
  | retainMinimized =>
      refine ⟨retain p .minimized d.state.alive, h.of_retain ?_ rfl rfl (fun _ => rfl) ?_⟩
      · refine Holds.retain h.orderly.reflects ?_ ?_
        · rintro (_ | _ | _) hb <;> first | rfl | exact absurd rfl hb
        · change _ = (d.state.minimized.map Minimized.window).filter d.state.alive
          rw [List.filter_map]
          rfl
      · exact fun w hw => ⟨hw, (h.opened w hw).1⟩
  | changed w client =>
      refine ⟨p, h.of_same (h.orderly.reflects.of_same (fun _ => Iff.rfl) rfl rfl) rfl rfl ?_⟩
      intro x
      change (Function.update d.state.client w { client with alive := d.state.alive w } x).alive = _
      by_cases hx : x = w
      · simp [hx]
      · simp [hx, State.alive]
  | focused focus =>
      exact ⟨p, h.of_same (h.orderly.reflects.of_same (fun _ => Iff.rfl) rfl rfl) rfl rfl
        fun _ => rfl⟩
  | locked on =>
      exact ⟨p, h.of_same (h.orderly.reflects.of_same (fun _ => Iff.rfl) rfl rfl) rfl rfl
        fun _ => rfl⟩

/-- In every state that a run reaches, every open window has a place. -/
theorem run (h : d.Sound p) (g : Placement) (es : List Event) : ∃ q, (d.run g es).Sound q := by
  induction es generalizing d p with
  | nil => exact ⟨p, h⟩
  | cons e es ih =>
      obtain ⟨q, hq⟩ := h.step g e
      exact ih hq

end Desktop.Sound

theorem Desktop.sound_start (s : State) : Desktop.Sound ⟨s.withoutWindows, []⟩ fun _ => none := by
  refine ⟨⟨⟨?_, ?_⟩, fun w hw => absurd rfl hw, fun w hw => nomatch hw⟩, fun w hw => nomatch hw⟩
  · rintro (_ | _ | _) w <;> simp [State.container, State.withoutWindows, State.elements,
      State.stashedWindows, State.minimizedWindows]
  · rintro (_ | _ | _) <;> exact List.nodup_nil

/-- What is mapped is not brought back: it is left as it is, even if its desk does not
show. -/
theorem Orderly.unminimizeWindow_of_mapped (h : Orderly s p) (g : Placement)
    (hw : p w = some .space) : s.unminimizeWindow g w = s := by
  have haway : s.isAway w = false := by
    simp [State.isAway, h.reflects.isStashed, h.reflects.isMinimized, hw]
  have hshow : s.showDeskOf g w = s := by simp [State.showDeskOf, haway]
  have hentry : s.minimizedEntry w = none :=
    h.reflects.minimizedEntry_none.mpr (by simp [hw])
  simp [State.unminimizeWindow, hshow, hentry]

theorem Orderly.count_eq_one (h : Orderly s p) (hw : w ∈ s.allWindows) :
    s.allWindows.count w = 1 :=
  h.reflects.count_eq_one (h.reflects.mem_allWindows.mp hw)

/-- In every state that a run reaches: an open window is in one of the containers, and so
is everything in them; after a switch of desk what is not minimised is stashed if its desk
does not show, and only then; a window that is brought back from the stashed or minimised
ones is mapped, with its desk the current one unless it shows everywhere, and one that is
mapped already is left as it is. -/
theorem desks_partition_windows (g : Placement) (s : State) (es : List Event) :
    let d := Desktop.run g ⟨s.withoutWindows, []⟩ es
    (∀ w ∈ d.opened, d.state.allWindows.count w = 1) ∧
      (∀ w ∈ d.state.allWindows, d.state.allWindows.count w = 1) ∧
      (∀ desk sticky mode, let t := d.state.setDesk g desk sticky mode
        ∀ w ∈ t.allWindows, t.isStashed w = true ↔
          t.isMinimized w = false ∧
            showsOn t.desks.current (t.windowDesk w) (t.windowSticky w) = false) ∧
      (∀ w, d.state.alive w = true → d.state.isStashed w = true ∨ d.state.isMinimized w = true →
        let t := d.state.unminimizeWindow g w
        w ∈ t.elements ∧ (t.windowDesk w = t.desks.current ∨ t.windowSticky w = true ∨
          t.windowDesk w = [])) ∧
      ∀ w ∈ d.state.elements, d.state.unminimizeWindow g w = d.state := by
  intro d
  obtain ⟨p, hd⟩ := (Desktop.sound_start s).run g es
  change d.Sound p at hd
  have hp := hd.orderly.reflects
  refine ⟨?_, fun w hw => hd.orderly.count_eq_one hw, ?_, ?_, ?_⟩
  · exact fun w hw => hd.orderly.count_eq_one (hp.mem_allWindows.mpr (hd.opened w hw).2)
  · intro desk sticky mode t w hw
    have ht := (hd.orderly.setDesk g desk sticky mode).orderly.reflects
    have hin := ht.mem_allWindows.mp hw
    rw [ht.isStashed, ht.isMinimized]
    change _ ↔ _ ∧ t.deskShows w = false
    revert hin
    unfold sortBy
    rcases retain p .stashed d.state.alive w with _ | _ | _ | _ <;>
      cases hshows : t.deskShows w <;> simp_all [t]
  · intro w halive hput t
    obtain ⟨q, hq, hback⟩ := hd.orderly.unminimizeWindow g w
    have hput : p w = some .stashed ∨ p w = some .minimized := by
      simpa [hp.isStashed, hp.isMinimized] using hput
    obtain ⟨hplace, hshows⟩ := hback halive hput
    refine ⟨hq.orderly.reflects.mem_elements.mpr hplace, ?_⟩
    have hshows : showsOn t.desks.current (t.windowDesk w) (t.windowSticky w) = true := hshows
    simp only [showsOn, Bool.or_eq_true, List.isEmpty_iff, beq_iff_eq] at hshows
    tauto
  · exact fun w hw => hd.orderly.unminimizeWindow_of_mapped g (hp.mem_elements.mp hw)

/-- A window, another desk, and a dialog of the window that has not drawn yet: the dialog
belongs to a desk that does not show, and is mapped. -/
def strayDialog : List Event :=
  [.setDesk "gaming" none none, .opened { size := ⟨640, 480⟩ } ⟨0, 0⟩, .desksRefresh,
    .setDesk "work" none none, .opened { parent := some 1 } ⟨0, 0⟩, .desksRefresh]

/-- The dialog is not brought to its desk when something reaches for it. -/
theorem stray_dialog_stays :
    let d := Desktop.run {} ⟨{}, []⟩ strayDialog
    let t := d.state.unminimizeWindow {} 2
    2 ∈ d.opened ∧ d.state.alive 2 = true ∧
      ¬ (2 ∈ t.elements ∧ (t.windowDesk 2 = t.desks.current ∨ t.windowSticky 2 = true ∨
        t.windowDesk 2 = [])) := by
  decide

end MindOS.Wm
