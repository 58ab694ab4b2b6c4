import MindOS.Wm.Ipc.Server
import MindOS.Transition

/-!
# What the subscribers are shown

The compositor tells its subscribers of the windows, the outputs, the Mind bar and the
tray icons: everything to a new subscriber, and once per turn of its event loop what
differs from the snapshot sent last. There is one such snapshot for all subscribers.
They are all up to date after a refresh as long as nobody subscribes while the others
have a change to hear of.

What a snapshot says is not looked at, it is only compared; its type is a parameter.
-/

namespace MindOS.Ipc

open Text Transition

/-- The lines to a client: the four snapshots, and whatever else is sent. -/
inductive Line (W O I : Type) where
  | windows (w : W)
  | outputs (o : O)
  | mindbar (isOpen : Bool)
  | tray (items : List I)
  | other (text : Text)

namespace Line

variable {W O I : Type}

def windows? : Line W O I → Option W
  | .windows w => some w
  | _ => none

def outputs? : Line W O I → Option O
  | .outputs o => some o
  | _ => none

def mindbar? : Line W O I → Option Bool
  | .mindbar isOpen => some isOpen
  | _ => none

def tray? : Line W O I → Option (List I)
  | .tray items => some items
  | _ => none

end Line

/-- The last event of a kind among the lines sent. -/
def lastOf {L α : Type} (kind : L → Option α) (sent : List L) : Option α :=
  (sent.filterMap kind).getLast?

/-- The compositor's handle on the tray host. -/
structure TrayHost (I : Type) where
  items : List I := []
  /-- The items changed since it was last asked. -/
  dirty : Bool := false

/-- What the tray host tells the compositor. -/
inductive TrayUpdate (I : Type) where
  | items (items : List I)
  | gone

def TrayHost.onUpdate {I : Type} [DecidableEq I] (t : TrayHost I) : TrayUpdate I → TrayHost I
  | .items items => if t.items = items then t else { items := items, dirty := true }
  | .gone => if t.items = [] then t else { items := [], dirty := true }

/-- The compositor, as far as its subscribers see it. -/
structure Shell (W O I : Type) where
  /-- The snapshots as they would be taken now. -/
  windows : W
  outputs : O
  barOpen : Bool := false
  xtray : Option (TrayHost I) := none
  ipc : Server (Line W O I) := {}
  lastWindows : Option W := none
  lastOutputs : Option O := none
  lastMindbarOpen : Bool := false
  lastTray : Option (List I) := none
  lastRefresh : Option Nat := none

/-- One step of a run. -/
inductive ShellStep (W O I : Type) where
  | connect (socket : List Write)
  | disconnect (id : Nat)
  /-- A client gets a reply that is not about a subscription. -/
  | reply (id : Nat) (text : Text)
  /-- The subscribers get an event of another kind. -/
  | broadcast (text : Text)
  | windows (w : W)
  | outputs (o : O)
  | bar (isOpen : Bool)
  | startTray
  | tray (update : TrayUpdate I)
  /-- A client subscribes; the reply and the events that are not snapshots. -/
  | subscribe (id : Nat) (reply layoutMode desk prefs : Text)
  | refresh (now : Nat)

namespace Shell

variable {W O I : Type} [DecidableEq W] [DecidableEq O] [DecidableEq I]
variable (size : Line W O I → Nat)

/-- The tray icons, none without a tray host. -/
def traySnapshot (s : Shell W O I) : List I := (s.xtray.map TrayHost.items).getD []

/-- There are changes of the tray icons that nobody asked for yet. -/
def trayDirty (s : Shell W O I) : Bool := (s.xtray.map TrayHost.dirty).getD false

/-- Whether the tray icons changed, which is forgotten. -/
def trayChanged (s : Shell W O I) : Shell W O I × Bool :=
  ({ s with xtray := s.xtray.map fun t => { t with dirty := false } }, s.trayDirty)

def ipcDropClient (s : Shell W O I) (id : Nat) : Shell W O I :=
  { s with ipc := s.ipc.removeClient id }

def ipcBroadcast (s : Shell W O I) (line : Line W O I) : Shell W O I :=
  { s with ipc := s.ipc.broadcast size line }

/-- A line for one client; it is dropped if it does not take it. -/
def replyTo (s : Shell W O I) (id : Nat) (text : Text) : Shell W O I × Bool :=
  let (ipc, ok) := s.ipc.send size id (.other text)
  let s := { s with ipc := ipc }
  (if ok then s else s.ipcDropClient id, ok)

/-- The lines to a new subscriber. -/
def snapshots (s : Shell W O I) (layoutMode desk prefs : Text) : List (Line W O I) :=
  [.windows s.windows, .outputs s.outputs, .mindbar s.barOpen, .other layoutMode, .other desk,
    .other prefs, .tray s.traySnapshot]

/-- The initial events after `subscribe`. -/
def ipcSendSnapshots (s : Shell W O I) (id : Nat) (layoutMode desk prefs : Text) : Shell W O I :=
  let (ipc, ok) := s.ipc.sendAll size id (s.snapshots layoutMode desk prefs)
  let s := { s with
    ipc := ipc
    lastWindows := some s.windows
    lastOutputs := some s.outputs
    lastMindbarOpen := s.barOpen
    lastTray := some s.traySnapshot }
  if ok then s else s.ipcDropClient id

/-- The request `subscribe`: the reply, and the snapshots if the client took it. -/
def subscribe (s : Shell W O I) (id : Nat) (reply layoutMode desk prefs : Text) : Shell W O I :=
  let (s, ok) := { s with ipc := s.ipc.subscribe id }.replyTo size id reply
  if ok && s.ipc.isSubscribed id then s.ipcSendSnapshots size id layoutMode desk prefs else s

/-- At least 16 milliseconds have passed since the last refresh. -/
def refreshIsDue (s : Shell W O I) (now : Nat) : Bool :=
  (s.lastRefresh.map fun last => decide (16 ≤ now - last)).getD true

def refreshWindows (s : Shell W O I) : Shell W O I :=
  if s.lastWindows = some s.windows then s
  else { s.ipcBroadcast size (.windows s.windows) with lastWindows := some s.windows }

def refreshOutputs (s : Shell W O I) : Shell W O I :=
  if s.lastOutputs = some s.outputs then s
  else { s.ipcBroadcast size (.outputs s.outputs) with lastOutputs := some s.outputs }

def refreshMindbar (s : Shell W O I) : Shell W O I :=
  if s.lastMindbarOpen = s.barOpen then s
  else { s with lastMindbarOpen := s.barOpen }.ipcBroadcast size (.mindbar s.barOpen)

def refreshTray (s : Shell W O I) : Shell W O I :=
  let (s, changed) := s.trayChanged
  if changed && s.lastTray ≠ some s.traySnapshot then
    { s.ipcBroadcast size (.tray s.traySnapshot) with lastTray := some s.traySnapshot }
  else s

/-- Send the subscribers what differs from the last snapshots. -/
def ipcRefresh (s : Shell W O I) (now : Nat) : Shell W O I :=
  if s.ipc.hasSubscribers && s.refreshIsDue now then
    let s := { s with lastRefresh := some now }
    (((s.refreshWindows size).refreshOutputs size).refreshMindbar size).refreshTray size
  else s

def next (s : Shell W O I) : ShellStep W O I → Shell W O I
  | .connect socket => { s with ipc := (s.ipc.addClient socket).1 }
  | .disconnect id => s.ipcDropClient id
  | .reply id text => (s.replyTo size id text).1
  | .broadcast text => s.ipcBroadcast size (.other text)
  | .windows w => { s with windows := w }
  | .outputs o => { s with outputs := o }
  | .bar isOpen => { s with barOpen := isOpen }
  | .startTray => if s.xtray.isSome then s else { s with xtray := some {} }
  | .tray update => { s with xtray := s.xtray.map fun t => t.onUpdate update }
  | .subscribe id reply layoutMode desk prefs => s.subscribe size id reply layoutMode desk prefs
  | .refresh now => s.ipcRefresh size now

def step (s : Shell W O I) (l : ShellStep W O I) : Option (Shell W O I) := some (s.next size l)

/-- The last snapshots sent are those that would be taken now. -/
structure Fresh (s : Shell W O I) : Prop where
  windows : s.lastWindows = some s.windows
  outputs : s.lastOutputs = some s.outputs
  mindbar : s.lastMindbarOpen = s.barOpen
  tray : s.lastTray = some s.traySnapshot

/-- The last events of each kind are the snapshots that would be taken now. -/
structure UpToDate (s : Shell W O I) (sent : List (Line W O I)) : Prop where
  windows : lastOf Line.windows? sent = some s.windows
  outputs : lastOf Line.outputs? sent = some s.outputs
  mindbar : lastOf Line.mindbar? sent = some s.barOpen
  tray : lastOf Line.tray? sent = some s.traySnapshot

/-- Every subscriber is up to date. -/
def Converged (s : Shell W O I) : Prop :=
  ∀ p ∈ s.ipc.clients, p.2.subscribed = true → s.UpToDate p.2.sent

/-- Nobody subscribes while another subscriber has a change to hear of. -/
def SubscribesFresh (s : Shell W O I) : ShellStep W O I → Shell W O I → Prop
  | .subscribe id reply _ _ _, _ =>
      ((s.ipc.subscribe id).send size id (.other reply)).2 = true →
        (∃ p ∈ s.ipc.clients, p.1 ≠ id ∧ p.2.subscribed = true) → s.Fresh
  | _, _ => True

end Shell

/-! ### The last event of a kind -/

theorem lastOf_concat {L α : Type} (kind : L → Option α) (sent : List L) (line : L) :
    lastOf kind (sent ++ [line]) = (kind line).or (lastOf kind sent) := by
  cases hline : kind line with
  | none => simp [lastOf, hline]
  | some a => simp [lastOf, hline]

theorem lastOf_append_of_none {L α : Type} (kind : L → Option α) (sent : List L) {lines : List L}
    (h : ∀ line ∈ lines, kind line = none) : lastOf kind (sent ++ lines) = lastOf kind sent := by
  rw [lastOf, lastOf, List.filterMap_append, List.filterMap_eq_nil_iff.mpr h, List.append_nil]

namespace Shell

variable {W O I : Type}
variable {size : Line W O I → Nat} {s t : Shell W O I}

/-- A subscriber knows the snapshots that were sent last. -/
structure Knows (s : Shell W O I) (sent : List (Line W O I)) : Prop where
  windows : lastOf Line.windows? sent = s.lastWindows
  outputs : lastOf Line.outputs? sent = s.lastOutputs
  mindbar : lastOf Line.mindbar? sent = some s.lastMindbarOpen
  tray : lastOf Line.tray? sent = s.lastTray
  told : s.lastTray.isSome = true

/-- Every subscriber knows the snapshots that were sent last. -/
def Told (s : Shell W O I) : Prop :=
  ∀ p ∈ s.ipc.clients, p.2.subscribed = true → s.Knows p.2.sent

/-- What holds between the steps of a run. -/
structure Sound (s : Shell W O I) : Prop where
  knows : s.Told
  /-- The tray host says when the icons are not those sent last. -/
  tray : s.trayDirty = false → ∀ items, s.lastTray = some items → items = s.traySnapshot

/-- The subscribers were there before, and got other lines at most. -/
def Grown (before after : Server (Line W O I)) : Prop :=
  ∀ p ∈ after.clients, p.2.subscribed = true → ∃ c, (p.1, c) ∈ before.clients ∧
    c.subscribed = true ∧ ∃ texts : List Text, p.2.sent = c.sent ++ texts.map .other

theorem other_none {α : Type} {kind : Line W O I → Option α} (h : ∀ text, kind (.other text) = none)
    (texts : List Text) : ∀ line ∈ texts.map (Line.other (W := W) (O := O) (I := I)),
      kind line = none := by
  intro line hline
  obtain ⟨text, -, rfl⟩ := List.mem_map.mp hline
  exact h text

theorem Knows.append {sent : List (Line W O I)} (h : s.Knows sent) (texts : List Text) :
    s.Knows (sent ++ texts.map .other) where
  windows := (lastOf_append_of_none _ _ (other_none (fun _ => rfl) texts)).trans h.windows
  outputs := (lastOf_append_of_none _ _ (other_none (fun _ => rfl) texts)).trans h.outputs
  mindbar := (lastOf_append_of_none _ _ (other_none (fun _ => rfl) texts)).trans h.mindbar
  tray := (lastOf_append_of_none _ _ (other_none (fun _ => rfl) texts)).trans h.tray
  told := h.told

theorem UpToDate.append {sent : List (Line W O I)} (h : s.UpToDate sent) (texts : List Text) :
    s.UpToDate (sent ++ texts.map .other) where
  windows := (lastOf_append_of_none _ _ (other_none (fun _ => rfl) texts)).trans h.windows
  outputs := (lastOf_append_of_none _ _ (other_none (fun _ => rfl) texts)).trans h.outputs
  mindbar := (lastOf_append_of_none _ _ (other_none (fun _ => rfl) texts)).trans h.mindbar
  tray := (lastOf_append_of_none _ _ (other_none (fun _ => rfl) texts)).trans h.tray

theorem Sound.of_grown (h : s.Sound) {ipc : Server (Line W O I)} (hgrown : Grown s.ipc ipc) :
    Sound { s with ipc := ipc } where
  knows p hp hsub := by
    obtain ⟨c, hc, hcsub, texts, hsent⟩ := hgrown p hp hsub
    rw [hsent]
    obtain ⟨hwindows, houtputs, hmindbar, htray, htold⟩ := (h.knows _ hc hcsub).append texts
    exact ⟨hwindows, houtputs, hmindbar, htray, htold⟩
  tray := h.tray

theorem Converged.of_grown (h : s.Converged) {ipc : Server (Line W O I)}
    (hgrown : Grown s.ipc ipc) : Converged { s with ipc := ipc } := by
  intro p hp hsub
  obtain ⟨c, hc, hcsub, texts, hsent⟩ := hgrown p hp hsub
  rw [hsent]
  obtain ⟨hwindows, houtputs, hmindbar, htray⟩ := (h _ hc hcsub).append texts
  exact ⟨hwindows, houtputs, hmindbar, htray⟩

theorem grown_of_mem {before after : Server (Line W O I)}
    (h : ∀ p ∈ after.clients, p.2.subscribed = true → p ∈ before.clients) : Grown before after :=
  fun p hp hsub => ⟨p.2, h p hp hsub, hsub, [], (List.append_nil _).symm⟩

theorem grown_addClient (server : Server (Line W O I)) (socket : List Write) :
    Grown server (server.addClient socket).1 := by
  refine grown_of_mem fun p hp hsub => ?_
  obtain hp | hp := List.mem_append.mp hp
  · exact hp
  · rw [List.mem_singleton.mp hp] at hsub
    cases hsub

theorem grown_removeClient (server : Server (Line W O I)) (id : Nat) :
    Grown server (server.removeClient id) :=
  grown_of_mem fun _ hp _ => (Server.mem_removeClient hp).1

theorem grown_broadcast (server : Server (Line W O I)) (text : Text) :
    Grown server (server.broadcast size (.other text)) := by
  intro p hp hsub
  obtain ⟨c, hc, hcsub, hsent⟩ := Server.mem_broadcast size hp
  rw [hsub] at hcsub
  rw [if_pos hcsub.symm] at hsent
  exact ⟨c, hc, hcsub.symm, [text], hsent⟩

theorem grown_replyTo (size : Line W O I → Nat) (s : Shell W O I) (id : Nat) (text : Text) :
    ∃ ipc, (s.replyTo size id text).1 = { s with ipc := ipc } ∧ Grown s.ipc ipc := by
  unfold replyTo
  simp only
  split
  case isTrue hok =>
    refine ⟨_, rfl, fun p hp hsub => ?_⟩
    obtain ⟨hp, -⟩ | ⟨hid, c, hc, hpc⟩ := Server.mem_send size hp hok
    · exact ⟨p.2, hp, hsub, [], (List.append_nil _).symm⟩
    · rw [hpc] at hsub ⊢
      exact ⟨c, hid ▸ hc, hsub, [text], rfl⟩
  case isFalse =>
    refine ⟨_, rfl, grown_of_mem fun p hp _ => ?_⟩
    obtain ⟨hp, hid⟩ := Server.mem_removeClient hp
    exact Server.mem_send_of_ne size hp hid

theorem mem_snapshots (s : Shell W O I) (layoutMode desk prefs : Text)
    (sent : List (Line W O I)) : s.UpToDate (sent ++ s.snapshots layoutMode desk prefs) := by
  have hlast : ∀ {α : Type} (kind : Line W O I → Option α),
      lastOf kind (sent ++ s.snapshots layoutMode desk prefs) =
        ((s.snapshots layoutMode desk prefs).filterMap kind).getLast?.or (lastOf kind sent) := by
    intro α kind
    rw [lastOf, lastOf, List.filterMap_append, List.getLast?_append]
  constructor
  · exact hlast _
  · exact hlast _
  · exact hlast _
  · exact hlast _

/-- A client that subscribed is up to date if it is there after the snapshots; the
others are as they were. -/
theorem subscribe_cases (size : Line W O I → Nat) (s : Shell W O I) (id : Nat)
    (reply layoutMode desk prefs : Text) :
    (∃ ipc, s.subscribe size id reply layoutMode desk prefs = { s with ipc := ipc } ∧
      Grown s.ipc ipc) ∨
    ((s.ipc.subscribe id).send size id (.other reply)).2 = true ∧
      ∃ ipc, s.subscribe size id reply layoutMode desk prefs =
        { s with
          ipc := ipc
          lastWindows := some s.windows
          lastOutputs := some s.outputs
          lastMindbarOpen := s.barOpen
          lastTray := some s.traySnapshot } ∧
        ∀ p ∈ ipc.clients, (p.1 = id ∧ s.UpToDate p.2.sent) ∨ p.1 ≠ id ∧ p ∈ s.ipc.clients := by
  have hothers : ∀ p ∈ ((s.ipc.subscribe id).send size id (.other reply)).1.clients, p.1 ≠ id →
      p ∈ s.ipc.clients := by
    intro p hp hid
    obtain ⟨hp, -⟩ | ⟨heq, -⟩ := Server.mem_update (Server.mem_send_of_ne size hp hid)
    · exact hp
    · exact absurd heq hid
  unfold subscribe replyTo
  simp only
  cases hok : ((s.ipc.subscribe id).send size id (.other reply)).2 with
  | false =>
      refine .inl ⟨_, rfl, grown_of_mem fun p hp _ => ?_⟩
      obtain ⟨hp, hid⟩ := Server.mem_removeClient hp
      exact hothers p hp hid
  | true =>
      refine .inr ⟨rfl, ?_⟩
      simp only [if_true, Bool.true_and, Server.isSubscribed_send_subscribe size hok]
      unfold ipcSendSnapshots
      simp only
      split
      case isTrue hall =>
        refine ⟨_, rfl, fun p hp => ?_⟩
        by_cases hid : p.1 = id
        · obtain ⟨c, -, hsent⟩ := Server.mem_sendAll size hp hall hid
          exact .inl ⟨hid, hsent ▸ mem_snapshots s layoutMode desk prefs c.sent⟩
        · exact .inr ⟨hid, hothers p (Server.mem_sendAll_of_ne size hp hid) hid⟩
      case isFalse =>
        refine ⟨_, rfl, fun p hp => ?_⟩
        obtain ⟨hp, hid⟩ := Server.mem_removeClient hp
        exact .inr ⟨hid, hothers p (Server.mem_sendAll_of_ne size hp hid) hid⟩

theorem Sound.subscribe (h : s.Sound) {id : Nat} {reply layoutMode desk prefs : Text}
    (hfresh : SubscribesFresh size s (.subscribe id reply layoutMode desk prefs) t) :
    (s.subscribe size id reply layoutMode desk prefs).Sound := by
  obtain ⟨ipc, heq, hgrown⟩ | ⟨htook, ipc, heq, hclients⟩ :=
    subscribe_cases size s id reply layoutMode desk prefs
  · rw [heq]
    exact h.of_grown hgrown
  · rw [heq]
    constructor
    · intro p hp hsub
      obtain ⟨-, hup⟩ | ⟨hid, hin⟩ := hclients p hp
      · exact ⟨hup.windows, hup.outputs, hup.mindbar, hup.tray, rfl⟩
      · -- Another subscriber knows what was sent last, which is what is there now.
        obtain ⟨hw, ho, hm, ht⟩ := hfresh htook ⟨p, hin, hid, hsub⟩
        obtain ⟨hwindows, houtputs, hmindbar, htray, -⟩ := h.knows p hin hsub
        exact ⟨hwindows.trans hw, houtputs.trans ho, hmindbar.trans (congrArg some hm),
          htray.trans ht, rfl⟩
    · rintro - items ⟨⟩
      rfl

theorem Converged.subscribe (h : s.Converged) (id : Nat) (reply layoutMode desk prefs : Text) :
    (s.subscribe size id reply layoutMode desk prefs).Converged := by
  obtain ⟨ipc, heq, hgrown⟩ | ⟨-, ipc, heq, hclients⟩ :=
    subscribe_cases size s id reply layoutMode desk prefs
  · rw [heq]
    exact h.of_grown hgrown
  · rw [heq]
    intro p hp hsub
    obtain ⟨-, hup⟩ | ⟨-, hin⟩ := hclients p hp
    · exact ⟨hup.windows, hup.outputs, hup.mindbar, hup.tray⟩
    · obtain ⟨hwindows, houtputs, hmindbar, htray⟩ := h p hin hsub
      exact ⟨hwindows, houtputs, hmindbar, htray⟩

theorem Told.broadcast (h : s.Told) {line : Line W O I}
    (ht : t.ipc = s.ipc.broadcast size line)
    (hknows : ∀ sent, s.Knows sent → t.Knows (sent ++ [line])) : t.Told := by
  intro p hp hsub
  rw [ht] at hp
  obtain ⟨c, hc, hcsub, hsent⟩ := Server.mem_broadcast size hp
  rw [hsub] at hcsub
  rw [hsent, if_pos hcsub.symm]
  exact hknows _ (h _ hc hcsub.symm)

theorem Told.refreshWindows [DecidableEq W] (h : s.Told) (size : Line W O I → Nat) : ∃ ipc,
    s.refreshWindows size = { s with ipc := ipc, lastWindows := some s.windows } ∧
      (s.refreshWindows size).Told := by
  unfold Shell.refreshWindows
  split
  case isTrue hsame => exact ⟨s.ipc, by rw [← hsame], h⟩
  case isFalse =>
    refine ⟨_, rfl, h.broadcast rfl fun sent hk => ?_⟩
    exact ⟨lastOf_concat .., (lastOf_concat ..).trans hk.outputs,
      (lastOf_concat ..).trans hk.mindbar,
      (lastOf_concat ..).trans hk.tray, hk.told⟩

theorem Told.refreshOutputs [DecidableEq O] (h : s.Told) (size : Line W O I → Nat) : ∃ ipc,
    s.refreshOutputs size = { s with ipc := ipc, lastOutputs := some s.outputs } ∧
      (s.refreshOutputs size).Told := by
  unfold Shell.refreshOutputs
  split
  case isTrue hsame => exact ⟨s.ipc, by rw [← hsame], h⟩
  case isFalse =>
    refine ⟨_, rfl, h.broadcast rfl fun sent hk => ?_⟩
    exact ⟨(lastOf_concat ..).trans hk.windows, lastOf_concat ..,
      (lastOf_concat ..).trans hk.mindbar,
      (lastOf_concat ..).trans hk.tray, hk.told⟩

theorem Told.refreshMindbar (h : s.Told) (size : Line W O I → Nat) : ∃ ipc,
    s.refreshMindbar size = { s with ipc := ipc, lastMindbarOpen := s.barOpen } ∧
      (s.refreshMindbar size).Told := by
  unfold Shell.refreshMindbar
  split
  case isTrue hsame =>
    exact ⟨s.ipc, congrArg (fun isOpen => { s with lastMindbarOpen := isOpen }) hsame, h⟩
  case isFalse =>
    refine ⟨_, rfl, h.broadcast rfl fun sent hk => ?_⟩
    exact ⟨(lastOf_concat ..).trans hk.windows,
      (lastOf_concat ..).trans hk.outputs, lastOf_concat ..,
      (lastOf_concat ..).trans hk.tray, hk.told⟩

theorem Sound.refreshTray [DecidableEq I] (h : s.Sound) (size : Line W O I → Nat) :
    ∃ ipc xtray lastTray,
    s.refreshTray size = { s with ipc := ipc, xtray := xtray, lastTray := lastTray } ∧
      (s.refreshTray size).Sound ∧ ((s.refreshTray size).lastTray.isSome = true →
        (s.refreshTray size).lastTray = some (s.refreshTray size).traySnapshot) := by
  have hasked : s.trayChanged.1.traySnapshot = s.traySnapshot := by
    unfold trayChanged traySnapshot
    cases s.xtray <;> rfl
  unfold Shell.refreshTray
  simp only
  split
  case isTrue =>
    refine ⟨_, _, _, rfl, ⟨h.knows.broadcast rfl fun sent hk => ?_, ?_⟩, fun _ => rfl⟩
    · exact ⟨(lastOf_concat ..).trans hk.windows, (lastOf_concat ..).trans hk.outputs,
        (lastOf_concat ..).trans hk.mindbar, lastOf_concat .., rfl⟩
    · rintro - items ⟨⟩
      rfl
  case isFalse hsame =>
    have hlast : ∀ items, s.lastTray = some items → items = s.traySnapshot := by
      intro items hitems
      cases hdirty : s.trayDirty with
      | false => exact h.tray hdirty items hitems
      | true =>
          by_contra hne
          refine hsame (by
            rw [hasked]
            simpa [trayChanged, hdirty, hitems] using hne)
    refine ⟨_, _, _, rfl, ⟨fun p hp hsub => ?_, fun _ items hitems => ?_⟩, fun hsome => ?_⟩
    · obtain ⟨hwindows, houtputs, hmindbar, htray, htold⟩ := h.knows p hp hsub
      exact ⟨hwindows, houtputs, hmindbar, htray, htold⟩
    · rw [hasked]
      exact hlast items hitems
    · obtain ⟨items, hitems⟩ := Option.isSome_iff_exists.mp hsome
      rw [hitems, hasked]
      exact congrArg some (hlast items hitems)

theorem Sound.of_change (h : s.Sound) (hipc : t.ipc = s.ipc)
    (hwindows : t.lastWindows = s.lastWindows) (houtputs : t.lastOutputs = s.lastOutputs)
    (hmindbar : t.lastMindbarOpen = s.lastMindbarOpen) (htray : t.lastTray = s.lastTray)
    (hdirty : t.trayDirty = false → s.trayDirty = false ∧ t.traySnapshot = s.traySnapshot) :
    t.Sound where
  knows p hp hsub := by
    rw [hipc] at hp
    have hk := h.knows p hp hsub
    exact ⟨hk.windows.trans hwindows.symm, hk.outputs.trans houtputs.symm,
      hk.mindbar.trans (congrArg some hmindbar.symm), hk.tray.trans htray.symm,
      htray.symm ▸ hk.told⟩
  tray hclean items hitems := by
    obtain ⟨hclean, hsnapshot⟩ := hdirty hclean
    rw [hsnapshot]
    exact h.tray hclean items (htray ▸ hitems)

theorem onUpdate_cases [DecidableEq I] (t : TrayHost I) (update : TrayUpdate I) :
    t.onUpdate update = t ∨ (t.onUpdate update).dirty = true := by
  cases update with
  | items items =>
      by_cases hsame : t.items = items
      · exact .inl (if_pos hsame)
      · exact .inr (congrArg TrayHost.dirty (if_neg hsame))
  | gone =>
      by_cases hsame : t.items = []
      · exact .inl (if_pos hsame)
      · exact .inr (congrArg TrayHost.dirty (if_neg hsame))

variable [DecidableEq W] [DecidableEq O] [DecidableEq I]

theorem Sound.ipcRefresh (h : s.Sound) (now : Nat) : (s.ipcRefresh size now).Sound ∧
    (s.refreshIsDue now = true → (s.ipcRefresh size now).Converged) := by
  unfold Shell.ipcRefresh
  split
  case isTrue =>
    simp only
    generalize hstart : { s with lastRefresh := some now } = a
    have ha : a.Sound := by
      rw [← hstart]
      refine ⟨fun p hp hsub => ?_, h.tray⟩
      obtain ⟨hwindows, houtputs, hmindbar, htray, htold⟩ := h.knows p hp hsub
      exact ⟨hwindows, houtputs, hmindbar, htray, htold⟩
    obtain ⟨ipcb, hb, hbtold⟩ := ha.knows.refreshWindows size
    generalize a.refreshWindows size = b at hb hbtold
    obtain ⟨ipcc, hc, hctold⟩ := hbtold.refreshOutputs size
    generalize b.refreshOutputs size = c at hc hctold
    obtain ⟨ipcd, hd, hdtold⟩ := hctold.refreshMindbar size
    generalize c.refreshMindbar size = d at hd hdtold
    have hdsound : d.Sound := ⟨hdtold, by rw [hd, hc, hb]; exact ha.tray⟩
    obtain ⟨ipce, xtray, lastTray, he, hesound, hetray⟩ := hdsound.refreshTray size
    generalize d.refreshTray size = e at he hesound hetray
    refine ⟨hesound, fun _ p hp hsub => ?_⟩
    obtain ⟨hwindows, houtputs, hmindbar, htray, htold⟩ := hesound.knows p hp hsub
    refine ⟨hwindows.trans ?_, houtputs.trans ?_, hmindbar.trans ?_, htray.trans (hetray htold)⟩
    · rw [he, hd, hc, hb]
    · rw [he, hd, hc, hb]
    · rw [he, hd, hc, hb]
  case isFalse hnone =>
    refine ⟨h, fun hdue p hp hsub => ?_⟩
    have hsubscribers : s.ipc.hasSubscribers = true := List.any_eq_true.mpr ⟨p, hp, hsub⟩
    rw [hsubscribers, hdue] at hnone
    exact absurd rfl hnone

/-- A step that changes what the snapshots would be. -/
def Changes : ShellStep W O I → Prop
  | .windows _ | .outputs _ | .bar _ | .startTray | .tray _ => True
  | _ => False

theorem Sound.next (h : s.Sound) (l : ShellStep W O I) (hP : SubscribesFresh size s l t) :
    (s.next size l).Sound := by
  cases l with
  | connect socket => exact h.of_grown (grown_addClient s.ipc socket)
  | disconnect id => exact h.of_grown (grown_removeClient s.ipc id)
  | reply id text =>
      obtain ⟨ipc, heq, hgrown⟩ := grown_replyTo size s id text
      rw [Shell.next, heq]
      exact h.of_grown hgrown
  | broadcast text => exact h.of_grown (grown_broadcast s.ipc text)
  | windows w => exact h.of_change rfl rfl rfl rfl rfl fun hclean => ⟨hclean, rfl⟩
  | outputs o => exact h.of_change rfl rfl rfl rfl rfl fun hclean => ⟨hclean, rfl⟩
  | bar isOpen => exact h.of_change rfl rfl rfl rfl rfl fun hclean => ⟨hclean, rfl⟩
  | startTray =>
      cases hx : s.xtray with
      | some host =>
          rw [Shell.next, hx]
          exact h
      | none =>
          rw [Shell.next, hx]
          refine h.of_change rfl rfl rfl rfl rfl fun _ => ⟨?_, ?_⟩
          · rw [trayDirty, hx]
            rfl
          · rw [traySnapshot, traySnapshot, hx]
            rfl
  | tray update =>
      refine h.of_change rfl rfl rfl rfl rfl fun hclean => ?_
      rw [Shell.next] at hclean ⊢
      unfold trayDirty traySnapshot at *
      cases hx : s.xtray with
      | none => exact ⟨rfl, rfl⟩
      | some host =>
          simp only [hx] at hclean ⊢
          obtain hsame | hdirty := onUpdate_cases host update
          · simp only [Option.map_some, hsame] at hclean ⊢
            exact ⟨hclean, trivial⟩
          · exact absurd hclean (by simp [hdirty])
  | subscribe id reply layoutMode desk prefs => exact h.subscribe hP
  | refresh now => exact (h.ipcRefresh now).1

theorem Sound.converged_next (h : s.Sound) (l : ShellStep W O I) (hl : ¬Changes l)
    (hs : s.Converged) : (s.next size l).Converged := by
  cases l with
  | connect socket => exact hs.of_grown (grown_addClient s.ipc socket)
  | disconnect id => exact hs.of_grown (grown_removeClient s.ipc id)
  | reply id text =>
      obtain ⟨ipc, heq, hgrown⟩ := grown_replyTo size s id text
      rw [Shell.next, heq]
      exact hs.of_grown hgrown
  | broadcast text => exact hs.of_grown (grown_broadcast s.ipc text)
  | windows w => exact absurd trivial hl
  | outputs o => exact absurd trivial hl
  | bar isOpen => exact absurd trivial hl
  | startTray => exact absurd trivial hl
  | tray update => exact absurd trivial hl
  | subscribe id reply layoutMode desk prefs => exact hs.subscribe id reply layoutMode desk prefs
  | refresh now =>
      cases hdue : s.refreshIsDue now with
      | true => exact (h.ipcRefresh now).2 hdue
      | false =>
          rw [Shell.next, Shell.ipcRefresh, hdue, Bool.and_false]
          exact hs

/-- In every run in which nobody subscribes while another subscriber has a change to
hear of, all subscribers are up to date after every refresh that was due, and stay so
until something changes. -/
theorem converged_of_subscribesFresh (size : Line W O I → Nat) (w : W) (o : O)
    (as : List (ShellStep W O I))
    (h : Along (step size) (SubscribesFresh size) { windows := w, outputs := o } as) :
    Along (step size) (fun s l t =>
      (∀ now, l = .refresh now → s.refreshIsDue now = true → t.Converged) ∧
        (¬Changes l → s.Converged → t.Converged)) { windows := w, outputs := o } as := by
  refine Along.imp Sound ?_ ?_ ⟨nofun, nofun⟩ h
  · intro s l t hs hstep hP
    obtain rfl := Option.some.inj hstep
    exact hs.next l hP
  · intro s l t hs hstep hP
    obtain rfl := Option.some.inj hstep
    refine ⟨?_, hs.converged_next l⟩
    rintro now rfl hdue
    exact (hs.ipcRefresh now).2 hdue

/-- Two clients subscribe, one before and one after the windows change. -/
def subscribing (between : List (ShellStep Nat Nat Nat)) : List (ShellStep Nat Nat Nat) :=
  [.connect [], .connect [], .subscribe 1 "ok" "" "" "", .windows 1] ++ between ++
    [.subscribe 2 "ok" "" "" ""]

/-- With a refresh in between both are up to date. -/
theorem converged_of_subscribesFresh_subscribing :
    Along (step fun _ => 64) (fun s l t =>
      (∀ now, l = .refresh now → s.refreshIsDue now = true → t.Converged) ∧
        (¬Changes l → s.Converged → t.Converged))
      ({ windows := 0, outputs := 0 } : Shell Nat Nat Nat) (subscribing [.refresh 50]) := by
  refine converged_of_subscribesFresh (fun _ => 64) 0 0 _ ?_
  refine .cons rfl trivial (.cons rfl trivial (.cons rfl ?_ (.cons rfl trivial
    (.cons rfl trivial (.cons rfl ?_ trivial)))))
  · rintro - ⟨p, hp, hid, hsub⟩
    obtain rfl | hp := List.mem_cons.mp hp
    · exact absurd rfl hid
    · rw [List.mem_singleton.mp hp] at hsub
      cases hsub
  · exact fun _ _ => ⟨rfl, rfl, rfl, rfl⟩

/-- Without one the refresh after it finds nothing to send, and the first client never
hears of the change. -/
theorem subscription_hides_change : ∃ s t : Shell Nat Nat Nat,
    exec (step fun _ => 64) { windows := 0, outputs := 0 } (subscribing []) = some s ∧
      s.refreshIsDue 50 = true ∧ s.step (fun _ => 64) (.refresh 50) = some t ∧ ¬t.Converged := by
  refine ⟨_, _, rfl, rfl, rfl, ?_⟩
  intro h
  exact absurd (h _ List.mem_cons_self rfl).windows (by decide)

end Shell
end MindOS.Ipc
