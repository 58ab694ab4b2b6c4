import MindOS.Wm.Ipc.Server
import MindOS.Wm.Idle.Timeline

/-!
# Idle holds and the connections they belong to

A client may hold the session awake; the hold should end with its connection. The
compositor works on one thing at a time: it reads what a client sent and answers line
by line, and whatever it does may send lines to all subscribers, which drops the ones
that do not take them. What a line asks for is a parameter, and so is the line that
tells of an `idle` event.
-/

namespace MindOS.Ipc

open Text Transition Idle

/-- The requests, as far as idling is concerned. -/
inductive Request where
  | subscribe
  | lock
  | unlock
  | wake
  | blank
  | inhibitIdle (on : Bool)
  | other
  deriving DecidableEq

/-- What the compositor is at. -/
inductive Task (L : Type) where
  | idle
  /-- A client's lines, still to be answered. -/
  | lines (id : Nat) (rest : List Text)
  /-- A request of the client was carried out, its reply is still to be sent. -/
  | reply (id : Nat) (line : L) (subscribing : Bool) (rest : List Text)

structure Compositor (L : Type) where
  ipc : Server L := {}
  idle : Idle.Session
  task : Task L := .idle

/-- What stays fixed: how lines are written, and what they ask for. -/
structure Wire (L : Type) where
  size : L → Nat
  event : IdleEvent → L
  parse : Text → Except Text Request

/-- One step of a run. -/
inductive Turn (L : Type) where
  | connect (socket : List Write)
  /-- A client's socket is readable: the complete lines, or nothing when it is closed,
  fails, or sends a line that is too long. -/
  | ready (now id : Nat) (answer : Option (List Text))
  /-- The next line of the client is dealt with; its reply. -/
  | serve (now : Nat) (reply : L)
  /-- The reply is sent, and to a new subscriber what it should know first. -/
  | reply (now : Nat) (snapshots : List L)
  /-- An `idle` event goes to the subscribers. -/
  | tell
  /-- Any other line goes to the subscribers. -/
  | broadcast (line : L)
  /-- Something else happens to the session. -/
  | session (now : Nat) (op : Op)

namespace Compositor

variable {L : Type} (wire : Wire L)

def dropClient (s : Compositor L) (now id : Nat) : Compositor L :=
  { s with
    ipc := s.ipc.removeClient id
    idle := s.idle.setIdleHold now id false
    task := .idle }

/-- What a request does, as far as idling is concerned. -/
def request (s : Compositor L) (now id : Nat) : Request → Compositor L
  | .subscribe => { s with ipc := s.ipc.subscribe id }
  | .lock => { s with idle := s.idle.setLocked now true }
  | .unlock => { s with idle := (s.idle.setLocked now false).wakeIdle now }
  | .wake => { s with idle := s.idle.wakeIdle now }
  | .blank => { s with idle := s.idle.blankNow now }
  | .inhibitIdle on => { s with idle := s.idle.setIdleHold now id on }
  | .other => s

/-- A hold is not among what else happens: it is a request. -/
def holdsOn : Op → Bool
  | .hold _ _ => true
  | _ => false

/-- Nothing is under way. -/
def Between (s : Compositor L) : Prop := s.task = .idle ∧ s.idle.outbox = []

/-- What a step does; `none` where it cannot happen. -/
def step (s : Compositor L) : Turn L → Option (Compositor L)
  | .connect socket =>
      match s.task, s.idle.outbox with
      | .idle, [] => some { s with ipc := (s.ipc.addClient socket).1 }
      | _, _ => none
  | .ready now id answer =>
      match s.task, s.idle.outbox with
      | .idle, [] =>
          match answer with
          | none => some (s.dropClient now id)
          | some lines =>
              let (ipc, ok) := s.ipc.flushClient id
              let s := { s with ipc := ipc }
              some (if ok then { s with task := .lines id lines } else s.dropClient now id)
      | _, _ => none
  | .serve now reply =>
      match s.task with
      | .lines _ [] => some { s with task := .idle }
      | .lines id (line :: rest) =>
          match wire.parse line with
          | .error _ => some { s with task := .reply id reply false rest }
          | .ok r =>
              some { s.request now id r with task := .reply id reply (r = .subscribe) rest }
      | _ => none
  | .reply now snapshots =>
      match s.task, s.idle.outbox with
      | .reply id line subscribing rest, [] =>
          let (ipc, ok) := s.ipc.send wire.size id line
          let s := { s with ipc := ipc }
          if !ok then some (s.dropClient now id)
          else if subscribing && s.ipc.isSubscribed id then
            let (ipc, ok) := s.ipc.sendAll wire.size id snapshots
            let s := { s with ipc := ipc }
            some (if ok then { s with task := .lines id rest } else s.dropClient now id)
          else some { s with task := .lines id rest }
      | _, _ => none
  | .tell =>
      match s.idle.outbox with
      | e :: outbox =>
          some { s with
            ipc := s.ipc.broadcast wire.size (wire.event e)
            idle := { s.idle with outbox := outbox } }
      | [] => none
  | .broadcast line =>
      match s.task with
      | .lines _ _ => none
      | _ => some { s with ipc := s.ipc.broadcast wire.size line }
  | .session now op =>
      match s.task, s.idle.outbox with
      | .idle, [] => if holdsOn op then none else some { s with idle := s.idle.apply now op }
      | _, _ => none

/-- The client waits for a reply. -/
def answers (s : Compositor L) (id : Nat) : Prop :=
  ∃ line subscribing rest, s.task = .reply id line subscribing rest

/-- Every subscriber that holds the session awake takes the line, but for a client that
waits for a reply. -/
def Takes (s : Compositor L) (line : L) : Prop :=
  ∀ id c, (id, c) ∈ s.ipc.clients → id ∈ s.idle.holds → c.subscribed = true →
    (c.send wire.size line).2 = true ∨ s.answers id

/-- No line sent to all subscribers fails to one that holds the session awake. -/
def HoldersTake (s : Compositor L) : Turn L → Compositor L → Prop
  | .tell, _ => ∀ e ∈ s.idle.outbox.head?, s.Takes wire (wire.event e)
  | .broadcast line, _ => s.Takes wire line
  | _, _ => True

/-- Every client that holds the session awake is connected. -/
def Connected (s : Compositor L) : Prop := ∀ id ∈ s.idle.holds, s.ipc.hasClient id = true

/-- A client that holds the session awake is connected, or the compositor will find that
it is not when it sends the reply. -/
def Accounted (s : Compositor L) : Prop :=
  ∀ id ∈ s.idle.holds, s.ipc.hasClient id = true ∨ s.answers id

end Compositor

/-! ### Who holds the session awake -/

theorem holds_idleChanged (s : Session) : s.idleChanged.holds = s.holds := by
  obtain ⟨e, o, heq⟩ := s.idleChanged_eq
  rw [heq]

theorem holds_setStage (s : Session) (stage : Stage) : (s.setStage stage).holds = s.holds := by
  unfold Session.setStage
  split
  · rfl
  · exact holds_idleChanged _

theorem holds_setLocked (s : Session) (now : Nat) (locked : Bool) :
    (s.setLocked now locked).holds = s.holds := by
  obtain ⟨e, o, timer, heq⟩ := s.setLocked_eq now locked
  rw [heq]

theorem holds_idleInhibitChanged (s : Session) (now : Nat) :
    (s.idleInhibitChanged now).holds = s.holds := by
  obtain ⟨e, o, heq⟩ := s.idleInhibitChanged_eq now
  rw [heq]
  rfl

theorem holds_setIdleHold (s : Session) (now client : Nat) (on : Bool) :
    (s.setIdleHold now client on).holds =
      if on then insert client s.holds else s.holds.erase client := by
  unfold Session.setIdleHold
  split
  case isTrue hsame =>
    cases on with
    | true => exact (Finset.insert_eq_of_mem (of_decide_eq_true hsame)).symm
    | false => exact (Finset.erase_eq_of_notMem (of_decide_eq_false hsame)).symm
  case isFalse => exact holds_idleInhibitChanged _ now

theorem holds_idleTick (s : Session) (now : Nat) : (s.idleTick now).holds = s.holds := by
  have hlock : ∀ (c : Bool) (t : Session), t.holds = s.holds →
      (if c then t.setLocked now true else t).holds = s.holds := by
    intro c t ht
    split
    · exact (holds_setLocked t now true).trans ht
    · exact ht
  unfold Session.idleTick
  split
  · rfl
  · have hlocked := hlock (s.due now s.settings.lock) s rfl
    simp only
    generalize (if s.due now s.settings.lock then s.setLocked now true else s) = l at hlocked ⊢
    show (if _ then Session.setStage _ _ else if _ then Session.setStage _ _ else _).holds = _
    split
    · exact (holds_setStage _ _).trans (hlock _ l hlocked)
    · split
      · exact (holds_setStage _ _).trans hlocked
      · exact hlocked

theorem holds_apply (s : Session) (now : Nat) (op : Op) (h : ∀ client on, op ≠ .hold client on) :
    (s.apply now op).holds = s.holds := by
  cases op with
  | activity =>
      show (if _ then Session.setStage _ _ else _).holds = _
      split
      · exact holds_setStage _ _
      · rfl
  | prefs settings => exact holds_idleChanged _
  | wake => exact holds_setStage _ _
  | unlock => exact (holds_setStage _ _).trans (holds_setLocked s now false)
  | lock => exact holds_setLocked s now true
  | blank =>
      refine (holds_setStage _ _).trans ?_
      split
      · exact holds_setLocked s now true
      · rfl
  | hold client on => exact absurd rfl (h client on)
  | inhibit surface => exact holds_idleInhibitChanged _ now
  | uninhibit surface => exact holds_idleInhibitChanged _ now
  | fire => exact holds_idleTick _ now

namespace Compositor

variable {L : Type} {wire : Wire L} {s t : Compositor L}

theorem accounted_dropClient {now id : Nat}
    (h : ∀ i ∈ s.idle.holds, i ≠ id → s.ipc.hasClient i = true) :
    (s.dropClient now id).Accounted := by
  intro i hi
  rw [dropClient] at hi ⊢
  simp only [holds_setIdleHold, Bool.false_eq_true, if_false] at hi
  obtain ⟨hne, hin⟩ := Finset.mem_erase.mp hi
  exact .inl (Server.hasClient_removeClient (h i hin hne) hne)

theorem Accounted.connected (h : s.Accounted) (htask : ∀ id, ¬s.answers id) : s.Connected :=
  fun id hid => (h id hid).resolve_right (htask id)

theorem accounted_broadcast {line : L} (h : s.Accounted) (htakes : s.Takes wire line) :
    ∀ id ∈ s.idle.holds, (s.ipc.broadcast wire.size line).hasClient id = true ∨ s.answers id := by
  intro id hid
  obtain hconnected | hanswers := h id hid
  · by_cases hanswers : s.answers id
    · exact .inr hanswers
    · exact .inl (Server.hasClient_broadcast wire.size hconnected fun c hc hsub =>
        (htakes id c hc hid hsub).resolve_right hanswers)
  · exact .inr hanswers

theorem accounted_request {now id : Nat} (h : s.Connected) (r : Request) (reply : L)
    (subscribing : Bool) (rest : List Text) :
    Accounted { s.request now id r with task := .reply id reply subscribing rest } := by
  intro i hi
  by_cases hid : i = id
  · exact .inr ⟨reply, subscribing, rest, by rw [hid]⟩
  · refine .inl ?_
    cases r with
    | subscribe => exact (Server.hasClient_subscribe s.ipc id i).trans (h i hi)
    | lock => exact h i (holds_apply s.idle now .lock nofun ▸ hi)
    | unlock => exact h i (holds_apply s.idle now .unlock nofun ▸ hi)
    | wake => exact h i (holds_apply s.idle now .wake nofun ▸ hi)
    | blank => exact h i (holds_apply s.idle now .blank nofun ▸ hi)
    | inhibitIdle on =>
        have hholds := holds_setIdleHold s.idle now id on
        replace hi : i ∈ (s.idle.setIdleHold now id on).holds := hi
        rw [hholds] at hi
        cases on with
        | true => exact h i ((Finset.mem_insert.mp hi).resolve_left hid)
        | false => exact h i (Finset.mem_of_mem_erase hi)
    | other => exact h i hi

theorem Accounted.reply {now : Nat} {snapshots : List L} (h : s.Accounted)
    (hstep : s.step wire (.reply now snapshots) = some t) : t.Accounted := by
  simp only [Compositor.step] at hstep
  split at hstep
  case h_1 id line subscribing rest htask hout =>
    have hothers : ∀ i ∈ s.idle.holds, i ≠ id → s.ipc.hasClient i = true := by
      intro i hi hne
      refine (h i hi).resolve_right ?_
      rintro ⟨line', subscribing', rest', htask'⟩
      rw [htask] at htask'
      cases htask'
      exact hne rfl
    have hsent : ∀ i ∈ s.idle.holds, i ≠ id →
        (s.ipc.send wire.size id line).1.hasClient i = true := fun i hi hne =>
      (Server.hasClient_send wire.size s.ipc id line i).trans (hothers i hi hne)
    split at hstep
    case isTrue =>
      obtain rfl := Option.some.inj hstep
      exact accounted_dropClient hsent
    case isFalse hok =>
      have hthere : s.ipc.hasClient id = true := Server.send_ok wire.size (by simpa using hok)
      have hall : ∀ i ∈ s.idle.holds, (s.ipc.send wire.size id line).1.hasClient i = true := by
        intro i hi
        by_cases hne : i = id
        · rw [hne, Server.hasClient_send]
          exact hthere
        · exact hsent i hi hne
      split at hstep
      case isTrue =>
        obtain rfl := Option.some.inj hstep
        have hsnapshots : ∀ i ∈ s.idle.holds,
            ((s.ipc.send wire.size id line).1.sendAll wire.size id snapshots).1.hasClient i =
              true := fun i hi =>
          (Server.hasClient_sendAll wire.size _ id snapshots i).trans (hall i hi)
        split
        · exact fun i hi => .inl (hsnapshots i hi)
        · exact accounted_dropClient fun i hi _ => hsnapshots i hi
      case isFalse =>
        obtain rfl := Option.some.inj hstep
        exact fun i hi => .inl (hall i hi)
  case h_2 => cases hstep

theorem Accounted.step {l : Turn L} (h : s.Accounted) (hstep : s.step wire l = some t)
    (htakes : s.HoldersTake wire l t) : t.Accounted := by
  have hidle : s.task = .idle → s.Connected := by
    refine fun htask => h.connected ?_
    rintro id ⟨line, subscribing, rest, htask'⟩
    rw [htask] at htask'
    cases htask'
  have hlines : ∀ {id rest}, s.task = .lines id rest → s.Connected := by
    refine fun htask => h.connected ?_
    rintro id ⟨line, subscribing, rest, htask'⟩
    rw [htask] at htask'
    cases htask'
  cases l with
  | connect socket =>
      simp only [Compositor.step] at hstep
      split at hstep
      case h_1 htask hout =>
        obtain rfl := Option.some.inj hstep
        exact fun id hid => .inl (Server.hasClient_addClient (hidle htask id hid))
      case h_2 => cases hstep
  | ready now id answer =>
      simp only [Compositor.step] at hstep
      split at hstep
      case h_1 htask hout =>
        split at hstep
        case h_1 =>
          obtain rfl := Option.some.inj hstep
          exact accounted_dropClient fun i hi _ => hidle htask i hi
        case h_2 lines =>
          obtain rfl := Option.some.inj hstep
          have hconnected : ∀ i ∈ s.idle.holds, (s.ipc.flushClient id).1.hasClient i = true :=
            fun i hi => (Server.hasClient_flushClient s.ipc id i).trans (hidle htask i hi)
          split
          · exact fun i hi => .inl (hconnected i hi)
          · exact accounted_dropClient fun i hi _ => hconnected i hi
      case h_2 => cases hstep
  | serve now reply =>
      simp only [Compositor.step] at hstep
      split at hstep
      case h_1 id htask =>
        obtain rfl := Option.some.inj hstep
        exact fun i hi => .inl (hlines htask i hi)
      case h_2 id line rest htask =>
        split at hstep
        case h_1 =>
          obtain rfl := Option.some.inj hstep
          exact fun i hi => .inl (hlines htask i hi)
        case h_2 r hr =>
          obtain rfl := Option.some.inj hstep
          exact accounted_request (hlines htask) r reply _ rest
      case h_3 => cases hstep
  | reply now snapshots => exact h.reply hstep
  | tell =>
      simp only [Compositor.step] at hstep
      split at hstep
      case h_1 e outbox hout =>
        obtain rfl := Option.some.inj hstep
        exact accounted_broadcast h (htakes e (by rw [hout]; rfl))
      case h_2 => cases hstep
  | broadcast line =>
      simp only [Compositor.step] at hstep
      split at hstep
      case h_1 => cases hstep
      case h_2 =>
        obtain rfl := Option.some.inj hstep
        exact accounted_broadcast h htakes
  | session now op =>
      simp only [Compositor.step] at hstep
      split at hstep
      case h_1 htask hout =>
        obtain ⟨hop, ht⟩ := Option.ite_none_left_eq_some.mp hstep
        obtain rfl := Option.some.inj ht
        intro id hid
        replace hid : id ∈ (s.idle.apply now op).holds := hid
        rw [holds_apply s.idle now op fun client on heq => hop (by rw [heq]; rfl)] at hid
        exact .inl (hidle htask id hid)
      case h_2 => cases hstep

def start (settings : IdleSettings) (now : Nat) : Compositor L where
  idle := Session.start settings now

/-- In every run in which no line to all subscribers fails to one that holds the session
awake, the holds between two operations belong to connected clients. -/
theorem connected_of_holdersTake (wire : Wire L) (settings : IdleSettings) (boot : Nat)
    (as : List (Turn L))
    (h : Along (step wire) (HoldersTake wire) (start settings boot) as) :
    Along (step wire) (fun _ _ t => t.Between → t.Connected) (start settings boot) as := by
  refine Along.imp Accounted (fun _ _ _ hs hstep hP => hs.step hstep hP) ?_ ?_ h
  · intro s l t hs hstep hP hbetween
    refine (hs.step hstep hP).connected ?_
    rintro id ⟨line, subscribing, rest, htask⟩
    rw [hbetween.1] at htask
    cases htask
  · exact fun id hid => absurd hid (Finset.notMem_empty id)

/-- Two requests of the shell. -/
def subscribeLine : Text := "\x7b\"type\":\"subscribe\"\x7d"

def inhibitLine : Text := "\x7b\"type\":\"inhibit_idle\",\"on\":true\x7d"

/-- Lines as they are written, and these two requests. -/
def shellWire : Wire Text where
  size := List.length
  event e := if e.inhibited then "\x7b\"event\":\"idle\",\"inhibited\":true\x7d"
    else "\x7b\"event\":\"idle\",\"inhibited\":false\x7d"
  parse line :=
    if line = subscribeLine then .ok .subscribe
    else if line = inhibitLine then .ok (.inhibitIdle true)
    else .error "invalid JSON"

/-- A client subscribes and holds the session awake. -/
def holding (socket : List Write) : List (Turn Text) :=
  [.connect socket, .ready 1 1 (some [subscribeLine, inhibitLine]),
    .serve 1 "ok", .reply 1 ["windows"], .serve 2 "ok", .tell, .reply 2 [], .serve 2 ""]

theorem connected_of_holdersTake_holding :
    Along (step shellWire) (fun _ _ t => t.Between → t.Connected) (start {} 0)
      (holding (List.replicate 4 (.wrote 4096))) := by
  refine connected_of_holdersTake shellWire {} 0 _ ?_
  refine .cons rfl trivial (.cons rfl trivial (.cons rfl trivial (.cons rfl trivial
    (.cons rfl trivial (.cons rfl ?_ (.cons rfl trivial (.cons rfl trivial trivial)))))))
  rintro e ⟨⟩ id c hc _ _
  obtain ⟨rfl, rfl⟩ := Prod.mk.inj (List.mem_singleton.mp hc)
  exact .inl rfl

/-- The client's socket fails when the next line goes to all subscribers: the client is
gone, its hold is not. -/
theorem hold_outlives_client : ∃ s, exec (step shellWire) (start {} 0)
    (holding (List.replicate 4 (.wrote 4096) ++ [.failed]) ++ [.broadcast "windows"]) = some s ∧
      s.Between ∧ ¬s.Connected := by
  refine ⟨_, rfl, ⟨rfl, rfl⟩, ?_⟩
  intro h
  exact absurd (h 1 (by decide)) (by decide)

end Compositor
end MindOS.Ipc
