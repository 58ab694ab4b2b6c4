import MindOS.Transition
import Mathlib.Data.Finset.Basic

/-!
# Game mode

GameMode counts the games that run, and the shell watches the counter. It tells the
compositor of a change by two messages. One keeps the screen awake, and belongs to the
connection it came by; the other clears the screen of the game or puts its windows back,
and is kept by the compositor. Turning that on waits for the game to have a window.

The compositor goes on running while the shell exits and starts, and while connections end
and are made. What is lost with a connection are the messages that it was not asked for yet.
-/

namespace MindOS.Shell.GameMode

open Transition

inductive Message where
  | inhibitIdle (on : Bool)
  | gameScene (on : Bool)
  deriving DecidableEq

/-- The host, as far as games go. -/
structure App where
  /-- A game is running, as far as the shell knows. -/
  game : Bool
  /-- The connection it writes to. -/
  conn : Option Nat := none
  /-- Connections it has heard of, and not told of a game yet. -/
  tasks : Nat := 0
  /-- Timers that are to turn the scene on. -/
  timers : Nat := 0

structure System where
  /-- The number in the file; no file is no game. -/
  counter : Nat
  /-- The shell is to be told that the file changed. -/
  changed : Bool := false
  shell : Option App := none
  /-- The compositor's connections, which are all the shell's. -/
  clients : Finset Nat := ∅
  nextClient : Nat := 0
  /-- The messages to the compositor, in the order sent. -/
  wire : List (Nat × Message) := []
  /-- The connections that hold the session awake. -/
  holds : Finset Nat := ∅
  /-- The last `game_scene` was to clear the screen. -/
  scene : Bool := false

inductive Step where
  | count (n : Nat)
  | starts
  | exits
  | connects
  /-- The shell finds the connection closed. -/
  | disconnects
  /-- The shell has heard of a connection, and asked what it asks first. -/
  | connected
  | gameChanged
  /-- A timer of the shell runs out. -/
  | settled
  /-- The compositor handles the next message of a client. -/
  | handle (id : Nat)
  /-- The compositor drops a client. -/
  | dropClient (id : Nat)
  /-- The compositor drops a client that does not take a line meant for all. -/
  | broadcast (id : Nat)

namespace System

def gameRunning (s : System) : Bool := decide (0 < s.counter)

/-- The connection by which messages get through. -/
def live (s : System) : Option Nat := (s.shell.bind App.conn).filter (· ∈ s.clients)

/-- No reply is waited for, and it is not looked at whether the message can be sent. -/
def send (s : System) (msg : Message) : System :=
  { s with wire := s.wire ++ s.live.toList.map fun id => (id, msg) }

/-- `watch_game`, at the start. -/
def starts (s : System) : Option System :=
  match s.shell with
  | none => some { s with shell := some { game := s.gameRunning }, changed := false }
  | some _ => none

def exits (s : System) : Option System :=
  s.shell.map fun _ => { s with shell := none, changed := false }

def connects (s : System) : Option System :=
  match s.shell with
  | some ⟨game, none, tasks, timers⟩ =>
      some { s with
        shell := some ⟨game, some s.nextClient, tasks + 1, timers⟩
        clients := insert s.nextClient s.clients
        nextClient := s.nextClient + 1 }
  | _ => none

def disconnects (s : System) : Option System :=
  s.shell.map fun sh => { s with shell := some { sh with conn := none } }

/-- A game may already have been running before the shell started. -/
def connected (s : System) : Option System :=
  match s.shell with
  | some ⟨game, conn, tasks + 1, timers⟩ =>
      let t := { s with shell := some ⟨game, conn, tasks, timers⟩ }
      some (if game then t.send (.inhibitIdle true) else t)
  | _ => none

def gameChanged (s : System) : Option System :=
  match s.shell, s.changed with
  | some sh, true =>
      let t := { s with changed := false }
      let running := s.gameRunning
      if sh.game = running then some t
      else if running then
        some ({ t with shell := some { sh with game := running, timers := sh.timers + 1 } }.send
          (.inhibitIdle running))
      else
        some (({ t with shell := some { sh with game := running } }.send
          (.inhibitIdle running)).send (.gameScene false))
  | _, _ => none

def settled (s : System) : Option System :=
  match s.shell with
  | some ⟨game, conn, tasks, timers + 1⟩ =>
      let t := { s with shell := some ⟨game, conn, tasks, timers⟩ }
      some (if game then t.send (.gameScene true) else t)
  | _ => none

def request (s : System) (id : Nat) : Message → System
  | .inhibitIdle true => { s with holds := insert id s.holds }
  | .inhibitIdle false => { s with holds := s.holds.erase id }
  | .gameScene on => { s with scene := on }

def handle (s : System) (id : Nat) : Option System :=
  (s.wire.find? fun m => decide (m.1 = id)).map fun m =>
    { s with wire := s.wire.eraseP fun m => decide (m.1 = id) }.request id m.2

/-- What the client has sent and nobody has read is lost. -/
def removeClient (s : System) (id : Nat) : System :=
  { s with
    clients := s.clients.erase id
    wire := s.wire.filter fun m => decide (m.1 ≠ id) }

/-- A client that goes away stops holding the session awake. -/
def dropClient (s : System) (id : Nat) : Option System :=
  if id ∈ s.clients then some { s.removeClient id with holds := s.holds.erase id } else none

def broadcast (s : System) (id : Nat) : Option System :=
  if id ∈ s.clients then some (s.removeClient id) else none

def step (s : System) : Step → Option System
  | .count n => some { s with counter := n, changed := s.shell.isSome }
  | .starts => s.starts
  | .exits => s.exits
  | .connects => s.connects
  | .disconnects => s.disconnects
  | .connected => s.connected
  | .gameChanged => s.gameChanged
  | .settled => s.settled
  | .handle id => s.handle id
  | .dropClient id => s.dropClient id
  | .broadcast id => s.broadcast id

/-! ## What is to hold -/

/-- The shell is connected, nothing waits, and no connection is left of earlier ones. -/
structure Steady (s : System) (sh : App) (id : Nat) : Prop where
  shell : s.shell = some sh
  conn : sh.conn = some id
  clients : s.clients = {id}
  changed : s.changed = false
  tasks : sh.tasks = 0
  timers : sh.timers = 0
  wire : s.wire = []

/-- The compositor keeps the screen awake, and the scene is on, when a game is running. -/
def Follows (s : System) : Prop :=
  ∀ sh id, s.Steady sh id →
    (s.holds.Nonempty ↔ s.gameRunning = true) ∧ (s.scene = true ↔ s.gameRunning = true)

/-- What a message says of the hold of a client. -/
def holdOf (id : Nat) : Nat × Message → Option Bool
  | (client, .inhibitIdle on) => if client = id then some on else none
  | (_, .gameScene _) => none

/-- What a message says of the scene. -/
def sceneOf : Nat × Message → Option Bool
  | (_, .gameScene on) => some on
  | (_, .inhibitIdle _) => none

/-- What the last message says that says anything. -/
def lastOf (f : Nat × Message → Option Bool) (now : Bool) (wire : List (Nat × Message)) : Bool :=
  wire.foldl (fun b m => (f m).getD b) now

/-- The hold of a client when all messages are handled. -/
def willHold (s : System) (id : Nat) : Bool := lastOf (holdOf id) (decide (id ∈ s.holds)) s.wire

/-- The scene when all messages are handled in the order sent. -/
def willShow (s : System) : Bool := lastOf sceneOf s.scene s.wire

/-- The scene is as it should be when the shell starts, no change of it is sent without a
connection or lost with one, none overtakes another, and no client that holds the session
awake fails to take a line meant for all. -/
def InOrder (s : System) : Step → Prop
  | .starts => s.willShow = s.gameRunning
  | .gameChanged =>
      s.gameRunning = false → s.live ≠ none ∨ s.willShow = false
  | .settled =>
      ∀ sh ∈ s.shell, sh.game = true → s.live ≠ none ∨ s.willShow = true ∨ 1 < sh.timers
  | .handle id =>
      ∀ m, s.wire.find? (fun m => decide (m.1 = id)) = some m → (sceneOf m).isSome = true →
        s.wire.find? (fun m => (sceneOf m).isSome) = some m
  | .dropClient id => ∀ m ∈ s.wire, m.1 = id → sceneOf m = none
  | .broadcast id => id ∉ s.holds ∧ ∀ m ∈ s.wire, m.1 = id → sceneOf m = none
  | _ => True

/-! ## The last message that says something -/

section LastOf

variable {f : Nat × Message → Option Bool} {now : Bool} {wire : List (Nat × Message)}

theorem lastOf_nil (f : Nat × Message → Option Bool) (now : Bool) : lastOf f now [] = now := rfl

theorem lastOf_cons (m : Nat × Message) :
    lastOf f now (m :: wire) = lastOf f ((f m).getD now) wire := rfl

theorem lastOf_append (front back : List (Nat × Message)) :
    lastOf f now (front ++ back) = lastOf f (lastOf f now front) back := List.foldl_append

theorem lastOf_of_none (h : ∀ m ∈ wire, f m = none) : lastOf f now wire = now := by
  induction wire with
  | nil => rfl
  | cons m wire ih =>
      rw [lastOf_cons, h m List.mem_cons_self]
      exact ih fun x hx => h x (List.mem_cons_of_mem m hx)

theorem lastOf_filter {p : Nat × Message → Bool} (h : ∀ m ∈ wire, p m = false → f m = none) :
    lastOf f now (wire.filter p) = lastOf f now wire := by
  induction wire generalizing now with
  | nil => rfl
  | cons m wire ih =>
      have hrest := fun x hx => h x (List.mem_cons_of_mem m hx)
      cases hp : p m with
      | true => rw [List.filter_cons_of_pos hp, lastOf_cons, lastOf_cons, ih hrest]
      | false =>
          rw [List.filter_cons_of_neg (by simp [hp]), lastOf_cons, h m List.mem_cons_self hp,
            ih hrest]
          rfl

theorem lastOf_eraseP {p : Nat × Message → Bool} {m : Nat × Message}
    (hm : wire.find? p = some m)
    (h : ∀ front back, wire = front ++ m :: back → p m = true → (∀ x ∈ front, p x = false) →
      f m = none ∨ ∀ x ∈ front, f x = none) :
    lastOf f ((f m).getD now) (wire.eraseP p) = lastOf f now wire := by
  obtain ⟨hp, front, back, rfl, hfront⟩ := List.find?_eq_some_iff_append.mp hm
  have hfront' : ∀ x ∈ front, p x = false := fun x hx => by simpa using hfront x hx
  have herase : (front ++ m :: back).eraseP p = front ++ back := by
    rw [List.eraseP_append_right _ fun x hx => by simp [hfront' x hx], List.eraseP_cons_of_pos hp]
  rw [herase, lastOf_append, lastOf_append, lastOf_cons]
  obtain hnone | hnone := h front back rfl hp hfront'
  · rw [hnone]
    rfl
  · rw [lastOf_of_none hnone, lastOf_of_none hnone]

theorem holdOf_of_ne {id : Nat} {m : Nat × Message} (h : m.1 ≠ id) : holdOf id m = none := by
  obtain ⟨client, on | on⟩ := m
  · exact if_neg h
  · rfl

end LastOf

/-! ## The invariant -/

section Invariant

variable {s t : System}

structure Inv (s : System) : Prop where
  holds : s.holds ⊆ s.clients
  wire : ∀ m ∈ s.wire, m.1 ∈ s.clients
  clients : ∀ id ∈ s.clients, id < s.nextClient
  conn : ∀ sh ∈ s.shell, ∀ id ∈ sh.conn, id < s.nextClient
  game : s.changed = false → ∀ sh ∈ s.shell, sh.game = s.gameRunning
  /-- The hold follows what the shell knows, when it has told the connection. -/
  held : ∀ sh ∈ s.shell, ∀ id ∈ sh.conn, id ∈ s.clients →
    (s.willHold id = true → sh.game = true) ∧ (sh.tasks = 0 → s.willHold id = sh.game)
  /-- The scene follows it, or a timer is to turn it on. -/
  scene : ∀ sh ∈ s.shell,
    s.willShow = sh.game ∨ s.willShow = false ∧ sh.game = true ∧ 0 < sh.timers

theorem Inv.follows (h : Inv s) : s.Follows := by
  intro sh id hsteady
  have hgame := h.game hsteady.changed sh hsteady.shell
  have hclient : id ∈ s.clients := hsteady.clients ▸ Finset.mem_singleton_self id
  have hheld := (h.held sh hsteady.shell id hsteady.conn hclient).2 hsteady.tasks
  have hscene : s.willShow = sh.game := by
    obtain hscene | ⟨-, -, htimers⟩ := h.scene sh hsteady.shell
    · exact hscene
    · exact absurd hsteady.timers htimers.ne'
  rw [willHold, hsteady.wire, lastOf_nil, hgame] at hheld
  rw [willShow, hsteady.wire, lastOf_nil, hgame] at hscene
  refine ⟨⟨fun hsome => ?_, fun hrunning => ?_⟩, by rw [hscene]⟩
  · obtain ⟨j, hj⟩ := hsome
    obtain rfl := Finset.mem_singleton.mp (hsteady.clients ▸ h.holds hj)
    rw [← hheld]
    exact decide_eq_true hj
  · exact ⟨id, of_decide_eq_true (hheld.trans hrunning)⟩

theorem Inv.start (counter : Nat) : Inv { counter := counter } where
  holds := Finset.Subset.refl _
  wire _ hm := nomatch hm
  clients _ hid := nomatch hid
  conn _ hsh := nomatch hsh
  game _ _ hsh := nomatch hsh
  held _ hsh := nomatch hsh
  scene _ hsh := nomatch hsh

theorem Inv.count (h : Inv s) (n : Nat) :
    Inv { s with counter := n, changed := s.shell.isSome } where
  holds := h.holds
  wire := h.wire
  clients := h.clients
  conn := h.conn
  game hchanged sh hsh := by
    rw [show s.shell = some sh from hsh] at hchanged
    cases hchanged
  held := h.held
  scene := h.scene

theorem Inv.starts (h : Inv s) (ht : s.starts = some t) (hstep : s.willShow = s.gameRunning) :
    Inv t := by
  unfold System.starts at ht
  split at ht
  case h_1 =>
    obtain rfl := Option.some.inj ht
    refine ⟨h.holds, h.wire, h.clients, ?_, ?_, ?_, ?_⟩
    · rintro _ ⟨⟩ id hid
      cases hid
    · rintro - _ ⟨⟩
      rfl
    · rintro _ ⟨⟩ id hid
      cases hid
    · rintro _ ⟨⟩
      exact .inl hstep
  case h_2 => cases ht

theorem Inv.exits (h : Inv s) (ht : s.exits = some t) : Inv t := by
  obtain ⟨sh, -, rfl⟩ := Option.map_eq_some_iff.mp ht
  exact ⟨h.holds, h.wire, h.clients, nofun, fun _ => nofun, nofun, nofun⟩

theorem Inv.connects (h : Inv s) (ht : s.connects = some t) : Inv t := by
  unfold System.connects at ht
  split at ht
  case h_1 game tasks timers hshell =>
    obtain rfl := Option.some.inj ht
    have hnew : s.nextClient ∉ s.clients := fun hmem => lt_irrefl _ (h.clients _ hmem)
    have hquiet : s.willHold s.nextClient = false := by
      have hnone : ∀ m ∈ s.wire, holdOf s.nextClient m = none :=
        fun m hm => holdOf_of_ne fun heq => hnew (heq ▸ h.wire m hm)
      rw [willHold, lastOf_of_none hnone]
      exact decide_eq_false fun hmem => hnew (h.holds hmem)
    refine ⟨h.holds.trans (Finset.subset_insert _ _), fun m hm => ?_, fun id hid => ?_, ?_, ?_, ?_,
      ?_⟩
    · exact Finset.mem_insert_of_mem (h.wire m hm)
    · obtain rfl | hid := Finset.mem_insert.mp hid
      · exact Nat.lt_succ_self _
      · exact (h.clients id hid).trans (Nat.lt_succ_self _)
    · rintro _ ⟨⟩ _ ⟨⟩
      exact Nat.lt_succ_self _
    · rintro hchanged _ ⟨⟩
      exact h.game hchanged ⟨game, none, tasks, timers⟩ hshell
    · rintro _ ⟨⟩ _ ⟨⟩ -
      exact ⟨fun hheld => absurd (hquiet.symm.trans hheld) Bool.false_ne_true,
        fun htasks => nomatch htasks⟩
    · rintro _ ⟨⟩
      exact h.scene ⟨game, none, tasks, timers⟩ hshell
  case h_2 => cases ht

theorem Inv.disconnects (h : Inv s) (ht : s.disconnects = some t) : Inv t := by
  obtain ⟨sh, hshell, rfl⟩ := Option.map_eq_some_iff.mp ht
  refine ⟨h.holds, h.wire, h.clients, ?_, ?_, ?_, ?_⟩
  · rintro _ ⟨⟩ _ hid
    cases hid
  · rintro hchanged _ ⟨⟩
    exact h.game hchanged sh hshell
  · rintro _ ⟨⟩ _ hid
    cases hid
  · rintro _ ⟨⟩
    exact h.scene sh hshell

theorem Inv.tell (h : Inv s) {sh sh' : App} {changed : Bool} {extra : List (Nat × Message)}
    (hshell : s.shell = some sh) (hconn : sh'.conn = sh.conn)
    (hextra : ∀ m ∈ extra, m.1 ∈ s.clients)
    (hgame : changed = false → sh'.game = s.gameRunning)
    (hheld : ∀ id ∈ sh.conn, id ∈ s.clients →
      (lastOf (holdOf id) (s.willHold id) extra = true → sh'.game = true) ∧
        (sh'.tasks = 0 → lastOf (holdOf id) (s.willHold id) extra = sh'.game))
    (hscene : lastOf sceneOf s.willShow extra = sh'.game ∨
      lastOf sceneOf s.willShow extra = false ∧ sh'.game = true ∧ 0 < sh'.timers) :
    Inv { s with shell := some sh', changed := changed, wire := s.wire ++ extra } := by
  refine ⟨h.holds, fun m hm => ?_, h.clients, ?_, ?_, ?_, ?_⟩
  · exact (List.mem_append.mp hm).elim (h.wire m) (hextra m)
  · rintro _ ⟨⟩ id hid
    exact h.conn sh hshell id (hconn ▸ hid)
  · rintro hchanged _ ⟨⟩
    exact hgame hchanged
  · rintro _ ⟨⟩ id hid hclient
    have hnext := hheld id (hconn ▸ hid) hclient
    rwa [willHold, ← lastOf_append] at hnext
  · rintro _ ⟨⟩
    rwa [willShow, ← lastOf_append] at hscene

theorem Inv.tellNothing (h : Inv s) {sh sh' : App} {changed : Bool}
    (hshell : s.shell = some sh) (hconn : sh'.conn = sh.conn)
    (hgame : changed = false → sh'.game = s.gameRunning)
    (hheld : ∀ id ∈ sh.conn, id ∈ s.clients →
      (s.willHold id = true → sh'.game = true) ∧ (sh'.tasks = 0 → s.willHold id = sh'.game))
    (hscene : s.willShow = sh'.game ∨
      s.willShow = false ∧ sh'.game = true ∧ 0 < sh'.timers) :
    Inv { s with shell := some sh', changed := changed } := by
  have htold : Inv { s with shell := some sh', changed := changed, wire := s.wire ++ [] } :=
    h.tell hshell hconn nofun hgame hheld hscene
  rwa [List.append_nil] at htold

theorem send_send (s : System) (a b : Message) : (s.send a).send b =
    { s with wire := s.wire ++ ((s.live.toList.map fun id => (id, a)) ++
      s.live.toList.map fun id => (id, b)) } := by
  rw [← List.append_assoc]
  rfl

theorem live_of_mem {sh : App} {id : Nat} (hshell : s.shell = some sh) (hid : id ∈ sh.conn)
    (hclient : id ∈ s.clients) : s.live = some id := by
  rw [live, hshell, Option.bind_some, hid, Option.filter_some, if_pos (decide_eq_true hclient)]

theorem mem_of_live {id : Nat} (h : s.live = some id) : id ∈ s.clients := by
  have hfilter := (Option.filter_eq_some_iff.mp h).2
  exact of_decide_eq_true hfilter

theorem live_congr (hshell : t.shell.bind App.conn = s.shell.bind App.conn)
    (hclients : t.clients = s.clients) : t.live = s.live := by
  rw [live, hshell, hclients, live]

theorem lastOf_sent_of_none {f : Nat × Message → Option Bool} {now : Bool} {msg : Message}
    (h : ∀ id, f (id, msg) = none) :
    lastOf f now (s.live.toList.map fun id => (id, msg)) = now := by
  refine lastOf_of_none fun m hm => ?_
  obtain ⟨id, -, rfl⟩ := List.mem_map.mp hm
  exact h id

theorem mem_clients_of_sent {msg : Message} :
    ∀ m ∈ s.live.toList.map fun id => (id, msg), m.1 ∈ s.clients := by
  intro m hm
  obtain ⟨id, hid, rfl⟩ := List.mem_map.mp hm
  exact mem_of_live (Option.mem_toList.mp hid)

theorem Inv.connected (h : Inv s) (ht : s.connected = some t) : Inv t := by
  unfold System.connected at ht
  split at ht
  case h_1 game conn tasks timers hshell =>
    obtain rfl := Option.some.inj ht
    have hlive : ({ s with shell := some ⟨game, conn, tasks, timers⟩ } : System).live = s.live :=
      live_congr (hshell ▸ rfl) rfl
    have hscene := h.scene _ hshell
    cases game with
    | true =>
        simp only [if_true, System.send, hlive]
        refine h.tell hshell rfl mem_clients_of_sent
          (fun hchanged => h.game hchanged ⟨true, conn, tasks + 1, timers⟩ hshell) ?_ ?_
        · intro id hid hclient
          rw [live_of_mem hshell hid hclient]
          simp [lastOf, holdOf]
        · rwa [lastOf_sent_of_none fun _ => rfl]
    | false =>
        refine h.tellNothing hshell rfl
          (fun hchanged => h.game hchanged ⟨false, conn, tasks + 1, timers⟩ hshell)
          (fun id hid hclient => ?_) hscene
        have hquiet : s.willHold id = false :=
          Bool.eq_false_iff.mpr fun hheld =>
            absurd ((h.held _ hshell id hid hclient).1 hheld) Bool.false_ne_true
        rw [hquiet]
        exact ⟨nofun, fun _ => rfl⟩
  case h_2 => cases ht

theorem Inv.gameChanged (h : Inv s) (ht : s.gameChanged = some t)
    (hstep : InOrder s .gameChanged) : Inv t := by
  unfold System.gameChanged at ht
  split at ht
  case h_1 sh hshell hchanged =>
    have hscene := h.scene sh hshell
    by_cases hsame : sh.game = s.gameRunning
    · simp only [if_pos hsame, Option.some.injEq] at ht
      subst ht
      refine ⟨h.holds, h.wire, h.clients, h.conn, fun _ sh' hsh' => ?_, h.held, h.scene⟩
      obtain rfl := Option.some.inj (hshell.symm.trans hsh')
      exact hsame
    · cases hrunning : s.gameRunning with
      | true =>
          rw [hrunning] at hsame
          have hgame : sh.game = false := by simpa using hsame
          have hquiet : s.willShow = false := by
            obtain hscene | ⟨-, hon, -⟩ := hscene
            · exact hscene.trans hgame
            · exact nomatch hgame.symm.trans hon
          simp only [hrunning, if_neg hsame, if_true, Option.some.injEq] at ht
          subst ht
          have hlive : ({ s with changed := false, shell := some { sh with
              game := true, timers := sh.timers + 1 } } : System).live = s.live :=
            live_congr (hshell ▸ rfl) rfl
          rw [System.send, hlive]
          refine h.tell hshell rfl mem_clients_of_sent (fun _ => hrunning.symm) ?_ ?_
          · intro id hid hclient
            rw [live_of_mem hshell hid hclient]
            simp [lastOf, holdOf]
          · rw [lastOf_sent_of_none fun _ => rfl]
            exact .inr ⟨hquiet, rfl, Nat.succ_pos _⟩
      | false =>
          rw [hrunning] at hsame
          simp only [hrunning, if_neg hsame, Bool.false_eq_true, if_false, Option.some.injEq] at ht
          subst ht
          have hlive : ({ s with changed := false, shell := some { sh with game := false } } :
              System).live = s.live :=
            live_congr (hshell ▸ rfl) rfl
          have hboth : ∀ m ∈ (s.live.toList.map fun id => (id, Message.inhibitIdle false)) ++
              s.live.toList.map fun id => (id, Message.gameScene false), m.1 ∈ s.clients := by
            intro m hm
            exact (List.mem_append.mp hm).elim (mem_clients_of_sent m) (mem_clients_of_sent m)
          rw [send_send, hlive]
          refine h.tell hshell rfl hboth (fun _ => hrunning.symm)
            (fun id hid hclient => ?_) (.inl ?_)
          · rw [live_of_mem hshell hid hclient]
            simp [lastOf, holdOf]
          · obtain hlive | hquiet := hstep hrunning
            · obtain ⟨id, hid⟩ := Option.ne_none_iff_exists'.mp hlive
              rw [hid]
              rfl
            · cases hid : s.live with
              | none => exact hquiet
              | some id => rfl
  case h_2 => cases ht

theorem Inv.settled (h : Inv s) (ht : s.settled = some t) (hstep : InOrder s .settled) :
    Inv t := by
  unfold System.settled at ht
  split at ht
  case h_1 game conn tasks timers hshell =>
    obtain rfl := Option.some.inj ht
    have hlive : ({ s with shell := some ⟨game, conn, tasks, timers⟩ } : System).live = s.live :=
      live_congr (hshell ▸ rfl) rfl
    have hscene := h.scene _ hshell
    cases game with
    | true =>
        simp only [if_true, System.send, hlive]
        refine h.tell hshell rfl mem_clients_of_sent
          (fun hchanged => h.game hchanged ⟨true, conn, tasks, timers + 1⟩ hshell) ?_ ?_
        · intro id hid hclient
          rw [lastOf_sent_of_none fun _ => rfl]
          exact h.held _ hshell id hid hclient
        · cases hid : s.live with
          | some id => exact .inl rfl
          | none =>
              obtain hlive | hon | hmore := hstep _ hshell rfl
              · exact absurd hid hlive
              · exact .inl hon
              · obtain hon | ⟨hoff, -, -⟩ := hscene
                · exact .inl hon
                · exact .inr ⟨hoff, rfl, Nat.lt_of_succ_lt_succ hmore⟩
    | false =>
        refine h.tellNothing hshell rfl
          (fun hchanged => h.game hchanged ⟨false, conn, tasks, timers + 1⟩ hshell)
          (h.held ⟨false, conn, tasks, timers + 1⟩ hshell) (.inl ?_)
        obtain hoff | ⟨-, hgame, -⟩ := hscene
        · exact hoff
        · cases hgame
  case h_2 => cases ht

theorem request_says (s : System) (m : Nat × Message) :
    (s.request m.1 m.2).scene = (sceneOf m).getD s.scene ∧
      ∀ id, decide (id ∈ (s.request m.1 m.2).holds) =
        (holdOf id m).getD (decide (id ∈ s.holds)) := by
  obtain ⟨client, on | on⟩ := m
  · refine ⟨by cases on <;> rfl, fun id => ?_⟩
    by_cases hid : client = id
    · subst hid
      cases on <;> simp [request, holdOf]
    · cases on <;> simp [request, holdOf, hid, Ne.symm hid]
  · exact ⟨rfl, fun _ => rfl⟩

theorem request_eq (s : System) (id : Nat) (msg : Message) :
    s.request id msg =
      { s with holds := (s.request id msg).holds, scene := (s.request id msg).scene } ∧
      (s.request id msg).holds ⊆ insert id s.holds := by
  cases msg with
  | inhibitIdle on =>
      cases on with
      | true => exact ⟨rfl, Finset.Subset.refl _⟩
      | false => exact ⟨rfl, (Finset.erase_subset _ _).trans (Finset.subset_insert _ _)⟩
  | gameScene on => exact ⟨rfl, Finset.subset_insert _ _⟩

/-- The compositor handles a message of a client: none of it was sent before, and if it
tells of the scene none that does was. -/
theorem Inv.handle {id : Nat} (h : Inv s) (ht : s.handle id = some t)
    (hstep : InOrder s (.handle id)) : Inv t := by
  obtain ⟨m, hm, rfl⟩ := Option.map_eq_some_iff.mp ht
  have hid : m.1 = id := by
    have hfirst := List.find?_some hm
    exact of_decide_eq_true hfirst
  subst hid
  have hclient := h.wire m (List.mem_of_find?_eq_some hm)
  let s₁ : System := { s with wire := s.wire.eraseP fun x => decide (x.1 = m.1) }
  obtain ⟨heq, hholds⟩ := request_eq s₁ m.1 m.2
  obtain ⟨hscene, hheld⟩ := request_says s₁ m
  have hshow : lastOf sceneOf (s₁.request m.1 m.2).scene s₁.wire = s.willShow := by
    rw [hscene]
    refine lastOf_eraseP hm fun front back hwire _ hfront => ?_
    cases hsaid : sceneOf m with
    | none => exact .inl rfl
    | some on =>
        -- it is the first in order, so nothing before it tells of the scene
        have hfirst := hstep m hm (by rw [hsaid]; rfl)
        rw [hwire, List.find?_append] at hfirst
        cases hfind : front.find? fun m => (sceneOf m).isSome with
        | none =>
            have hnone := List.find?_eq_none.mp hfind
            exact .inr fun x hx => by simpa using hnone x hx
        | some y =>
            rw [hfind, Option.some_or] at hfirst
            obtain rfl := Option.some.inj hfirst
            have hearlier := hfront y (List.mem_of_find?_eq_some hfind)
            exact absurd rfl (of_decide_eq_false hearlier)
  have hhold : ∀ i, lastOf (holdOf i) (decide (i ∈ (s₁.request m.1 m.2).holds)) s₁.wire =
      s.willHold i := by
    intro i
    rw [hheld i]
    refine lastOf_eraseP hm fun front back _ _ hfront => ?_
    by_cases hi : m.1 = i
    · exact .inr fun x hx => holdOf_of_ne (hi ▸ of_decide_eq_false (hfront x hx))
    · exact .inl (holdOf_of_ne hi)
  rw [heq]
  refine ⟨hholds.trans (Finset.insert_subset hclient h.holds), ?_, h.clients, h.conn, h.game,
    ?_, ?_⟩
  · exact fun x hx => h.wire x (List.mem_of_mem_eraseP hx)
  · intro sh hsh i hi hin
    show (lastOf _ _ _ = true → _) ∧ (_ → lastOf _ _ _ = _)
    rw [hhold i]
    exact h.held sh hsh i hi hin
  · intro sh hsh
    show lastOf _ _ _ = _ ∨ lastOf _ _ _ = _ ∧ _
    rw [hshow]
    exact h.scene sh hsh

theorem Inv.removeClient {id : Nat} {holds : Finset Nat} (h : Inv s)
    (hholds : holds ⊆ s.clients.erase id) (hsame : ∀ j ≠ id, j ∈ holds ↔ j ∈ s.holds)
    (hscene : ∀ m ∈ s.wire, m.1 = id → sceneOf m = none) :
    Inv { s.removeClient id with holds := holds } := by
  have hshow : lastOf sceneOf s.scene (s.removeClient id).wire = s.willShow :=
    lastOf_filter fun m hm hlost => hscene m hm (by simpa using hlost)
  refine ⟨hholds, fun m hm => ?_, fun j hj => h.clients j (Finset.mem_of_mem_erase hj), h.conn,
    h.game, fun sh hsh j hj hin => ?_, fun sh hsh => ?_⟩
  · obtain ⟨hm, hne⟩ := List.mem_filter.mp hm
    exact Finset.mem_erase.mpr ⟨of_decide_eq_true hne, h.wire m hm⟩
  · obtain ⟨hne, hin⟩ := Finset.mem_erase.mp hin
    have hhold : lastOf (holdOf j) (decide (j ∈ holds)) (s.removeClient id).wire =
        s.willHold j := by
      rw [decide_eq_decide.mpr (hsame j hne)]
      refine lastOf_filter fun m _ hlost => holdOf_of_ne fun heq => ?_
      have hid : m.1 = id := by simpa using hlost
      exact hne (heq.symm.trans hid)
    have hheld := h.held sh hsh j hj hin
    rw [← hhold] at hheld
    exact hheld
  · have hkept := h.scene sh hsh
    rw [← hshow] at hkept
    exact hkept

theorem Inv.dropClient {id : Nat} (h : Inv s) (ht : s.dropClient id = some t)
    (hstep : InOrder s (.dropClient id)) : Inv t := by
  obtain ⟨-, ht⟩ := Option.ite_none_right_eq_some.mp ht
  obtain rfl := Option.some.inj ht
  refine h.removeClient (Finset.erase_subset_erase id h.holds) (fun j hj => ?_) hstep
  rw [Finset.mem_erase]
  exact and_iff_right hj

theorem Inv.broadcast {id : Nat} (h : Inv s) (ht : s.broadcast id = some t)
    (hstep : InOrder s (.broadcast id)) : Inv t := by
  obtain ⟨-, ht⟩ := Option.ite_none_right_eq_some.mp ht
  obtain rfl := Option.some.inj ht
  obtain ⟨hfree, hscene⟩ := hstep
  show Inv { s.removeClient id with holds := s.holds }
  refine h.removeClient (fun j hj => ?_) (fun j _ => Iff.rfl) hscene
  exact Finset.mem_erase.mpr ⟨fun heq => hfree (heq ▸ hj), h.holds hj⟩

theorem Inv.step {e : Step} (h : Inv s) (ht : s.step e = some t) (hstep : InOrder s e) :
    Inv t := by
  cases e with
  | count n => exact Option.some.inj ht ▸ h.count n
  | starts => exact h.starts ht hstep
  | exits => exact h.exits ht
  | connects => exact h.connects ht
  | disconnects => exact h.disconnects ht
  | connected => exact h.connected ht
  | gameChanged => exact h.gameChanged ht hstep
  | settled => exact h.settled ht hstep
  | handle id => exact h.handle ht hstep
  | dropClient id => exact h.dropClient ht hstep
  | broadcast id => exact h.broadcast ht hstep

/-- In a run that is in order the compositor follows the counter whenever all is steady. -/
theorem follows_along (counter : Nat) (steps : List Step)
    (h : Along step (fun s e _ => InOrder s e) { counter := counter } steps) :
    Along step (fun _ _ t => t.Follows) { counter := counter } steps :=
  h.imp Inv (fun _ _ _ hs ht hstep => hs.step ht hstep)
    (fun _ _ _ hs ht hstep => (hs.step ht hstep).follows) (Inv.start counter)

end Invariant

/-- A game is played, and the shell restarted while none is. -/
theorem follows_along_played :
    Along step (fun _ _ t => t.Follows) { counter := 0 }
      [.starts, .connects, .connected, .count 1, .gameChanged, .handle 0, .settled, .handle 0,
        .count 0, .gameChanged, .handle 0, .handle 0, .exits, .dropClient 0, .starts, .connects,
        .connected] := by
  refine follows_along 0 _ ?_
  refine .cons rfl rfl (.cons rfl trivial (.cons rfl trivial (.cons rfl trivial
    (.cons rfl nofun (.cons rfl ?_ (.cons rfl ?_ (.cons rfl ?_ (.cons rfl trivial
      (.cons rfl ?_ (.cons rfl ?_ (.cons rfl ?_ (.cons rfl trivial (.cons rfl ?_
        (.cons rfl rfl (.cons rfl trivial (.cons rfl trivial trivial))))))))))))))))
  · rintro _ ⟨⟩ hsaid
    cases hsaid
  · exact fun _ _ _ => .inl (Option.some_ne_none 0)
  · rintro _ ⟨⟩ -
    rfl
  · exact fun _ => .inl (Option.some_ne_none 0)
  · rintro _ ⟨⟩ hsaid
    cases hsaid
  · rintro _ ⟨⟩ -
    rfl
  · exact fun _ hm => nomatch hm

/-- The shell exits during a game, and starts after it. -/
theorem restart_leaves_scene :
    ¬ ∀ (counter : Nat) (steps : List Step),
      Along step (fun _ _ t => t.Follows) { counter := counter } steps := by
  intro hall
  have hrun := hall 0 [.starts, .connects, .connected, .count 1, .gameChanged, .handle 0, .settled,
    .handle 0, .exits, .dropClient 0, .count 0, .starts, .connects, .connected]
  have hend := hrun.exec (R := Follows) (fun _ _ _ h => h) (Inv.start 0).follows rfl
  have hscene := (hend _ 1 ⟨rfl, rfl, rfl, rfl, rfl, rfl, rfl⟩).2
  exact absurd (hscene.mp rfl) (by decide)

end System

end MindOS.Shell.GameMode
