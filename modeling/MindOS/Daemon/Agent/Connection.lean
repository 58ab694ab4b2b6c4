import Mathlib.Logic.Function.Basic
import MindOS.Daemon.Agent.Conversation
import MindOS.Transition

/-!
# Connections

## The connections of the daemon

Every client has a connection: a queue of requests and one handler that takes them
in order. While a turn runs the same queue is read by the turn, which looks for a
`Cancel` while the model streams, for the answer to a confirmation, or for the
result of a client's tool, and drops everything else. A step is what one connection
does between two points where another may come in. The switch and the sessions are
shared by all connections.

The log is not in the source. It records what the handlers took and did, in order,
each entry with the number of its connection.
-/

namespace MindOS.Agent

open Text Tools

/-- A tool that the client offers. -/
structure ClientTool where
  name : Text
  description : Text
  parameters : Json

/-- A request of a client; those that touch neither a turn nor the switch are `other`. -/
inductive Request where
  | hello (tools : List ClientTool)
  | chat (session : Option Text) (text : Text) (autopilot : Bool)
  | confirm (id : Text) (approve : Bool)
  | toolResult (id : Text) (ok : Bool) (result : Json)
  | cancel
  | setPermissions (systemChanges : Option Bool)
  | other

/-- A turn, with the messages of the session it has taken out of the store. -/
structure Turn where
  session : Text
  messages : List Message
  autopilot : Bool
  round : Nat := 0

/-- Where a handler stands. The calls are those that come after the current one. -/
inductive Phase where
  | waiting
  | opening (session : Option Text) (text : Text) (autopilot : Bool)
  | asking (turn : Turn)
  | streaming (turn : Turn) (cancelled : Bool)
  | running (turn : Turn) (calls : List ToolCall)
  /-- A client's tool was asked for. -/
  | answering (turn : Turn) (call : ToolCall) (calls : List ToolCall)
  /-- A call was announced; the switch is not read yet. -/
  | gating (turn : Turn) (call : ToolCall) (args : Json) (policy : Policy) (needs : Bool)
      (calls : List ToolCall)
  | confirming (turn : Turn) (call : ToolCall) (args : Json) (calls : List ToolCall)
  /-- Inside `execute`. -/
  | executing (turn : Turn) (call : ToolCall) (calls : List ToolCall)
  | ending (turn : Turn)
  | expiring
  | closed

structure Conn where
  queue : List Request := []
  /-- The client is gone, so nothing more comes into the queue. -/
  hungUp : Bool := false
  clientTools : List ClientTool := []
  current : Option Text := none
  phase : Phase := .waiting

/-- The turn in progress, and the calls of its last reply that have no result yet. -/
def Phase.pending : Phase → Option (Turn × List ToolCall)
  | .asking turn | .streaming turn _ | .ending turn => some (turn, [])
  | .running turn calls => some (turn, calls)
  | .answering turn call calls | .gating turn call _ _ _ calls | .confirming turn call _ calls
  | .executing turn call calls => some (turn, call :: calls)
  | .waiting | .opening .. | .expiring | .closed => none

/-- The id of the call whose confirmation a handler will wait for, or waits for. -/
def Phase.awaited : Phase → Option Text
  | .gating _ call .. | .confirming _ call .. => some call.id
  | _ => none

/-- What the connections share. -/
structure Shared where
  systemChanges : Bool
  sessions : Text → Option (List Message) := fun _ => none

/-- What a handler takes and does. -/
inductive Event where
  | took (r : Request)
  /-- The queue has ended. -/
  | ended
  | switched (on : Bool)
  | announced (autopilot : Bool) (call : ToolCall) (args : Json) (policy : Policy) (needs : Bool)
  /-- `execute` is reached. -/
  | executed (call : ToolCall) (args : Json)

/-- What a connection does next, with the answers it gets. -/
inductive Action where
  | arrive (r : Request)
  | hangUp
  | take
  | startTurn (fresh time body : Text)
  | notReady
  | ask
  | reply (text : Text) (calls : List ToolCall)
  | fail
  | call
  | gate
  | timeout
  | finish (result : Except Text Json)
  | store
  | expire (keep : Text → Bool)

/-- What stays fixed: the configuration, the prompt, `serde_json`'s two directions and
the length of the tool schemas sent with a request. -/
structure Setting where
  cfg : Config
  systemPrompt : Text
  parse : Text → Option Json
  render : Json → Text
  toolsChars : List ClientTool → Nat

/-- The arguments of a call. -/
def callArgs (setting : Setting) (call : ToolCall) : Json :=
  (setting.parse call.arguments).getD (.obj [("_raw".toList, .str call.arguments)])

/-- What a tool message says. -/
def toolContent (setting : Setting) : Except Text Json → Text
  | .ok v => setting.render v
  | .error e => setting.render (.obj [("error".toList, .str e), ("ok".toList, .bool false)])

/-- The errors of `run_tool`. -/
def noClientAnswer : Text := "the client did not answer the tool request"

def forbiddenAction : Text := "this action is forbidden by MindOS policy"

def changesTurnedOff : Text :=
  "changing the system is turned off for the Mind ".toList ++
    "(Settings › Mind › Let Mind change this system). ".toList ++
    "Explain what you would have done and let the user run it or turn the setting on.".toList

def declinedAction : Text := "the user declined this action"

/-- The result of a call becomes a message. -/
def Turn.answer (setting : Setting) (turn : Turn) (call : ToolCall)
    (result : Except Text Json) : Turn :=
  { turn with
    messages := turn.messages ++ [.ofTool call.id call.name (toolContent setting result)] }

/-- What `wait_confirm` makes of a request; `none` means that it waits on. -/
def confirmAnswer (id : Text) : Request → Option Bool
  | .confirm cid approve => if cid = id then some approve else none
  | .cancel => some false
  | _ => none

/-- What `wait_tool_result` makes of a request. -/
def toolAnswer (id : Text) : Request → Option (Except Text Json)
  | .toolResult rid ok result =>
      if rid = id then
        some (.ok (.obj [("ok".toList, .bool ok), ("result".toList, result)]))
      else none
  | .cancel => some (.error noClientAnswer)
  | _ => none

namespace Conn

def goto (k : Conn) (phase : Phase) : Conn := { k with phase := phase }

/-- The next request of the queue, or its end; `none` while the handler waits. -/
def recv (k : Conn) : Option (Option Request × Conn) :=
  match k.queue with
  | r :: queue => some (some r, { k with queue := queue })
  | [] => if k.hungUp then some (none, k) else none

/-- The main loop handles a request. -/
def serve (sh : Shared) (k : Conn) : Request → Shared × Conn × List Event
  | .hello tools => (sh, { k with clientTools := tools }, [])
  | .chat session text autopilot => (sh, k.goto (.opening session text autopilot), [])
  | .setPermissions (some on) => ({ sh with systemChanges := on }, k, [.switched on])
  | _ => (sh, k, [])

/-- The session is taken out of the store, gets its status and the question. -/
def startTurn (setting : Setting) (sh : Shared) (k : Conn) (session : Option Text)
    (text : Text) (autopilot : Bool) (fresh time body : Text) : Shared × Conn :=
  let id := (session.or k.current).getD fresh
  let messages := (sh.sessions id).getD [.ofSystem setting.systemPrompt]
  let messages := placeStatus messages setting.systemPrompt time body ++ [.ofUser text]
  ({ sh with sessions := Function.update sh.sessions id none },
    { k with current := some id, phase := .asking ⟨id, messages, autopilot, 0⟩ })

/-- `run_tool` up to the point where it waits for something. -/
def startCall (setting : Setting) (k : Conn) (turn : Turn) (call : ToolCall)
    (calls : List ToolCall) : Conn × List Event :=
  let args := callArgs setting call
  if k.clientTools.any fun t => t.name == call.name then (k.goto (.answering turn call calls), [])
  else
    match find (definitions setting.cfg) call.name with
    | none =>
        let e := "unknown tool ".toList ++ call.name
        (k.goto (.running (turn.answer setting call (.error e)) calls), [])
    | some d =>
        let policy := policyFor d args setting.cfg
        let needs := policy.needsConfirmation d.category turn.autopilot setting.cfg.policy
        let announced := .announced turn.autopilot call args policy (needs && policy != .forbidden)
        if policy = .forbidden then
          (k.goto (.running (turn.answer setting call (.error forbiddenAction)) calls),
            [announced])
        else (k.goto (.gating turn call args policy needs calls), [announced])

/-- What a connection in a given phase does on an action; `none` where it does not. -/
def act (setting : Setting) (sh : Shared) (k : Conn) :
    Phase → Action → Option (Shared × Conn × List Event)
  | _, .arrive r => if k.hungUp then none else some (sh, { k with queue := k.queue ++ [r] }, [])
  | _, .hangUp => some (sh, { k with hungUp := true }, [])
  | .waiting, .take => k.recv.map fun
      | (some r, k) =>
          let (sh, k, events) := serve sh k r
          (sh, k, .took r :: events)
      | (none, k) => (sh, k.goto .closed, [.ended])
  | .opening session text autopilot, .startTurn fresh time body =>
      let (sh, k) := k.startTurn setting sh session text autopilot fresh time body
      some (sh, k, [])
  | .opening _ _ _, .notReady => some (sh, k.goto .waiting, [])
  | .asking turn, .ask =>
      if turn.round = setting.cfg.daemon.maxToolRounds then some (sh, k.goto (.ending turn), [])
      else
        let messages := fitContext setting.render setting.cfg.model
          (setting.toolsChars k.clientTools) turn.messages
        some (sh, k.goto (.streaming { turn with messages := messages } false), [])
  | .streaming turn cancelled, .take =>
      match k.queue with
      | [] => none
      | r :: queue =>
          let cancelled := cancelled || match r with | .cancel => true | _ => false
          some (sh, { k with queue := queue, phase := .streaming turn cancelled }, [.took r])
  | .streaming turn cancelled, .reply text calls =>
      if cancelled then some (sh, k.goto (.ending turn), [])
      else
        let turn := { turn with messages := turn.messages ++ [.ofAssistant text calls] }
        some (sh, k.goto (if calls.isEmpty then .ending turn else .running turn calls), [])
  | .streaming turn _, .fail => some (sh, k.goto (.ending turn), [])
  | .running turn [], .ask => some (sh, k.goto (.asking { turn with round := turn.round + 1 }), [])
  | .running turn (call :: calls), .call => some (sh, k.startCall setting turn call calls)
  | .answering turn call calls, .take => k.recv.map fun
      | (some r, k) =>
          match toolAnswer call.id r with
          | none => (sh, k, [.took r])
          | some result =>
              (sh, k.goto (.running (turn.answer setting call result) calls), [.took r])
      | (none, k) =>
          (sh, k.goto (.running (turn.answer setting call (.error noClientAnswer)) calls), [.ended])
  | .answering turn call calls, .timeout =>
      if k.queue.isEmpty && !k.hungUp then
        some (sh, k.goto (.running (turn.answer setting call (.error noClientAnswer)) calls), [])
      else none
  | .gating turn call args policy needs calls, .gate =>
      if policy = .change ∧ sh.systemChanges = false then
        some (sh, k.goto (.running (turn.answer setting call (.error changesTurnedOff)) calls), [])
      else if needs then some (sh, k.goto (.confirming turn call args calls), [])
      else some (sh, k.goto (.executing turn call calls), [.executed call args])
  | .confirming turn call args calls, .take => k.recv.map fun
      | (some r, k) =>
          match confirmAnswer call.id r with
          | none => (sh, k, [.took r])
          | some true => (sh, k.goto (.executing turn call calls), [.took r, .executed call args])
          | some false =>
              (sh, k.goto (.running (turn.answer setting call (.error declinedAction)) calls),
                [.took r])
      | (none, k) =>
          (sh, k.goto (.running (turn.answer setting call (.error declinedAction)) calls), [.ended])
  | .confirming turn call _ calls, .timeout =>
      if k.queue.isEmpty && !k.hungUp then
        some (sh, k.goto (.running (turn.answer setting call (.error declinedAction)) calls), [])
      else none
  | .executing turn call calls, .finish result =>
      some (sh, k.goto (.running (turn.answer setting call result) calls), [])
  | .ending turn, .store =>
      let sessions := Function.update sh.sessions turn.session (some (trimSession 60 turn.messages))
      some ({ sh with sessions := sessions }, k.goto .expiring, [])
  | .expiring, .expire keep =>
      let sessions := fun id => if keep id then sh.sessions id else none
      some ({ sh with sessions := sessions }, k.goto .waiting, [])
  | _, _ => none

end Conn

/-- The daemon's side of all connections. -/
structure Connections where
  shared : Shared
  conns : Nat → Conn := fun _ => {}
  log : List (Nat × Event) := []

/-- A step of the connection with the given number. -/
structure Label where
  conn : Nat
  action : Action

namespace Connections

def start (systemChanges : Bool) : Connections := { shared := { systemChanges } }

def step (setting : Setting) (δ : Connections) (l : Label) : Option Connections :=
  let k := δ.conns l.conn
  (k.act setting δ.shared k.phase l.action).map fun (sh, k, events) =>
    { shared := sh
      conns := Function.update δ.conns l.conn k
      log := δ.log ++ events.map fun e => (l.conn, e) }

end Connections

/-!
## The moves of a connection

What a step of a connection can do, by kind of move: what each kind needs and what
it leaves. Both invariants of the connections are read off this list.
-/

/-- What the main loop and the waits of a turn log: nothing is announced or executed. -/
def Event.quiet : Event → Prop
  | .announced .. | .executed .. => False
  | _ => True

/-- The switch after an event. -/
def Event.switch (on : Bool) : Event → Bool
  | .switched on => on
  | _ => on

/-- The switch after some events. -/
def switchAfter (on : Bool) (events : List Event) : Bool := events.foldl Event.switch on

/-- The moves of a connection, with what each of them needs and leaves. The calls that
end without an execution, for whatever reason, are one kind of move. -/
inductive Moves (setting : Setting) (sh : Shared) (k : Conn) : Shared → Conn → List Event → Prop
  /-- The queue changes behind the handler's back. -/
  | queue {queue hungUp} : Moves setting sh k sh { k with queue := queue, hungUp := hungUp } []
  /-- A wait drops a request. -/
  | drop {r queue} (deaf : ∀ id, k.phase.awaited = some id → confirmAnswer id r = none) :
      Moves setting sh k sh { k with queue := queue } [.took r]
  /-- Outside of a turn. -/
  | idle {sh' : Shared} {k' : Conn} {events : List Event} (before : k.phase.pending = none)
      (after : k'.phase.pending = none) (quiet : ∀ e ∈ events, e.quiet)
      (switch : sh'.systemChanges = switchAfter sh.systemChanges events)
      (sessions : ∀ id ms, sh'.sessions id = some ms → sh.sessions id = some ms) :
      Moves setting sh k sh' k' events
  | startTurn {session text autopilot fresh time body}
      (place : k.phase = .opening session text autopilot) :
      Moves setting sh k (k.startTurn setting sh session text autopilot fresh time body).1
        (k.startTurn setting sh session text autopilot fresh time body).2 []
  | ask {turn} (place : k.phase = .asking turn) :
      Moves setting sh k sh (k.goto (.streaming { turn with
        messages := fitContext setting.render setting.cfg.model (setting.toolsChars k.clientTools)
          turn.messages } false)) []
  | drain {turn cancelled cancelled' r queue} (place : k.phase = .streaming turn cancelled) :
      Moves setting sh k sh { k with queue := queue, phase := .streaming turn cancelled' } [.took r]
  | reply {turn cancelled text} {calls : List ToolCall}
      (place : k.phase = .streaming turn cancelled) :
      Moves setting sh k sh (k.goto (if calls.isEmpty
        then .ending { turn with messages := turn.messages ++ [.ofAssistant text calls] }
        else .running { turn with messages := turn.messages ++ [.ofAssistant text calls] } calls))
        []
  | endTurn {turn} (place : k.phase.pending = some (turn, [])) :
      Moves setting sh k sh (k.goto (.ending turn)) []
  | nextRound {turn} (place : k.phase.pending = some (turn, [])) :
      Moves setting sh k sh (k.goto (.asking { turn with round := turn.round + 1 })) []
  | offer {turn call calls} (place : k.phase = .running turn (call :: calls)) :
      Moves setting sh k sh (k.goto (.answering turn call calls)) []
  | announce {turn call calls d policy needs} (place : k.phase = .running turn (call :: calls))
      (found : find (definitions setting.cfg) call.name = some d)
      (verdict : policy = policyFor d (callArgs setting call) setting.cfg)
      (asks : needs = policy.needsConfirmation d.category turn.autopilot setting.cfg.policy)
      (allowed : policy ≠ .forbidden) :
      Moves setting sh k sh (k.goto (.gating turn call (callArgs setting call) policy needs calls))
        [.announced turn.autopilot call (callArgs setting call) policy needs]
  /-- A call gets its result, after an execution or without one. -/
  | answer {turn call calls result queue} {events : List Event}
      (place : k.phase.pending = some (turn, call :: calls))
      (unexecuted : ∀ call args, .executed call args ∉ events)
      (switch : switchAfter sh.systemChanges events = sh.systemChanges) :
      Moves setting sh k sh
        { k with queue := queue, phase := .running (turn.answer setting call result) calls } events
  | askConfirm {turn call args policy calls}
      (place : k.phase = .gating turn call args policy true calls)
      (on : policy = .change → sh.systemChanges = true) :
      Moves setting sh k sh (k.goto (.confirming turn call args calls)) []
  | execute {turn call args policy calls}
      (place : k.phase = .gating turn call args policy false calls)
      (on : policy = .change → sh.systemChanges = true) :
      Moves setting sh k sh (k.goto (.executing turn call calls)) [.executed call args]
  | approve {turn call args calls r queue} (place : k.phase = .confirming turn call args calls)
      (approved : confirmAnswer call.id r = some true) :
      Moves setting sh k sh { k with queue := queue, phase := .executing turn call calls }
        [.took r, .executed call args]
  | store {turn} (place : k.phase = .ending turn) :
      Moves setting sh k
        { sh with
          sessions := Function.update sh.sessions turn.session
            (some (trimSession 60 turn.messages)) }
        (k.goto .expiring) []

namespace Moves

variable {setting : Setting} {sh sh' : Shared} {k k' : Conn} {events : List Event}

theorem recv_cases {r : Option Request} (h : k.recv = some (r, k')) :
    (∃ q queue, r = some q ∧ k' = { k with queue := queue }) ∨ r = none ∧ k' = k := by
  unfold Conn.recv at h
  split at h
  case h_1 q queue _ =>
    obtain ⟨rfl, rfl⟩ := Prod.mk.inj (Option.some.inj h)
    exact .inl ⟨q, queue, rfl, rfl⟩
  case h_2 =>
    split at h
    case isTrue =>
      obtain ⟨rfl, rfl⟩ := Prod.mk.inj (Option.some.inj h)
      exact .inr ⟨rfl, rfl⟩
    case isFalse => cases h

theorem serve (place : k.phase = .waiting) (queue : List Request) (r : Request) :
    Moves setting sh k (Conn.serve sh { k with queue := queue } r).1
      (Conn.serve sh { k with queue := queue } r).2.1
      (.took r :: (Conn.serve sh { k with queue := queue } r).2.2) := by
  have hbefore : k.phase.pending = none := by rw [place]; rfl
  have hquiet : ∀ e ∈ [Event.took r], e.quiet := by simp [Event.quiet]
  cases r with
  | hello tools => exact .idle hbefore hbefore hquiet rfl fun _ _ h => h
  | chat session text autopilot => exact .idle hbefore rfl hquiet rfl fun _ _ h => h
  | setPermissions on =>
      cases on with
      | none => exact .idle hbefore hbefore hquiet rfl fun _ _ h => h
      | some on =>
          exact .idle hbefore hbefore (by simp [Conn.serve, Event.quiet]) rfl fun _ _ h => h
  | confirm id approve => exact .idle hbefore hbefore hquiet rfl fun _ _ h => h
  | toolResult id ok result => exact .idle hbefore hbefore hquiet rfl fun _ _ h => h
  | cancel => exact .idle hbefore hbefore hquiet rfl fun _ _ h => h
  | other => exact .idle hbefore hbefore hquiet rfl fun _ _ h => h

theorem startCall {turn : Turn} {call : ToolCall} {calls : List ToolCall}
    (place : k.phase = .running turn (call :: calls)) :
    Moves setting sh k sh (k.startCall setting turn call calls).1
      (k.startCall setting turn call calls).2 := by
  have hpending : k.phase.pending = some (turn, call :: calls) := by rw [place]; rfl
  unfold Conn.startCall
  dsimp only
  split
  case isTrue => exact .offer place
  case isFalse =>
    split
    case h_1 => exact .answer hpending (by simp) rfl
    case h_2 d found =>
      split
      case isTrue => exact .answer hpending (by simp) rfl
      case isFalse allowed =>
        have hne : (policyFor d (callArgs setting call) setting.cfg != .forbidden) = true := by
          simpa using allowed
        rw [hne, Bool.and_true]
        exact .announce place found rfl rfl allowed

theorem of_take (h : k.act setting sh k.phase .take = some (sh', k', events)) :
    Moves setting sh k sh' k' events := by
  generalize place : k.phase = phase at h
  cases phase <;> simp only [Conn.act, reduceCtorEq] at h
  case waiting =>
    obtain ⟨⟨r, k₁⟩, hrecv, hk⟩ := Option.map_eq_some_iff.mp h
    obtain ⟨q, queue, rfl, rfl⟩ | ⟨rfl, rfl⟩ := recv_cases hrecv
    · cases hk
      exact .serve place queue q
    · cases hk
      exact .idle (by rw [place]; rfl) rfl (by simp [Event.quiet]) rfl fun _ _ h => h
  case streaming turn cancelled =>
    split at h
    case h_1 => cases h
    case h_2 =>
      cases h
      exact .drain place
  case answering turn call calls =>
    have hpending : k.phase.pending = some (turn, call :: calls) := by rw [place]; rfl
    obtain ⟨⟨r, k₁⟩, hrecv, hk⟩ := Option.map_eq_some_iff.mp h
    obtain ⟨q, queue, rfl, rfl⟩ | ⟨rfl, rfl⟩ := recv_cases hrecv
    · dsimp only at hk
      split at hk
      case h_1 =>
        cases hk
        exact .drop (by simp [place, Phase.awaited])
      case h_2 =>
        cases hk
        exact .answer hpending (by simp) rfl
    · cases hk
      exact .answer hpending (by simp) rfl
  case confirming turn call args calls =>
    have hpending : k.phase.pending = some (turn, call :: calls) := by rw [place]; rfl
    obtain ⟨⟨r, k₁⟩, hrecv, hk⟩ := Option.map_eq_some_iff.mp h
    obtain ⟨q, queue, rfl, rfl⟩ | ⟨rfl, rfl⟩ := recv_cases hrecv
    · dsimp only at hk
      split at hk
      case h_1 hnone =>
        cases hk
        refine .drop fun id hid => ?_
        rw [place] at hid
        rwa [← Option.some.inj hid]
      case h_2 happroved =>
        cases hk
        exact .approve place happroved
      case h_3 =>
        cases hk
        exact .answer hpending (by simp) rfl
    · cases hk
      exact .answer hpending (by simp) rfl

theorem of_act {a : Action} (h : k.act setting sh k.phase a = some (sh', k', events)) :
    Moves setting sh k sh' k' events := by
  generalize place : k.phase = phase at h
  cases a with
  | arrive r =>
      simp only [Conn.act] at h
      split at h
      case isTrue => cases h
      case isFalse =>
        cases h
        exact .queue
  | hangUp =>
      cases h
      exact .queue
  | take => exact of_take (place ▸ h)
  | startTurn fresh time body =>
      cases phase <;> simp only [Conn.act, reduceCtorEq] at h
      case opening session text autopilot =>
        cases h
        exact .startTurn place
  | notReady =>
      cases phase <;> simp only [Conn.act, reduceCtorEq] at h
      case opening =>
        cases h
        exact .idle (by rw [place]; rfl) rfl (by simp) rfl fun _ _ h => h
  | ask =>
      cases phase <;> simp only [Conn.act, reduceCtorEq] at h
      case asking turn =>
        split at h
        case isTrue =>
          cases h
          exact .endTurn (by rw [place]; rfl)
        case isFalse =>
          cases h
          exact .ask place
      case running turn calls =>
        cases calls with
        | nil =>
            cases h
            exact .nextRound (by rw [place]; rfl)
        | cons call calls => cases h
  | reply text calls =>
      cases phase <;> simp only [Conn.act, reduceCtorEq] at h
      case streaming turn cancelled =>
        split at h
        case isTrue =>
          cases h
          exact .endTurn (by rw [place]; rfl)
        case isFalse =>
          cases h
          exact .reply place
  | fail =>
      cases phase <;> simp only [Conn.act, reduceCtorEq] at h
      case streaming turn cancelled =>
        cases h
        exact .endTurn (by rw [place]; rfl)
  | call =>
      cases phase <;> simp only [Conn.act, reduceCtorEq] at h
      case running turn calls =>
        cases calls with
        | nil => cases h
        | cons call calls =>
            obtain ⟨rfl, hcall⟩ := Prod.mk.inj (Option.some.inj h)
            have hmove : Moves setting sh k sh (k.startCall setting turn call calls).1
              (k.startCall setting turn call calls).2 := .startCall place
            rwa [hcall] at hmove
  | gate =>
      cases phase <;> simp only [Conn.act, reduceCtorEq] at h
      case gating turn call args policy needs calls =>
        have hpending : k.phase.pending = some (turn, call :: calls) := by rw [place]; rfl
        split at h
        case isTrue =>
          cases h
          exact .answer hpending (by simp) rfl
        case isFalse hon =>
          have on : policy = .change → sh.systemChanges = true := by simpa using hon
          cases needs with
          | true =>
              cases h
              exact .askConfirm place on
          | false =>
              cases h
              exact .execute place on
  | timeout =>
      cases phase <;> simp only [Conn.act, reduceCtorEq] at h
      all_goals
        split at h
        case isTrue =>
          cases h
          exact .answer (by rw [place]; rfl) (by simp) rfl
        case isFalse => cases h
  | finish result =>
      cases phase <;> simp only [Conn.act, reduceCtorEq] at h
      case executing turn call calls =>
        cases h
        exact .answer (by rw [place]; rfl) (by simp) rfl
  | store =>
      cases phase <;> simp only [Conn.act, reduceCtorEq] at h
      case ending turn =>
        cases h
        exact .store place
  | expire keep =>
      cases phase <;> simp only [Conn.act, reduceCtorEq] at h
      case expiring =>
        cases h
        refine .idle (by rw [place]; rfl) rfl (by simp) rfl fun id ms h => ?_
        dsimp only at h
        split at h
        case isTrue => exact h
        case isFalse => cases h

end Moves

end MindOS.Agent
