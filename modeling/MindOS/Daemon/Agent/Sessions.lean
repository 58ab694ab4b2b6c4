import MindOS.Daemon.Agent.Editing
import MindOS.Daemon.Agent.Connection

/-!
# Conversations over whole runs

However many clients talk to the daemon and in whatever order, every stored session
and every turn in progress holds a well-formed conversation; only the calls that the
turn is working on have no result yet.
-/

namespace MindOS.Agent

open Text Transition

/-- Every message list of the daemon is well formed. -/
structure Sound (δ : Connections) : Prop where
  stored : ∀ id ms, δ.shared.sessions id = some ms → WellFormed ms []
  running : ∀ c turn pending, (δ.conns c).phase.pending = some (turn, pending) →
    WellFormed turn.messages pending

/-- Every stored session is a conversation. -/
def Shared.Sound (sh : Shared) : Prop := ∀ id ms, sh.sessions id = some ms → Conversation ms []

/-- The turn in progress, if any, has a conversation. -/
def Conn.Sound (k : Conn) : Prop :=
  ∀ turn pending, k.phase.pending = some (turn, pending) → Conversation turn.messages pending

namespace Conn.Sound

variable {k : Conn} {phase : Phase} {turn : Turn} {pending : List ToolCall}

theorem of_pending (hphase : k.phase.pending = some (turn, pending))
    (h : Conversation turn.messages pending) : k.Sound := by
  intro turn' pending' h'
  obtain ⟨rfl, rfl⟩ := Prod.mk.inj (Option.some.inj (hphase.symm.trans h'))
  exact h

theorem of_none (hphase : k.phase.pending = none) : k.Sound := by
  intro turn pending h
  rw [hphase] at h
  cases h

end Conn.Sound

theorem Shared.Sound.update {sh : Shared} (h : sh.Sound) {id : Text}
    {ms : Option (List Message)} (hms : ∀ m, ms = some m → Conversation m []) :
    Shared.Sound { sh with sessions := Function.update sh.sessions id ms } := by
  intro id' m hm
  dsimp only at hm
  by_cases hid : id' = id
  · subst hid
    rw [Function.update_self] at hm
    exact hms m hm
  · rw [Function.update_of_ne hid] at hm
    exact h id' m hm

theorem Conn.Sound.startTurn {setting : Setting} {sh : Shared} {k : Conn} (hsh : sh.Sound)
    (session : Option Text) (text : Text) (autopilot : Bool) (fresh time body : Text) :
    (k.startTurn setting sh session text autopilot fresh time body).1.Sound ∧
      (k.startTurn setting sh session text autopilot fresh time body).2.Sound := by
  refine ⟨hsh.update (by simp), .of_pending rfl ?_⟩
  have htaken : ∀ id, Conversation ((sh.sessions id).getD [.ofSystem setting.systemPrompt]) [] := by
    intro id
    cases hms : sh.sessions id with
    | none => exact .start setting.systemPrompt
    | some ms => exact hsh id ms hms
  have hquestion : isBlock (.ofUser text) = false := by
    simp [isBlock, Message.isStatus, Message.ofUser]
  exact ((htaken _).placeStatus _ _ _).line rfl (by simp [hquestion])

theorem Moves.sound {setting : Setting} {sh sh' : Shared} {k k' : Conn} {events : List Event}
    (h : Moves setting sh k sh' k' events) (hsh : sh.Sound) (hk : k.Sound) :
    sh'.Sound ∧ k'.Sound := by
  cases h with
  | queue => exact ⟨hsh, hk⟩
  | drop => exact ⟨hsh, hk⟩
  | idle _ after _ _ sessions =>
      exact ⟨fun id ms h => hsh id ms (sessions id ms h), .of_none after⟩
  | startTurn place => exact Conn.Sound.startTurn hsh ..
  | @ask turn place =>
      have hturn := hk turn [] (by rw [place]; rfl)
      exact ⟨hsh, .of_pending rfl (hturn.fitContext ..)⟩
  | @drain turn _ _ _ _ place =>
      have hturn := hk turn [] (by rw [place]; rfl)
      exact ⟨hsh, .of_pending rfl hturn⟩
  | @reply turn _ text calls place =>
      have hturn := (hk turn [] (by rw [place]; rfl)).reply text calls
      cases calls with
      | nil => exact ⟨hsh, .of_pending rfl hturn⟩
      | cons call calls => exact ⟨hsh, .of_pending rfl hturn⟩
  | @endTurn turn place => exact ⟨hsh, .of_pending rfl (hk turn [] place)⟩
  | @nextRound turn place => exact ⟨hsh, .of_pending rfl (hk turn [] place)⟩
  | @offer turn call calls place =>
      have hturn := hk turn (call :: calls) (by rw [place]; rfl)
      exact ⟨hsh, .of_pending rfl hturn⟩
  | @announce turn call calls _ _ _ place =>
      have hturn := hk turn (call :: calls) (by rw [place]; rfl)
      exact ⟨hsh, .of_pending rfl hturn⟩
  | @answer turn call calls _ _ _ place =>
      exact ⟨hsh, .of_pending rfl ((hk turn (call :: calls) place).answer ..)⟩
  | @askConfirm turn call _ _ calls place =>
      have hturn := hk turn (call :: calls) (by rw [place]; rfl)
      exact ⟨hsh, .of_pending rfl hturn⟩
  | @execute turn call _ _ calls place =>
      have hturn := hk turn (call :: calls) (by rw [place]; rfl)
      exact ⟨hsh, .of_pending rfl hturn⟩
  | @approve turn call _ calls _ _ place =>
      have hturn := hk turn (call :: calls) (by rw [place]; rfl)
      exact ⟨hsh, .of_pending rfl hturn⟩
  | @store turn place =>
      have hturn := hk turn [] (by rw [place]; rfl)
      refine ⟨hsh.update fun ms hms => ?_, .of_none rfl⟩
      rw [← Option.some.inj hms]
      exact hturn.trimSession 60

namespace Connections

/-- The invariant of the run. -/
structure Kept (δ : Connections) : Prop where
  shared : δ.shared.Sound
  conns : ∀ c, (δ.conns c).Sound

theorem Kept.sound {δ : Connections} (h : δ.Kept) : Sound δ where
  stored := fun id ms hms => (h.shared id ms hms).wellFormed
  running := fun c turn pending hturn => (h.conns c turn pending hturn).wellFormed

theorem Kept.step {setting : Setting} {δ ε : Connections} {l : Label} (h : δ.Kept)
    (hstep : step setting δ l = some ε) : ε.Kept := by
  obtain ⟨⟨sh, k, events⟩, hact, rfl⟩ := Option.map_eq_some_iff.mp hstep
  obtain ⟨hshared, hconn⟩ := (Moves.of_act hact).sound h.shared (h.conns l.conn)
  refine ⟨hshared, fun c => ?_⟩
  dsimp only
  by_cases hc : c = l.conn
  · subst hc
    rwa [Function.update_self]
  · rw [Function.update_of_ne hc]
    exact h.conns c

theorem Kept.start (on : Bool) : (Connections.start on).Kept where
  shared := fun _ _ h => nomatch h
  conns := fun _ => .of_none rfl

/-- Every message list stays well formed, whatever the clients send, the model answers
and the tools return, in whatever order. -/
theorem sound_along (setting : Setting) (on : Bool) (labels : List Label) :
    Along (Connections.step setting) (fun _ _ ε => Sound ε) (Connections.start on) labels :=
  along_of_invariant Kept (fun _ _ _ hi => hi.step) (fun _ hi => hi.sound) labels (.start on)

end Connections

end MindOS.Agent
