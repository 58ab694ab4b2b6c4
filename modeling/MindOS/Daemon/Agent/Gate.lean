import MindOS.Daemon.Agent.Connection

/-!
# The gate before an execution

Before `execute` is reached the call was announced with its verdict, the switch was
read and, where the verdict asks for it, the first answer taken from the queue since
the announcement was an approval of this call. All of this is read off the log, in
whatever order requests arrive and on however many connections.
-/

namespace MindOS.Agent

open Text Tools Transition

/-- The switch after some entries of the log. -/
def switchOn (on : Bool) (log : List (Nat × Event)) : Bool := switchAfter on (log.map (·.2))

/-- What an entry of the log answers to a confirmation: a `Confirm` of the call's own id,
a `Cancel` or the end of the queue. -/
def answer (c : Nat) (id : Text) : Nat × Event → Option Bool
  | (c', .took r) => if c' = c then confirmAnswer id r else none
  | (c', .ended) => if c' = c then some false else none
  | _ => none

/-- The entry of an announcement. -/
def announcement (setting : Setting) (c : Nat) (autopilot : Bool) (call : ToolCall) (args : Json)
    (d : ToolDef) : Nat × Event :=
  let policy := policyFor d args setting.cfg
  (c, .announced autopilot call args policy
    (policy.needsConfirmation d.category autopilot setting.cfg.policy))

/-- A call of connection `c` was announced behind `before`, and since then the connection
has neither announced nor executed anything. -/
structure Announced (setting : Setting) (c : Nat) (autopilot : Bool) (call : ToolCall)
    (args : Json) (d : ToolDef) (before since log : List (Nat × Event)) : Prop where
  log_eq : log = before ++ announcement setting c autopilot call args d :: since
  found : find (definitions setting.cfg) call.name = some d
  allowed : policyFor d args setting.cfg ≠ .forbidden
  alone : ∀ e, (c, e) ∈ since → e.quiet

/-- The switch was on at some moment since the announcement. -/
def SwitchWasOn (on : Bool) (since log : List (Nat × Event)) : Prop :=
  ∃ front back, log = front ++ back ∧ back <:+ since ∧ switchOn on front = true

/-- What the log says when connection `c` reaches `execute`. -/
structure Cleared (setting : Setting) (on : Bool) (c : Nat) (autopilot : Bool) (call : ToolCall)
    (args : Json) (d : ToolDef) (before since log : List (Nat × Event)) : Prop
    extends Announced setting c autopilot call args d before since log where
  /-- A change needs the switch; it was on when it was read, behind the announcement. -/
  switch : policyFor d args setting.cfg = .observe ∨ SwitchWasOn on since log
  /-- It is on still, unless a client has turned it off since the announcement. -/
  still : policyFor d args setting.cfg = .observe ∨ switchOn on log = true ∨
    ∃ c', (c', .switched false) ∈ since
  /-- Where a confirmation is needed, the first answer since the announcement is an
  approval. -/
  confirmed : (policyFor d args setting.cfg).needsConfirmation d.category autopilot
    setting.cfg.policy = true → since.findSome? (answer c call.id) = some true

/-- What an entry of the log needs: an execution is cleared. -/
def Gate (setting : Setting) (on : Bool) (log : List (Nat × Event)) : Nat × Event → Prop
  | (c, .executed call args) =>
      ∃ autopilot d before since, Cleared setting on c autopilot call args d before since log
  | _ => True

/-- The execution at position `e` of the log rests on the approval at position `k`, the
first answer since its announcement. -/
def RestsOn (setting : Setting) (log : List (Nat × Event)) (e k : Nat) : Prop :=
  ∃ c autopilot call args d r before front back tail,
    log = (before ++ announcement setting c autopilot call args d :: front) ++
      (c, .took r) :: (back ++ (c, .executed call args) :: tail) ∧
    confirmAnswer call.id r = some true ∧ front.findSome? (answer c call.id) = none ∧
    (∀ e, (c, e) ∈ front ++ back → e.quiet) ∧
    k = (before ++ announcement setting c autopilot call args d :: front).length ∧
    e = k + 1 + back.length

/-- What holds of the log in every state. -/
structure GateHolds (setting : Setting) (on : Bool) (log : List (Nat × Event)) : Prop where
  /-- Every execution is cleared by what the log says before it. -/
  executions : Justified (Gate setting on) log
  /-- An execution that needs a confirmation rests on one. -/
  rests : ∀ front c call args back, log = front ++ (c, .executed call args) :: back →
    (∃ autopilot d before since, Announced setting c autopilot call args d before since front ∧
      (policyFor d args setting.cfg).needsConfirmation d.category autopilot setting.cfg.policy
        = false) ∨ ∃ k, RestsOn setting log front.length k
  /-- No two executions rest on the same confirmation. -/
  once : ∀ e e' k, RestsOn setting log e k → RestsOn setting log e' k → e = e'

/-! ### Each confirmation is used once -/

theorem RestsOn.unique {setting : Setting} {log : List (Nat × Event)} {e e' k : Nat}
    (h : RestsOn setting log e k) (h' : RestsOn setting log e' k) : e = e' := by
  obtain ⟨c, _, _, _, _, _, _, _, back, _, hlog, -, -, hquiet, hk, rfl⟩ := h
  obtain ⟨c', _, _, _, _, _, _, _, back', _, hlog', -, -, hquiet', hk', rfl⟩ := h'
  obtain ⟨-, htail⟩ := List.append_inj (hlog.symm.trans hlog') (hk.symm.trans hk')
  obtain ⟨hentry, htail⟩ := List.cons.inj htail
  obtain ⟨rfl, -⟩ := Prod.mk.inj hentry
  have hlength := first_unique (p := fun x : Nat × Event => x.1 = c ∧ ¬x.2.quiet) htail
    ⟨rfl, fun h => h⟩ ⟨rfl, fun h => h⟩
    (fun x hx hxc => hxc.2 (hquiet x.2 (hxc.1 ▸ List.mem_append_right _ hx)))
    (fun x hx hxc => hxc.2 (hquiet' x.2 (hxc.1 ▸ List.mem_append_right _ hx)))
  rw [hlength]

theorem took_of_answer {c : Nat} {id : Text} {x : Nat × Event} (h : answer c id x = some true) :
    ∃ r, x = (c, .took r) ∧ confirmAnswer id r = some true := by
  obtain ⟨c', e⟩ := x
  unfold answer at h
  split at h
  case h_1 c'' r hx =>
    obtain ⟨rfl, rfl⟩ := Prod.mk.inj hx
    split at h
    case isTrue hc => exact ⟨r, hc ▸ rfl, h⟩
    case isFalse => cases h
  case h_2 =>
    split at h <;> cases h
  case h_3 => cases h

theorem Cleared.rests {setting : Setting} {on : Bool} {c : Nat} {autopilot : Bool}
    {call : ToolCall} {args : Json} {d : ToolDef} {before since front back : List (Nat × Event)}
    (h : Cleared setting on c autopilot call args d before since front)
    (hneeds : (policyFor d args setting.cfg).needsConfirmation d.category autopilot
      setting.cfg.policy = true) :
    ∃ k, RestsOn setting (front ++ (c, .executed call args) :: back) front.length k := by
  obtain ⟨first, x, rest, hsince, hx, hfirst⟩ :=
    List.findSome?_eq_some_iff.mp (h.confirmed hneeds)
  obtain ⟨r, rfl, hr⟩ := took_of_answer hx
  refine ⟨_, c, autopilot, call, args, d, r, before, first, rest, back, ?_, hr, ?_, ?_, rfl, ?_⟩
  · rw [h.log_eq, hsince]
    simp
  · exact List.findSome?_eq_none_iff.mpr hfirst
  · intro e he
    apply h.alone e
    rw [hsince]
    obtain he | he := List.mem_append.mp he
    · exact List.mem_append_left _ he
    · exact List.mem_append_right _ (List.mem_cons_of_mem _ he)
  · rw [h.log_eq, hsince]
    simp only [List.length_append, List.length_cons]
    omega

theorem GateHolds.of_executions {setting : Setting} {on : Bool} {log : List (Nat × Event)}
    (h : Justified (Gate setting on) log) : GateHolds setting on log where
  executions := h
  rests := by
    intro front c call args back hlog
    obtain ⟨autopilot, d, before, since, hcleared⟩ := h front _ back hlog
    cases hneeds : (policyFor d args setting.cfg).needsConfirmation d.category autopilot
      setting.cfg.policy with
    | false => exact .inl ⟨autopilot, d, before, since, hcleared.toAnnounced, hneeds⟩
    | true =>
        rw [hlog]
        exact .inr (hcleared.rests hneeds)
  once := fun _ _ _ => RestsOn.unique

/-! ### What a handler knows of its call -/

section Growth

variable {setting : Setting} {on : Bool} {c : Nat} {autopilot : Bool} {call : ToolCall}
  {args : Json} {d : ToolDef} {before since log entries : List (Nat × Event)}

theorem switchOn_append : switchOn on (log ++ entries) = switchOn (switchOn on log) entries := by
  simp [switchOn, switchAfter, List.foldl_append]

theorem Announced.append (h : Announced setting c autopilot call args d before since log)
    (hquiet : ∀ e, (c, e) ∈ entries → e.quiet) :
    Announced setting c autopilot call args d before (since ++ entries) (log ++ entries) where
  log_eq := by rw [h.log_eq, List.append_assoc, List.cons_append]
  found := h.found
  allowed := h.allowed
  alone := by
    intro e he
    obtain he | he := List.mem_append.mp he
    · exact h.alone e he
    · exact hquiet e he

theorem SwitchWasOn.now (h : switchOn on log = true) : SwitchWasOn on since log :=
  ⟨log, [], (List.append_nil log).symm, List.nil_suffix, h⟩

theorem SwitchWasOn.append (h : SwitchWasOn on since log) :
    SwitchWasOn on (since ++ entries) (log ++ entries) := by
  obtain ⟨front, back, rfl, ⟨rest, rfl⟩, hon⟩ := h
  exact ⟨front, back ++ entries, by simp, ⟨rest, by simp⟩, hon⟩

theorem SwitchWasOn.still (h : SwitchWasOn on since log) :
    switchOn on log = true ∨ ∃ c', (c', .switched false) ∈ since := by
  obtain ⟨front, back, rfl, hback, hon⟩ := h
  have hstays : ∀ entries : List (Nat × Event), switchOn true entries = true ∨
      ∃ c', (c', .switched false) ∈ entries := by
    intro entries
    induction entries with
    | nil => exact .inl rfl
    | cons x entries ih =>
        obtain ⟨c', e⟩ := x
        obtain hoff | hrest : e = .switched false ∨ Event.switch true e = true := by
          cases e with
          | switched on => cases on <;> simp [Event.switch]
          | _ => exact .inr rfl
        · exact .inr ⟨c', hoff ▸ List.mem_cons_self⟩
        · obtain h | ⟨c'', h⟩ := ih
          · left
            simpa [switchOn, switchAfter, hrest] using h
          · exact .inr ⟨c'', List.mem_cons_of_mem _ h⟩
  obtain h | ⟨c', h⟩ := hstays back
  · exact .inl (by rw [switchOn_append, hon, h])
  · exact .inr ⟨c', hback.subset h⟩

end Growth

/-- What the log says of the call that a handler is about to execute. -/
def Phase.Tracked (setting : Setting) (on : Bool) (c : Nat) (log : List (Nat × Event)) :
    Phase → Prop
  | .gating turn call args policy needs _ => ∃ d before since,
      Announced setting c turn.autopilot call args d before since log ∧
      policy = policyFor d args setting.cfg ∧
      needs = policy.needsConfirmation d.category turn.autopilot setting.cfg.policy ∧
      since.findSome? (answer c call.id) = none
  | .confirming turn call args _ => ∃ d before since,
      Announced setting c turn.autopilot call args d before since log ∧
      (policyFor d args setting.cfg = .observe ∨ SwitchWasOn on since log) ∧
      since.findSome? (answer c call.id) = none
  | _ => True

namespace Phase.Tracked

variable {setting : Setting} {on : Bool} {c : Nat} {log entries : List (Nat × Event)}
  {phase : Phase}

theorem of_awaited_none (h : phase.awaited = none) : phase.Tracked setting on c log := by
  cases phase with
  | gating => cases h
  | confirming => cases h
  | _ => trivial

theorem append (h : phase.Tracked setting on c log) (hquiet : ∀ e, (c, e) ∈ entries → e.quiet)
    (hdeaf : ∀ id, phase.awaited = some id → ∀ x ∈ entries, answer c id x = none) :
    phase.Tracked setting on c (log ++ entries) := by
  cases phase with
  | gating turn call args policy needs calls =>
      obtain ⟨d, before, since, hann, hpolicy, hneeds, hnone⟩ := h
      refine ⟨d, before, since ++ entries, hann.append hquiet, hpolicy, hneeds, ?_⟩
      rw [List.findSome?_append, hnone, List.findSome?_eq_none_iff.mpr (hdeaf call.id rfl)]
      rfl
  | confirming turn call args calls =>
      obtain ⟨d, before, since, hann, hon, hnone⟩ := h
      refine ⟨d, before, since ++ entries, hann.append hquiet, hon.imp_right .append, ?_⟩
      rw [List.findSome?_append, hnone, List.findSome?_eq_none_iff.mpr (hdeaf call.id rfl)]
      rfl
  | _ => trivial

end Phase.Tracked

/-- What the connections keep about the log. -/
structure Watched (setting : Setting) (on : Bool) (δ : Connections) : Prop where
  executions : Justified (Gate setting on) δ.log
  switch : switchOn on δ.log = δ.shared.systemChanges
  tracked : ∀ c, (δ.conns c).phase.Tracked setting on c δ.log

section Step

variable {setting : Setting} {on : Bool} {c : Nat} {log : List (Nat × Event)}
  {sh sh' : Shared} {k k' : Conn} {events : List Event}

/-- The entries of a step. -/
abbrev logged (c : Nat) (events : List Event) : List (Nat × Event) := events.map fun e => (c, e)

theorem switchOn_logged (on : Bool) (c : Nat) (events : List Event) :
    switchOn on (logged c events) = switchAfter on events := by
  simp [switchOn, Function.comp_def]

theorem justified_logged (h : Justified (Gate setting on) log)
    (hfree : ∀ call args, .executed call args ∉ events) :
    Justified (Gate setting on) (log ++ logged c events) := by
  refine h.append fun front x hx => ?_
  obtain ⟨e, he, rfl⟩ := List.mem_map.mp hx
  cases e with
  | executed call args => exact absurd he (hfree call args)
  | _ => trivial

theorem Phase.awaited_of_pending {phase : Phase} (h : phase.pending = none) :
    phase.awaited = none := by
  cases phase with
  | gating => cases h
  | confirming => cases h
  | _ => rfl

section Cleared

variable {autopilot : Bool} {call : ToolCall} {args : Json} {d : ToolDef}
  {before since : List (Nat × Event)}

theorem Announced.switch (h : Announced setting c autopilot call args d before since log)
    (hon : policyFor d args setting.cfg = .change → switchOn on log = true) :
    policyFor d args setting.cfg = .observe ∨ SwitchWasOn on since log := by
  cases hpolicy : policyFor d args setting.cfg with
  | observe => exact .inl rfl
  | change => exact .inr (.now (hon hpolicy))
  | forbidden => exact absurd hpolicy h.allowed

theorem Announced.cleared (h : Announced setting c autopilot call args d before since log)
    (hon : policyFor d args setting.cfg = .observe ∨ SwitchWasOn on since log)
    (hconfirmed : (policyFor d args setting.cfg).needsConfirmation d.category autopilot
      setting.cfg.policy = true → since.findSome? (answer c call.id) = some true) :
    Gate setting on log (c, .executed call args) :=
  ⟨autopilot, d, before, since, h, hon, hon.imp_right SwitchWasOn.still, hconfirmed⟩

end Cleared

theorem Moves.watched (h : Moves setting sh k sh' k' events)
    (hlog : Justified (Gate setting on) log) (hswitch : switchOn on log = sh.systemChanges)
    (htracked : k.phase.Tracked setting on c log) :
    Justified (Gate setting on) (log ++ logged c events) ∧
      switchOn on (log ++ logged c events) = sh'.systemChanges ∧
      k'.phase.Tracked setting on c (log ++ logged c events) := by
  rw [switchOn_append, hswitch, switchOn_logged]
  cases h with
  | queue => exact ⟨justified_logged hlog (by simp), rfl, by simpa using htracked⟩
  | @drop r queue deaf =>
      refine ⟨justified_logged hlog (by simp), rfl, htracked.append (by simp [Event.quiet]) ?_⟩
      intro id hid x hx
      rw [List.mem_singleton.mp hx, Agent.answer, if_pos rfl]
      exact deaf id hid
  | idle before after quiet switch sessions =>
      exact ⟨justified_logged hlog fun call args he => quiet _ he, switch.symm,
        .of_awaited_none (Phase.awaited_of_pending after)⟩
  | startTurn => exact ⟨justified_logged hlog (by simp), rfl, .of_awaited_none rfl⟩
  | ask => exact ⟨justified_logged hlog (by simp), rfl, .of_awaited_none rfl⟩
  | drain => exact ⟨justified_logged hlog (by simp), rfl, .of_awaited_none rfl⟩
  | @reply _ _ _ calls =>
      refine ⟨justified_logged hlog (by simp), rfl, .of_awaited_none ?_⟩
      cases calls <;> rfl
  | endTurn => exact ⟨justified_logged hlog (by simp), rfl, .of_awaited_none rfl⟩
  | nextRound => exact ⟨justified_logged hlog (by simp), rfl, .of_awaited_none rfl⟩
  | offer => exact ⟨justified_logged hlog (by simp), rfl, .of_awaited_none rfl⟩
  | @announce turn call calls d policy needs place found verdict asks allowed =>
      subst verdict asks
      refine ⟨justified_logged hlog (by simp), rfl, d, log, [], ?_, rfl, rfl, rfl⟩
      exact ⟨rfl, found, allowed, by simp⟩
  | @answer _ _ _ _ _ events place unexecuted switch =>
      exact ⟨justified_logged hlog unexecuted, switch, .of_awaited_none rfl⟩
  | @askConfirm turn call args policy calls place hon =>
      rw [place] at htracked
      obtain ⟨d, before, since, hann, rfl, -, hnone⟩ := htracked
      refine ⟨justified_logged hlog (by simp), rfl, d, before, since, ?_, ?_, hnone⟩
      · simpa using hann
      · simpa using hann.switch fun h => hswitch.trans (hon h)
  | @execute turn call args policy calls place hon =>
      rw [place] at htracked
      obtain ⟨d, before, since, hann, rfl, hneeds, -⟩ := htracked
      have hgate : Gate setting on log (c, .executed call args) :=
        hann.cleared (hann.switch fun h => hswitch.trans (hon h)) fun h =>
          absurd (hneeds.trans h) Bool.false_ne_true
      exact ⟨hlog.concat hgate, rfl, .of_awaited_none rfl⟩
  | @approve turn call args calls r queue place approved =>
      rw [place] at htracked
      obtain ⟨d, before, since, hann, hon, hnone⟩ := htracked
      have htook : Gate setting on (log ++ [(c, .took r)]) (c, .executed call args) := by
        refine (hann.append (by simp [Event.quiet])).cleared (hon.imp_right .append) fun _ => ?_
        rw [List.findSome?_append, hnone]
        simp [Agent.answer, approved]
      refine ⟨?_, rfl, .of_awaited_none rfl⟩
      have hfree : Gate setting on log (c, .took r) := trivial
      simpa using (hlog.concat hfree).concat htook
  | store => exact ⟨justified_logged hlog (by simp), rfl, .of_awaited_none rfl⟩

end Step

namespace Connections

variable {setting : Setting} {on : Bool} {δ ε : Connections} {l : Label}

theorem watched_start (setting : Setting) (on : Bool) :
    Watched setting on (Connections.start on) where
  executions := .nil
  switch := rfl
  tracked := fun _ => trivial

theorem watched_step (h : Watched setting on δ) (hstep : step setting δ l = some ε) :
    Watched setting on ε := by
  obtain ⟨⟨sh, k, events⟩, hact, rfl⟩ := Option.map_eq_some_iff.mp hstep
  obtain ⟨hlog, hswitch, htracked⟩ :=
    (Moves.of_act hact).watched h.executions h.switch (h.tracked l.conn)
  refine ⟨hlog, hswitch, fun c => ?_⟩
  dsimp only
  by_cases hc : c = l.conn
  · subst hc
    rwa [Function.update_self]
  · -- Another connection only sees the log grow.
    rw [Function.update_of_ne hc]
    refine (h.tracked c).append ?_ ?_
    · intro e he
      obtain ⟨e', -, he'⟩ := List.mem_map.mp he
      exact absurd (Prod.mk.inj he').1.symm hc
    · intro id _ x hx
      obtain ⟨e, -, rfl⟩ := List.mem_map.mp hx
      cases e <;> simp [answer, Ne.symm hc]

/-- The gate holds in every run, for all calls of the model, all requests of the clients in
any order, and any changes of the switch. -/
theorem gate_along (setting : Setting) (on : Bool) (labels : List Label) :
    Along (step setting) (fun _ _ ε => GateHolds setting on ε.log) (Connections.start on)
      labels :=
  along_of_invariant (Watched setting on) (fun _ _ _ hi => watched_step hi)
    (fun _ hi => .of_executions hi.executions) labels (watched_start setting on)

/-- An approved call does get through. -/
example :
    let setting : Setting := ⟨{}, "you are Mind", fun _ => none, fun _ => [], fun _ => 0⟩
    let actions : List Action := [.arrive (.chat none "reboot" false), .take,
      .startTurn "s" "14:32" "", .ask, .reply [] [⟨"a", "reboot", "{}"⟩], .call, .gate,
      .arrive (.confirm "a" true), .take]
    (exec (step setting) (Connections.start true) (actions.map fun a => ⟨0, a⟩)).map
      (fun ε => ε.log.any fun | (_, .executed ..) => true | _ => false) = some true := rfl

end Connections

end MindOS.Agent
