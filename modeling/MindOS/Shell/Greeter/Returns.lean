import Mathlib.Data.Set.Finite.Lattice
import MindOS.Shell.Greeter.Rules

/-!
# Every conversation is lawful and ends

A reply that is not merely informational brings a call forward: there are at most four of them
before it returns.
-/

namespace MindOS.Shell.Greeter

open Transition

def Entry.isPassword : Entry → Bool
  | .sent (.password _) => true
  | _ => false

def Entry.isStart : Entry → Bool
  | .sent (.startSession _ _) => true
  | _ => false

theorem Entry.isPassword_iff {e : Entry} : e.isPassword ↔ ∃ p, e = .sent (.password p) := by
  constructor
  · intro h
    unfold isPassword at h
    split at h
    · exact ⟨_, rfl⟩
    · cases h
  · rintro ⟨p, rfl⟩
    rfl

theorem Entry.isStart_iff {e : Entry} : e.isStart ↔ ∃ c v, e = .sent (.startSession c v) := by
  constructor
  · intro h
    unfold isStart at h
    split at h
    · exact ⟨_, _, rfl⟩
    · cases h
  · rintro ⟨c, v, rfl⟩
    rfl

/-- The password goes out at most once, in answer to a secret prompt. The session is started
at most once, directly after a success for its creation or an answer. `Started` comes directly
after a success, and with a command only when greetd has answered the request to start the
session: that answer is the success, unless greetd prompted instead or an answer was given after
a call that had not come to a prompt. A cancellation follows each error but one in answer to a
cancellation. -/
structure Lawful (password : Text) (cmd env : List Text) (log : List Entry) : Prop where
  passwordOnce : log.countP Entry.isPassword ≤ 1
  password : ∀ front p back, log = front ++ .sent (.password p) :: back →
    p = password ∧ ∃ front' reply, front = front' ++ [.got (.ok reply)] ∧ IsSecret reply
  startOnce : log.countP Entry.isStart ≤ 1
  start : ∀ front c v back, log = front ++ .sent (.startSession c v) :: back →
    c = cmd ∧ v = env ∧ ∃ request, Succeeded front request ∧ request.Opens
  started : ∀ front back, log = front ++ .returned (.ok .started) :: back →
    (∃ request, Succeeded front request) ∧
      (cmd ≠ [] → (∃ reply, [.sent (.startSession cmd env), .got reply] <:+: front) ∧
        (Succeeded front (.startSession cmd env) ∨ Prompted cmd env front ∨ Strayed front))
  cancelled : ∀ front request reply back,
    log = front ++ [.sent request, .got (.ok reply)] ++ back → IsError reply →
      request ≠ .cancelSession → ∃ back', back = .sent .cancelSession :: back'

variable {password : Text} {cmd env : List Text} {l : Login} {request : Request}

theorem Kept.lawful (h : Kept password cmd env l) : Lawful password cmd env l.log where
  passwordOnce := by
    refine h.justified.countP_le_one fun front e hrule he x hx hsent => ?_
    obtain ⟨p, rfl⟩ := Entry.isPassword_iff.mp he
    obtain ⟨p', rfl⟩ := Entry.isPassword_iff.mp hsent
    exact (hrule.password p rfl).2.1 p' hx
  password front p back hlog := by
    obtain ⟨hp, -, hprompt⟩ := (h.justified front _ back hlog).password p rfl
    exact ⟨hp, hprompt⟩
  startOnce := by
    refine h.justified.countP_le_one fun front e hrule he x hx hsent => ?_
    obtain ⟨c, v, rfl⟩ := Entry.isStart_iff.mp he
    obtain ⟨c', v', rfl⟩ := Entry.isStart_iff.mp hsent
    exact (hrule.start c v rfl).2.2.1 c' v' hx
  start front c v back hlog := by
    obtain ⟨hc, hv, -, hopens⟩ := (h.justified front _ back hlog).start c v rfl
    exact ⟨hc, hv, hopens⟩
  started front back hlog := (h.justified front _ back hlog).started rfl
  cancelled front request reply back hlog herror hrequest := by
    have hrefused : Refused (front ++ [.sent request, .got (.ok reply)]) :=
      ⟨front, request, reply, rfl, herror, hrequest⟩
    cases back with
    | nil => exact absurd (by simpa [hlog] using hrefused) h.notRefused
    | cons e back => exact ⟨back, by rw [(h.justified _ e back hlog).cancel hrefused]⟩

/-! ### How many replies it takes -/

instance (reply : Json) : Decidable (IsInformational reply) :=
  inferInstanceAs (Decidable (reply.getStr "type".toList = some "auth_message".toList ∧ _ ∧ _))

/-- It is more than a note on the way. -/
def settles : Reply → Bool
  | .error _ => true
  | .ok reply => !decide (IsInformational reply)

/-- How many settling replies a call can take: one each for what can still be sent without
asking the user, the last one and the one to a cancellation. -/
def Login.potential (l : Login) : Nat :=
  (if l.cmd = [] then 0 else 1) + (if l.password = none then 0 else 1) + 2

theorem Login.potential_le (l : Login) : l.potential ≤ 4 := by
  unfold potential
  split <;> split <;> omega

theorem Login.potential_start (hcmd : l.cmd ≠ []) :
    { l with cmd := [], env := [] }.potential + 1 = l.potential := by
  rw [potential, potential, if_pos rfl, if_neg hcmd]
  dsimp only
  omega

theorem Login.potential_password (hpassword : l.password ≠ none) :
    { l with password := none }.potential + 1 = l.potential := by
  rw [potential, potential, if_pos rfl, if_neg hpassword]

/-- A call returns and leaves all but so many of the settling replies. -/
def Call.Takes {α : Type*} (call : Call α) (replies : List Reply) (n : Nat) : Prop :=
  call.result.isSome ∧ replies.countP settles ≤ call.replies.countP settles + n

section

variable {α : Type*} {call : Call α} {replies : List Reply} {reply : Reply} {n m : Nat}

theorem Call.Takes.mono (h : call.Takes replies n) (hn : n ≤ m) : call.Takes replies m :=
  ⟨h.1, h.2.trans (Nat.add_le_add_left hn _)⟩

theorem Call.Takes.cons (h : call.Takes replies n) : call.Takes (reply :: replies) (n + 1) := by
  refine ⟨h.1, ?_⟩
  have hle := h.2
  rw [List.countP_cons]
  split <;> omega

theorem Call.Takes.map {β : Type*} (h : call.Takes replies n) (f : α → β) :
    Call.Takes ⟨call.login, call.replies, call.result.map f⟩ replies n :=
  ⟨by rw [Option.isSome_map]; exact h.1, h.2⟩

theorem Call.Takes.cons_informational (h : call.Takes replies n) (hreply : ¬settles reply) :
    call.Takes (reply :: replies) n := by
  refine ⟨h.1, ?_⟩
  rw [List.countP_cons_of_neg hreply]
  exact h.2

end

theorem Call.takes_zero {α : Type*} (l : Login) (replies : List Reply) (result : α) :
    Call.Takes ⟨l, replies, some result⟩ replies 0 :=
  ⟨rfl, Nat.le_refl _⟩

theorem Login.cancel_takes (l : Login) (replies : List Reply) (h : 0 < replies.countP settles) :
    (l.cancel replies).Takes replies 1 := by
  cases replies with
  | nil => exact absurd h (Nat.lt_irrefl 0)
  | cons reply replies => exact (Call.takes_zero _ replies ()).cons

theorem settles_of_success {reply : Json} (h : IsSuccess reply) : settles (.ok reply) := by
  rw [settles, Bool.not_eq_true', decide_eq_false_iff_not]
  rintro ⟨hmessage, -⟩
  rw [IsAuthMessage, h] at hmessage
  exact absurd hmessage (by decide)

theorem settles_of_secret {reply : Json} (h : IsSecret reply) : settles (.ok reply) := by
  rw [settles, Bool.not_eq_true', decide_eq_false_iff_not]
  exact fun hinfo => hinfo.2.1 h.2

theorem not_settles_of_informational {reply : Json} (h : IsInformational reply) :
    ¬settles (.ok reply) := by
  rw [settles, Bool.not_eq_true', decide_eq_false_iff_not, not_not]
  exact h

theorem Login.drive_takes (request : Request) (replies : List Reply)
    (h : l.potential ≤ replies.countP settles) :
    (l.drive request replies).Takes replies l.potential := by
  induction replies generalizing l request with
  | nil =>
      have hpos : 2 ≤ l.potential := Nat.le_add_left _ _
      exact absurd (hpos.trans h) (by decide)
  | cons reply replies ih =>
      have htwo : 2 ≤ l.potential := Nat.le_add_left _ _
      have hone : 1 ≤ l.potential := Nat.le_of_succ_le htwo
      cases reply with
      | error e => exact (Call.takes_zero _ replies _).cons.mono hone
      | ok reply =>
          have hlook := ((l.write (.sent request)).write (.got (.ok reply))).look_spec reply
          have hpot : ((l.write (.sent request)).write (.got (.ok reply))).potential =
            l.potential :=
            rfl
          rw [drive]
          generalize (l.write (.sent request)).write (.got (.ok reply)) = turn at hpot hlook ⊢
          generalize turn.look reply = next at hlook ⊢
          rw [← hpot] at h htwo hone ⊢
          cases hlook with
          | started hreply hcmd => exact (Call.takes_zero _ replies _).cons.mono hone
          | start hreply hcmd =>
              rw [List.countP_cons_of_pos (settles_of_success hreply)] at h
              have hless := potential_start hcmd
              exact (ih _ (by omega)).cons.mono hless.le
          | error hreply notes result hresult hprompt =>
              have hreplies : 1 + 1 ≤ replies.countP settles + 1 :=
                (htwo.trans h).trans (by rw [List.countP_cons]; split <;> omega)
              have htakes :=
                cancel_takes { turn with notes := notes } replies (Nat.le_of_succ_le_succ hreplies)
              exact (htakes.map fun _ => result).cons.mono htwo
          | password hreply p hp =>
              rw [List.countP_cons_of_pos (settles_of_secret hreply)] at h
              have hless := potential_password (l := turn) (by simp [hp])
              exact (ih _ (by omega)).cons.mono hless.le
          | informational hreply notes =>
              have hinfo := not_settles_of_informational hreply
              rw [List.countP_cons_of_neg hinfo] at h
              exact (ih (l := { turn with notes := notes }) _ h).cons_informational hinfo
          | other hreply notes result hresult hprompt =>
              exact (Call.takes_zero _ replies _).cons.mono hone

theorem Call.Takes.returned {call : Call (Except Text Outcome)} {replies : List Reply} {n : Nat}
    (h : call.Takes replies n) : call.returned.Takes replies n := by
  obtain ⟨login, left, result⟩ := call
  cases result with
  | none => exact absurd h.1 nofun
  | some result => exact h

theorem Login.asks_return (asks : List Ask) {replies : List Reply}
    (h : 4 * asks.length ≤ replies.countP settles) : (l.asks replies asks).result.isSome := by
  induction asks generalizing l replies with
  | nil => rfl
  | cons ask asks ih =>
      rw [List.length_cons, Nat.mul_succ] at h
      cases ask with
      | respond response =>
          have hpot := l.potential_le
          have htakes := (l.drive_takes (.respond response) replies (by omega)).returned
          unfold Login.asks Login.respond
          generalize (l.drive (.respond response) replies).returned = call at htakes ⊢
          obtain ⟨login, left, result⟩ := call
          obtain ⟨hsome, hleft⟩ := htakes
          cases result with
          | none => cases hsome
          | some result => exact ih (by dsimp only at hleft; omega)
      | cancel =>
          have htakes := l.cancel_takes replies (by omega)
          unfold Login.asks
          generalize l.cancel replies = call at htakes ⊢
          obtain ⟨login, left, result⟩ := call
          obtain ⟨hsome, hleft⟩ := htakes
          cases result with
          | none => cases hsome
          | some result => exact ih (by dsimp only at hleft; omega)

theorem conversation_returns (user password : Text) (cmd env : List Text) (asks : List Ask)
    {replies : List Reply} (h : 4 * (asks.length + 1) ≤ replies.countP settles) :
    (conversation user password cmd env asks replies).result.isSome := by
  rw [Nat.mul_succ] at h
  let login : Login := { user := user, password := some password, cmd := cmd, env := env }
  have hpot := login.potential_le
  have htakes :=
    (login.drive_takes (.createSession user) replies (by omega)).returned
  unfold conversation Login.start
  dsimp only
  generalize (Login.drive _ (.createSession user) replies).returned = call at htakes ⊢
  obtain ⟨login, left, result⟩ := call
  obtain ⟨hsome, hleft⟩ := htakes
  match result with
  | none => cases hsome
  | some (.error e) => rfl
  | some (.ok outcome) => exact Login.asks_return asks (by dsimp only at hleft; omega)

theorem exists_countP_settles {stream : Nat → Reply}
    (h : {n | ¬settles (stream n)}.Finite) (k : Nat) :
    ∃ n, k ≤ ((List.range n).map stream).countP settles := by
  obtain ⟨last, hlast⟩ := h.bddAbove
  refine ⟨last + 1 + k, ?_⟩
  rw [List.range_add, List.map_append, List.countP_append, List.map_map]
  have hall : ∀ reply ∈ (List.range k).map (stream ∘ fun i => last + 1 + i), settles reply := by
    intro reply hreply
    obtain ⟨i, -, rfl⟩ := List.mem_map.mp hreply
    by_contra hnot
    have hle : last + 1 + i ≤ last := hlast hnot
    omega
  rw [List.countP_eq_length.mpr hall, List.length_map, List.length_range]
  exact Nat.le_add_left _ _

/-- A message of greetd that is merely informational. -/
def Reply.IsInformational (reply : Reply) : Prop :=
  ∃ message, reply = .ok message ∧ Greeter.IsInformational message

theorem isInformational_of_not_settles {reply : Reply} (h : ¬settles reply) :
    reply.IsInformational := by
  cases reply with
  | error e => exact absurd rfl h
  | ok message =>
      rw [settles, Bool.not_eq_true', decide_eq_false_iff_not, not_not] at h
      exact ⟨message, rfl, h⟩

/-- Whatever greetd replies and whatever calls follow, the conversation is lawful; and every
call returns if the informational messages stop at some time. -/
theorem conversation_lawful (user password : Text) (cmd env : List Text) (asks : List Ask) :
    (∀ replies, Lawful password cmd env
      (conversation user password cmd env asks replies).login.log) ∧
    ∀ stream : Nat → Reply, {n | (stream n).IsInformational}.Finite →
      ∃ n, (conversation user password cmd env asks ((List.range n).map stream)).result.isSome := by
  refine ⟨fun replies => (conversation_kept user password cmd env asks replies).lawful, ?_⟩
  intro stream hfinite
  have hsettles : {n | ¬settles (stream n)}.Finite :=
    hfinite.subset fun n hn => isInformational_of_not_settles hn
  obtain ⟨n, hn⟩ := exists_countP_settles hsettles (4 * (asks.length + 1))
  exact ⟨n, conversation_returns user password cmd env asks hn⟩

/-- greetd has answered the request to start the session with success. -/
def granted : List Entry → Bool
  | .sent (.startSession _ _) :: .got (.ok reply) :: log =>
      reply.getStr "type".toList = some "success".toList || granted log
  | _ :: log => granted log
  | [] => false

def success : Json := .obj [("type".toList, .str "success".toList)]

def authError : Json :=
  .obj [("error_type".toList, .str "auth_error".toList), ("type".toList, .str "error".toList)]

def note : Json :=
  .obj [("auth_message_type".toList, .str "info".toList),
    ("type".toList, .str "auth_message".toList)]

/-- greetd is satisfied with the login but refuses to start the session, and is satisfied with
an answer that comes after that. -/
theorem refused_log :
    (conversation "ada".toList "secret".toList ["mindos-session".toList] [] [.respond none]
      [.ok success, .ok authError, .ok authError, .ok success]).login.log =
    [.sent (.createSession "ada".toList), .got (.ok success),
      .sent (.startSession ["mindos-session".toList] []), .got (.ok authError),
      .sent .cancelSession, .got (.ok authError), .returned (.ok (.failed [] [])),
      .sent (.respond none), .got (.ok success), .returned (.ok .started)] :=
  rfl

/-- greetd is satisfied with the login, sends a note when it is to start the session and is
satisfied with the answer to that. -/
theorem prompted_log :
    (conversation "ada".toList "secret".toList ["mindos-session".toList] [] []
      [.ok success, .ok note, .ok success]).login.log =
    [.sent (.createSession "ada".toList), .got (.ok success),
      .sent (.startSession ["mindos-session".toList] []), .got (.ok note),
      .sent (.respond none), .got (.ok success), .returned (.ok .started)] :=
  rfl

/-- `Started` can come when greetd has not answered the request to start the session with
success: it had refused, and the caller answered all the same; or, without any call, it had sent
a note. An error in answer to a cancellation has no cancellation behind it. -/
theorem not_always_granted :
    (¬∀ user password cmd env asks replies front back, cmd ≠ [] →
      (conversation user password cmd env asks replies).login.log =
        front ++ .returned (.ok .started) :: back → Prompted cmd env front ∨ granted front) ∧
    (¬∀ user password cmd env replies front back, cmd ≠ [] →
      (conversation user password cmd env [] replies).login.log =
        front ++ .returned (.ok .started) :: back → granted front) ∧
    ¬∀ user password cmd env asks replies front request reply back,
      (conversation user password cmd env asks replies).login.log =
        front ++ [.sent request, .got (.ok reply)] ++ back → IsError reply →
          ∃ back', back = .sent .cancelSession :: back' := by
  refine ⟨fun h => ?_, fun h => ?_, fun h => ?_⟩
  · have hgranted := h _ _ _ _ _ _
      [.sent (.createSession "ada".toList), .got (.ok success),
        .sent (.startSession ["mindos-session".toList] []), .got (.ok authError),
        .sent .cancelSession, .got (.ok authError), .returned (.ok (.failed [] [])),
        .sent (.respond none), .got (.ok success)] [] (List.cons_ne_nil _ _) refused_log
    obtain ⟨reply, hreply, hprompted⟩ | hgranted := hgranted
    · have hmem := hprompted.subset (List.mem_cons_of_mem _ List.mem_cons_self)
      simp only [List.mem_cons, List.not_mem_nil, Entry.got.injEq, Except.ok.injEq, reduceCtorEq,
        false_or, or_false] at hmem
      obtain rfl | rfl | rfl | rfl := hmem <;> exact absurd hreply (by unfold IsAuthMessage; decide)
    · exact absurd hgranted (by decide)
  · have hgranted := h _ _ _ _ _
      [.sent (.createSession "ada".toList), .got (.ok success),
        .sent (.startSession ["mindos-session".toList] []), .got (.ok note),
        .sent (.respond none), .got (.ok success)] [] (List.cons_ne_nil _ _) prompted_log
    exact absurd hgranted (by decide)
  · obtain ⟨back, hback⟩ := h _ _ _ _ _ _
      [.sent (.createSession "ada".toList), .got (.ok success),
        .sent (.startSession ["mindos-session".toList] []), .got (.ok authError)]
      .cancelSession authError
      [.returned (.ok (.failed [] [])), .sent (.respond none), .got (.ok success),
        .returned (.ok .started)] refused_log rfl
    cases hback

end MindOS.Shell.Greeter
