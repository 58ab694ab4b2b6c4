import Mathlib.Data.Set.Finite.Basic
import MindOS.Json.Basic
import MindOS.Transition

/-!
# Login conversations

## One login conversation with greetd

The greeter answers the prompts of greetd for one user: it hands the password over at the
first secret prompt, has the session started when greetd is satisfied, and asks the user where
it cannot answer by itself. The log keeps the messages that pass, in order, and what the calls
return.
-/

namespace MindOS.Shell.Greeter

inductive Request where
  | createSession (username : Text)
  /-- The answer to a prompt that is the password. -/
  | password (response : Text)
  /-- The answer of the user, if there is one. -/
  | respond (response : Option Text)
  | startSession (cmd env : List Text)
  | cancelSession
  deriving DecidableEq

/-- What a call comes to. -/
inductive Outcome where
  | started
  | prompt (secret : Bool) (message : Text) (notes : List Text)
  | failed (message : Text) (notes : List Text)
  deriving DecidableEq

/-- What `send` gives: the reply, or why there is none. -/
abbrev Reply := Except Text Json

inductive Entry where
  | sent (request : Request)
  | got (reply : Reply)
  | returned (result : Except Text Outcome)

structure Login where
  user : Text
  password : Option Text
  cmd : List Text
  env : List Text
  notes : List Text := []
  log : List Entry := []

/-- What the login does about a reply. -/
inductive Next where
  /-- Send a request and look at the reply to it. -/
  | send (request : Request)
  /-- Cancel the session, then return. -/
  | cancel (result : Except Text Outcome)
  | finish (result : Except Text Outcome)

/-- A call with the replies that are left; no result while greetd owes a reply. -/
structure Call (α : Type*) where
  login : Login
  replies : List Reply
  result : Option α

namespace Login

def write (l : Login) (e : Entry) : Login := { l with log := l.log ++ [e] }

/-- One turn of the loop in `drive`. -/
def look (l : Login) (reply : Json) : Login × Next :=
  let kind := (reply.getStr "type".toList).getD []
  if kind = "success".toList then
    if l.cmd.isEmpty then (l, .finish (.ok .started))
    else ({ l with cmd := [], env := [] }, .send (.startSession l.cmd l.env))
  else if kind = "error".toList then
    let description := (reply.getStr "description".toList).getD []
    if (reply.getStr "error_type".toList).getD "error".toList = "auth_error".toList then
      ({ l with notes := [] }, .cancel (.ok (.failed description l.notes)))
    else if description.isEmpty then (l, .cancel (.error "greetd refused the login".toList))
    else (l, .cancel (.error description))
  else if kind = "auth_message".toList then
    let message := ((reply.getStr "auth_message".toList).getD []).trim
    let messageType := (reply.getStr "auth_message_type".toList).getD []
    if messageType = "secret".toList then
      match l.password with
      | some password => ({ l with password := none }, .send (.password password))
      | none => ({ l with notes := [] }, .finish (.ok (.prompt true message l.notes)))
    else if messageType = "visible".toList then
      ({ l with notes := [] }, .finish (.ok (.prompt false message l.notes)))
    else if message.isEmpty then (l, .send (.respond none))
    else ({ l with notes := l.notes ++ [message] }, .send (.respond none))
  else (l, .finish (.error ("unexpected reply from greetd: ".toList ++ kind)))

/-- `send` of a cancellation, whatever the reply is. -/
def cancel (l : Login) : List Reply → Call Unit
  | [] => ⟨l.write (.sent .cancelSession), [], none⟩
  | reply :: replies =>
      ⟨(l.write (.sent .cancelSession)).write (.got reply), replies, some ()⟩

/-- `send` of a request, and `drive` from the reply to it. -/
def drive (l : Login) (request : Request) : List Reply → Call (Except Text Outcome)
  | [] => ⟨l.write (.sent request), [], none⟩
  | .error e :: replies =>
      ⟨(l.write (.sent request)).write (.got (.error e)), replies, some (.error e)⟩
  | .ok reply :: replies =>
      match ((l.write (.sent request)).write (.got (.ok reply))).look reply with
      | (l, .send request) => drive l request replies
      | (l, .cancel result) =>
          let call := l.cancel replies
          ⟨call.login, call.replies, call.result.map fun _ => result⟩
      | (l, .finish result) => ⟨l, replies, some result⟩

end Login

/-- Note what a call returns. -/
def Call.returned (call : Call (Except Text Outcome)) : Call (Except Text Outcome) :=
  match call.result with
  | none => call
  | some result => { call with login := call.login.write (.returned result) }

def Login.start (user password : Text) (cmd env : List Text) (replies : List Reply) :
    Call (Except Text Outcome) :=
  let login : Login := { user := user, password := some password, cmd := cmd, env := env }
  (login.drive (.createSession user) replies).returned

def Login.respond (l : Login) (response : Option Text) (replies : List Reply) :
    Call (Except Text Outcome) :=
  (l.drive (.respond response) replies).returned

inductive Ask where
  | respond (response : Option Text)
  | cancel

/-- Calls on a login, one after the other. -/
def Login.asks (l : Login) (replies : List Reply) : List Ask → Call Unit
  | [] => ⟨l, replies, some ()⟩
  | .respond response :: asks =>
      match l.respond response replies with
      | ⟨l, replies, none⟩ => ⟨l, replies, none⟩
      | ⟨l, replies, some _⟩ => l.asks replies asks
  | .cancel :: asks =>
      match l.cancel replies with
      | ⟨l, replies, none⟩ => ⟨l, replies, none⟩
      | ⟨l, replies, some _⟩ => l.asks replies asks

/-- A login and the calls on it; there is none to call when it could not be started. -/
def conversation (user password : Text) (cmd env : List Text) (asks : List Ask)
    (replies : List Reply) : Call Unit :=
  match Login.start user password cmd env replies with
  | ⟨l, replies, some (.ok _)⟩ => l.asks replies asks
  | ⟨l, replies, some (.error _)⟩ => ⟨l, replies, some ()⟩
  | ⟨l, replies, none⟩ => ⟨l, replies, none⟩

/-! ### Replies -/

def IsSuccess (reply : Json) : Prop := reply.getStr "type".toList = some "success".toList

def IsError (reply : Json) : Prop := reply.getStr "type".toList = some "error".toList

def IsAuthMessage (reply : Json) : Prop := reply.getStr "type".toList = some "auth_message".toList

def IsSecret (reply : Json) : Prop :=
  IsAuthMessage reply ∧ reply.getStr "auth_message_type".toList = some "secret".toList

/-- A message that neither asks for a secret nor for a visible answer. -/
def IsInformational (reply : Json) : Prop :=
  IsAuthMessage reply ∧ reply.getStr "auth_message_type".toList ≠ some "secret".toList ∧
    reply.getStr "auth_message_type".toList ≠ some "visible".toList

/-!
## The rules of a login conversation

What each entry of the log needs of the entries before it. A turn of the loop keeps the rules
whatever greetd replies, so every conversation does.
-/

open Transition

variable (password : Text) (cmd env : List Text)

/-- The last request has not been answered. -/
def Waiting (log : List Entry) : Prop := ∃ front request, log = front ++ [.sent request]

/-- What came last is an error, in answer to something else than a cancellation. -/
def Refused (log : List Entry) : Prop :=
  ∃ front request reply, log = front ++ [.sent request, .got (.ok reply)] ∧ IsError reply ∧
    request ≠ .cancelSession

/-- A request on which the session may be started once greetd is satisfied with it: the one
that creates it or an answer. -/
def Request.Opens : Request → Prop
  | .createSession _ => True
  | .password _ => True
  | .respond _ => True
  | .startSession _ _ => False
  | .cancelSession => False

/-- What came last is a success, in answer to this request. -/
def Succeeded (log : List Entry) (request : Request) : Prop :=
  ∃ front reply, log = front ++ [.sent request, .got (.ok reply)] ∧ IsSuccess reply

/-- The call has come to a prompt for the user. -/
def isPrompt : Except Text Outcome → Bool
  | .ok (.prompt _ _ _) => true
  | _ => false

/-- greetd has answered the request to start the session with a prompt. -/
def Prompted (log : List Entry) : Prop :=
  ∃ reply, IsAuthMessage reply ∧ [.sent (.startSession cmd env), .got (.ok reply)] <:+: log

/-- A call has come to something else than a prompt, and the log goes on with these entries. -/
def Ended (log back : List Entry) : Prop :=
  ∃ front result, log = front ++ .returned result :: back ∧ isPrompt result = false

/-- An answer has been sent after a call that came to something else than a prompt. -/
def Strayed (log : List Entry) : Prop :=
  ∃ back response, Ended log back ∧ .sent (.respond response) ∈ back

/-- When an entry may follow those before it. -/
structure Rule (front : List Entry) (e : Entry) : Prop where
  answer : Waiting front → ∃ reply, e = .got reply
  cancel : Refused front → e = .sent .cancelSession
  password : ∀ p, e = .sent (.password p) → p = password ∧
    (∀ p', .sent (.password p') ∉ front) ∧
    ∃ front' reply, front = front' ++ [.got (.ok reply)] ∧ IsSecret reply
  start : ∀ c v, e = .sent (.startSession c v) → c = cmd ∧ v = env ∧
    (∀ c' v', .sent (.startSession c' v') ∉ front) ∧
    ∃ request, Succeeded front request ∧ request.Opens
  started : e = .returned (.ok .started) → (∃ request, Succeeded front request) ∧
    (cmd ≠ [] → (∃ reply, [.sent (.startSession cmd env), .got reply] <:+: front) ∧
      (Succeeded front (.startSession cmd env) ∨ Prompted cmd env front ∨ Strayed front))

/-- What the login still holds goes with what it has sent. -/
structure Holds (l : Login) (log : List Entry) : Prop where
  password : l.password = none ∨ l.password = some password ∧ ∀ p, .sent (.password p) ∉ log
  command : (l.cmd = cmd ∧ l.env = env ∧ ∀ c v, .sent (.startSession c v) ∉ log) ∨
    l.cmd = [] ∧ .sent (.startSession cmd env) ∈ log

/-- The session was asked for, and greetd prompted instead, or an answer strayed. -/
def Excused (l : Login) (log : List Entry) : Prop :=
  cmd ≠ [] → l.cmd = [] → Prompted cmd env log ∨ Strayed log

/-- The session was asked for, and greetd prompted instead, or the call came to its end. -/
def Settled (l : Login) (log : List Entry) : Prop :=
  cmd ≠ [] → l.cmd = [] → Prompted cmd env log ∨ ∃ back, Ended log back

/-- A login between two requests. -/
structure Kept (l : Login) : Prop where
  justified : Justified (Rule password cmd env) l.log
  notRefused : ¬Refused l.log
  holds : Holds password cmd env l l.log

/-- A login that is about to send a request. -/
structure Pending (l : Login) (request : Request) : Prop where
  justified : Justified (Rule password cmd env) l.log
  rule : Rule password cmd env l.log (.sent request)
  holds : Holds password cmd env l (l.log ++ [.sent request])
  excused : request = .startSession cmd env ∨ Excused cmd env l (l.log ++ [.sent request])
  notCancel : request ≠ .cancelSession

/-! ### The loop, turn by turn -/

/-- What a turn of the loop can do. -/
inductive Looked (l : Login) (reply : Json) : Login × Next → Prop where
  | started (h : IsSuccess reply) (hcmd : l.cmd = []) : Looked l reply (l, .finish (.ok .started))
  | start (h : IsSuccess reply) (hcmd : l.cmd ≠ []) :
      Looked l reply ({ l with cmd := [], env := [] }, .send (.startSession l.cmd l.env))
  | error (h : IsError reply) (notes : List Text) (result : Except Text Outcome)
      (hresult : result ≠ .ok .started) (hprompt : isPrompt result = false) :
      Looked l reply ({ l with notes := notes }, .cancel result)
  | password (h : IsSecret reply) (p : Text) (hp : l.password = some p) :
      Looked l reply ({ l with password := none }, .send (.password p))
  | informational (h : IsInformational reply) (notes : List Text) :
      Looked l reply ({ l with notes := notes }, .send (.respond none))
  | other (h : ¬IsError reply) (notes : List Text) (result : Except Text Outcome)
      (hresult : result ≠ .ok .started) (hprompt : isPrompt result = true → IsAuthMessage reply) :
      Looked l reply ({ l with notes := notes }, .finish result)

theorem getStr_of_getD {reply : Json} {key s : Text} (hs : s ≠ [])
    (h : (reply.getStr key).getD [] = s) : reply.getStr key = some s := by
  cases hget : reply.getStr key with
  | none =>
      rw [hget] at h
      exact absurd h.symm hs
  | some t =>
      rw [hget] at h
      exact congrArg some h

theorem getStr_ne_of_getD {reply : Json} {key s : Text} (h : (reply.getStr key).getD [] ≠ s) :
    reply.getStr key ≠ some s := by
  intro hget
  rw [hget] at h
  exact h rfl

theorem Login.look_spec (l : Login) (reply : Json) : Looked l reply (l.look reply) := by
  unfold look
  extract_lets kind description message messageType
  by_cases hkind : kind = "success".toList
  · have h : IsSuccess reply := getStr_of_getD (by decide) hkind
    rw [if_pos hkind]
    split
    case isTrue hcmd => exact .started h (List.isEmpty_iff.mp hcmd)
    case isFalse hcmd => exact .start h fun hnil => hcmd (List.isEmpty_iff.mpr hnil)
  rw [if_neg hkind]
  by_cases hkind : kind = "error".toList
  · have h : IsError reply := getStr_of_getD (by decide) hkind
    rw [if_pos hkind]
    split
    · exact .error h [] _ nofun rfl
    split
    · exact .error h l.notes _ nofun rfl
    · exact .error h l.notes _ nofun rfl
  have hnot : ¬IsError reply := getStr_ne_of_getD hkind
  rw [if_neg hkind]
  by_cases hkind : kind = "auth_message".toList
  · have h : IsAuthMessage reply := getStr_of_getD (by decide) hkind
    rw [if_pos hkind]
    by_cases htype : messageType = "secret".toList
    · have hsecret : IsSecret reply := ⟨h, getStr_of_getD (by decide) htype⟩
      rw [if_pos htype]
      split
      case h_1 p hp => exact .password hsecret p hp
      case h_2 => exact .other hnot [] _ nofun fun _ => h
    rw [if_neg htype]
    by_cases hvisible : messageType = "visible".toList
    · rw [if_pos hvisible]
      exact .other hnot [] _ nofun fun _ => h
    rw [if_neg hvisible]
    have hinfo : IsInformational reply :=
      ⟨h, getStr_ne_of_getD htype, getStr_ne_of_getD hvisible⟩
    split
    · exact .informational hinfo l.notes
    · exact .informational hinfo _
  · rw [if_neg hkind]
    exact .other hnot l.notes _ nofun nofun

/-! ### What comes last in a log -/

variable {password cmd env} {l : Login} {request : Request} {front log : List Entry} {e : Entry}

theorem not_waiting_concat (he : ∀ request, e ≠ .sent request) : ¬Waiting (log ++ [e]) := by
  rintro ⟨front, request, h⟩
  exact he request (List.singleton_inj.mp (List.append_inj' h rfl).2)

theorem not_refused_concat (he : ∀ reply, e = .got (.ok reply) → ¬IsError reply) :
    ¬Refused (log ++ [e]) := by
  rintro ⟨front, request, reply, h, herror, -⟩
  rw [List.append_cons front] at h
  exact he reply (List.singleton_inj.mp (List.append_inj' h rfl).2) herror

theorem not_refused_cancel {reply : Reply} :
    ¬Refused (log ++ [.sent .cancelSession] ++ [.got reply]) := by
  rintro ⟨front, request, reply, h, -, hrequest⟩
  rw [List.append_assoc] at h
  obtain ⟨hsent, -⟩ := List.cons.inj (List.append_inj' h rfl).2
  exact hrequest (Entry.sent.inj hsent).symm

theorem Rule.got (hrefused : ¬Refused front) (reply : Reply) :
    Rule password cmd env front (.got reply) where
  answer _ := ⟨reply, rfl⟩
  cancel h := absurd h hrefused
  password := nofun
  start := nofun
  started := nofun

theorem Rule.plain (hwaiting : ¬Waiting front) (hrefused : ¬Refused front)
    (hpassword : ∀ p, e ≠ .sent (.password p)) (hstart : ∀ c v, e ≠ .sent (.startSession c v))
    (hstarted : e ≠ .returned (.ok .started)) : Rule password cmd env front e where
  answer h := absurd h hwaiting
  cancel h := absurd h hrefused
  password p h := absurd h (hpassword p)
  start c v h := absurd h (hstart c v)
  started h := absurd h hstarted

theorem Holds.concat (h : Holds password cmd env l log) (hpassword : ∀ p, e ≠ .sent (.password p))
    (hstart : ∀ c v, e ≠ .sent (.startSession c v)) : Holds password cmd env l (log ++ [e]) := by
  have hmem {d : Entry} (hd : d ∉ log) (hne : e ≠ d) : d ∉ log ++ [e] := by
    rw [List.mem_append, List.mem_singleton]
    rintro (hlog | rfl)
    · exact hd hlog
    · exact hne rfl
  refine ⟨h.password.imp_right fun ⟨hp, hnone⟩ => ⟨hp, fun p => hmem (hnone p) (hpassword p)⟩, ?_⟩
  obtain ⟨hcmd, henv, hnone⟩ | ⟨hcmd, hsent⟩ := h.command
  · exact .inl ⟨hcmd, henv, fun c v => hmem (hnone c v) (hstart c v)⟩
  · exact .inr ⟨hcmd, List.mem_append_left _ hsent⟩

theorem answered_of_mem (hlog : Justified (Rule password cmd env) log) (hwaiting : ¬Waiting log)
    (hmem : .sent request ∈ log) : ∃ reply, [.sent request, .got reply] <:+: log := by
  obtain ⟨front, back, rfl⟩ := List.append_of_mem hmem
  cases back with
  | nil => exact absurd ⟨front, request, rfl⟩ hwaiting
  | cons e back =>
      obtain ⟨reply, rfl⟩ := (hlog (front ++ [.sent request]) e back (by simp)).answer
        ⟨front, request, rfl⟩
      exact ⟨reply, front, back, by simp⟩

theorem Prompted.concat (h : Prompted cmd env log) (e : Entry) : Prompted cmd env (log ++ [e]) := by
  obtain ⟨reply, hreply, hinfix⟩ := h
  exact ⟨reply, hreply, hinfix.trans (List.prefix_append log [e]).isInfix⟩

theorem Ended.concat {back : List Entry} (h : Ended log back) (e : Entry) :
    Ended (log ++ [e]) (back ++ [e]) := by
  obtain ⟨front, result, rfl, hprompt⟩ := h
  exact ⟨front, result, by simp, hprompt⟩

theorem Strayed.concat (h : Strayed log) (e : Entry) : Strayed (log ++ [e]) := by
  obtain ⟨back, response, hended, hmem⟩ := h
  exact ⟨back ++ [e], response, hended.concat e, List.mem_append_left _ hmem⟩

theorem Excused.concat (h : Excused cmd env l log) (e : Entry) : Excused cmd env l (log ++ [e]) :=
  fun hne hcmd => (h hne hcmd).imp (·.concat e) (·.concat e)

theorem Settled.concat (h : Settled cmd env l log) (e : Entry) : Settled cmd env l (log ++ [e]) :=
  fun hne hcmd => (h hne hcmd).imp (·.concat e) fun ⟨back, hended⟩ => ⟨back ++ [e], hended.concat e⟩

/-- An answer to a login that has ended strays. -/
theorem Settled.excused (h : Settled cmd env l log) (response : Option Text) :
    Excused cmd env l (log ++ [.sent (.respond response)]) :=
  fun hne hcmd => (h hne hcmd).imp (·.concat _) fun ⟨back, hended⟩ =>
    ⟨back ++ [.sent (.respond response)], response, hended.concat _,
      List.mem_append_right _ List.mem_cons_self⟩

/-- A call that has returned has ended the login, unless it came to a prompt. -/
theorem settled_returned {result : Except Text Outcome}
    (h : isPrompt result = true → Excused cmd env l log) :
    Settled cmd env l (log ++ [.returned result]) := by
  intro hne hcmd
  cases hprompt : isPrompt result with
  | false => exact .inr ⟨[], log, result, rfl, hprompt⟩
  | true =>
      refine (h hprompt hne hcmd).imp (·.concat _) ?_
      rintro ⟨back, -, hended, -⟩
      exact ⟨_, hended.concat _⟩

/-! ### One request and the reply to it -/

/-- A login that has a reply to look at. -/
structure Turn (password : Text) (cmd env : List Text) (l : Login) (request : Request)
    (reply : Json) : Prop where
  justified : Justified (Rule password cmd env) l.log
  holds : Holds password cmd env l l.log
  excused : request = .startSession cmd env ∨ Excused cmd env l l.log
  notCancel : request ≠ .cancelSession
  last : ∃ front, l.log = front ++ [.sent request] ++ [.got (.ok reply)]

/-- What a call keeps: the login, and that it may return its result. -/
def Call.Keeps (password : Text) (cmd env : List Text) (call : Call (Except Text Outcome)) : Prop :=
  Kept password cmd env call.login ∧
    ∀ result, call.result = some result →
      Rule password cmd env call.login.log (.returned result) ∧
        (isPrompt result = true → Excused cmd env call.login call.login.log)

theorem IsSuccess.not_error {reply : Json} (h : IsSuccess reply) : ¬IsError reply := by
  intro herror
  rw [IsError, h] at herror
  exact absurd herror (by decide)

theorem IsAuthMessage.not_error {reply : Json} (h : IsAuthMessage reply) : ¬IsError reply := by
  intro herror
  rw [IsError, h] at herror
  exact absurd herror (by decide)

theorem Request.opens_of_ne (hstart : ∀ c v, request ≠ .startSession c v)
    (hcancel : request ≠ .cancelSession) : request.Opens := by
  cases request with
  | createSession username => trivial
  | password response => trivial
  | respond response => trivial
  | startSession c v => exact hstart c v rfl
  | cancelSession => exact hcancel rfl

theorem Pending.got (h : Pending password cmd env l request) (reply : Reply) :
    Justified (Rule password cmd env) (l.log ++ [.sent request] ++ [.got reply]) ∧
      Holds password cmd env l (l.log ++ [.sent request] ++ [.got reply]) := by
  have hrefused : ¬Refused (l.log ++ [.sent request]) := not_refused_concat nofun
  exact ⟨(h.justified.concat h.rule).concat (.got hrefused reply),
    h.holds.concat (e := .got reply) nofun nofun⟩

theorem Login.cancel_kept (hlog : Justified (Rule password cmd env) l.log)
    (hwaiting : ¬Waiting l.log) (hholds : Holds password cmd env l l.log) (replies : List Reply) :
    Kept password cmd env (l.cancel replies).login ∧
      ((l.cancel replies).result.isSome → ¬Waiting (l.cancel replies).login.log) ∧
      (Settled cmd env l l.log →
        Settled cmd env (l.cancel replies).login (l.cancel replies).login.log) := by
  have hsent : Justified (Rule password cmd env) (l.log ++ [.sent .cancelSession]) :=
    hlog.concat ⟨fun hw => absurd hw hwaiting, fun _ => rfl, nofun, nofun, nofun⟩
  have hrefused : ¬Refused (l.log ++ [.sent .cancelSession]) := not_refused_concat nofun
  have hheld := hholds.concat (e := .sent .cancelSession) nofun nofun
  cases replies with
  | nil => exact ⟨⟨hsent, hrefused, ⟨hheld.password, hheld.command⟩⟩, nofun, (·.concat _)⟩
  | cons reply replies =>
      have hheld := hheld.concat (e := .got reply) nofun nofun
      exact ⟨⟨hsent.concat (.got hrefused reply), not_refused_cancel,
        ⟨hheld.password, hheld.command⟩⟩, fun _ => not_waiting_concat nofun,
        fun h => (h.concat _).concat _⟩

namespace Turn

variable {reply : Json}

theorem notWaiting (h : Turn password cmd env l request reply) : ¬Waiting l.log := by
  obtain ⟨front, hlog⟩ := h.last
  rw [hlog]
  exact not_waiting_concat nofun

theorem notRefused (h : Turn password cmd env l request reply) (hreply : ¬IsError reply) :
    ¬Refused l.log := by
  obtain ⟨front, hlog⟩ := h.last
  rw [hlog]
  refine not_refused_concat ?_
  rintro _ ⟨⟩
  exact hreply

theorem succeeded (h : Turn password cmd env l request reply) (hreply : IsSuccess reply) :
    Succeeded l.log request := by
  obtain ⟨front, hlog⟩ := h.last
  exact ⟨front, reply, by rw [hlog, List.append_assoc]; rfl, hreply⟩

/-- A prompt is in answer to the request to start the session, or it is excused before. -/
theorem excused_of_prompt (h : Turn password cmd env l request reply)
    (hreply : IsAuthMessage reply) : Excused cmd env l l.log := by
  obtain rfl | hexcused := h.excused
  · obtain ⟨front, hlog⟩ := h.last
    refine fun _ _ => .inl ⟨reply, hreply, front, [], ?_⟩
    rw [hlog, List.append_nil, List.append_assoc, List.singleton_append]
  · exact hexcused

theorem started (h : Turn password cmd env l request reply) (hreply : IsSuccess reply)
    (hcmd : l.cmd = []) (replies : List Reply) :
    Call.Keeps password cmd env ⟨l, replies, some (.ok .started)⟩ := by
  have hrefused := h.notRefused hreply.not_error
  refine ⟨⟨h.justified, hrefused, h.holds⟩, ?_⟩
  rintro _ ⟨⟩
  refine ⟨⟨fun hw => absurd hw h.notWaiting, fun hr => absurd hr hrefused, nofun, nofun,
    fun _ => ⟨⟨request, h.succeeded hreply⟩, fun hne => ⟨?_, ?_⟩⟩⟩, nofun⟩
  · obtain ⟨hsame, -, -⟩ | ⟨-, hsent⟩ := h.holds.command
    · exact absurd (hsame.symm.trans hcmd) hne
    · exact answered_of_mem h.justified h.notWaiting hsent
  · obtain hstart | hexcused := h.excused
    · exact .inl (hstart ▸ h.succeeded hreply)
    · exact .inr (hexcused hne hcmd)

theorem start (h : Turn password cmd env l request reply) (hreply : IsSuccess reply)
    (hcmd : l.cmd ≠ []) :
    Pending password cmd env { l with cmd := [], env := [] } (.startSession l.cmd l.env) := by
  obtain ⟨hsame, henv, hnone⟩ := h.holds.command.resolve_right fun hc => hcmd hc.1
  have hopens : request.Opens := by
    obtain ⟨front, hlog⟩ := h.last
    refine Request.opens_of_ne (fun c v hstart => hnone c v ?_) h.notCancel
    simp [hlog, hstart]
  refine ⟨h.justified, ⟨fun hw => absurd hw h.notWaiting,
    fun hr => absurd hr (h.notRefused hreply.not_error), nofun, ?_, nofun⟩, ⟨?_, .inr ⟨rfl, ?_⟩⟩,
    .inl (by rw [hsame, henv]), nofun⟩
  · rintro c v ⟨⟩
    exact ⟨hsame, henv, hnone, request, h.succeeded hreply, hopens⟩
  · exact h.holds.password.imp_right fun ⟨hp, hunsent⟩ => ⟨hp, fun p => by simpa using hunsent p⟩
  · rw [hsame, henv]
    exact List.mem_append_right _ List.mem_cons_self

theorem secret (h : Turn password cmd env l request reply) (hreply : IsSecret reply) {p : Text}
    (hp : l.password = some p) :
    Pending password cmd env { l with password := none } (.password p) := by
  obtain ⟨hsame, hnone⟩ := h.holds.password.resolve_left (by simp [hp])
  obtain ⟨front, hlog⟩ := h.last
  refine ⟨h.justified, ⟨fun hw => absurd hw h.notWaiting,
    fun hr => absurd hr (h.notRefused hreply.1.not_error), ?_, nofun, nofun⟩, ⟨.inl rfl, ?_⟩,
    .inr ((h.excused_of_prompt hreply.1).concat _), nofun⟩
  · rintro _ ⟨⟩
    exact ⟨Option.some.inj (hp.symm.trans hsame), hnone, _, reply, hlog, hreply⟩
  · obtain ⟨hcmd, henv, hunsent⟩ | ⟨hcmd, hsent⟩ := h.holds.command
    · exact .inl ⟨hcmd, henv, fun c v => by simpa using hunsent c v⟩
    · exact .inr ⟨hcmd, List.mem_append_left _ hsent⟩

theorem informational (h : Turn password cmd env l request reply) (hreply : IsInformational reply)
    (notes : List Text) : Pending password cmd env { l with notes := notes } (.respond none) := by
  have hheld := h.holds.concat (e := .sent (.respond none)) nofun nofun
  exact ⟨h.justified, .plain h.notWaiting (h.notRefused hreply.1.not_error) nofun nofun nofun,
    ⟨hheld.password, hheld.command⟩, .inr ((h.excused_of_prompt hreply.1).concat _), nofun⟩

theorem finish (h : Turn password cmd env l request reply) (hreply : ¬IsError reply)
    (notes : List Text) {result : Except Text Outcome} (hresult : result ≠ .ok .started)
    (hprompt : isPrompt result = true → IsAuthMessage reply) (replies : List Reply) :
    Call.Keeps password cmd env ⟨{ l with notes := notes }, replies, some result⟩ := by
  refine ⟨⟨h.justified, h.notRefused hreply, ⟨h.holds.password, h.holds.command⟩⟩, ?_⟩
  rintro _ ⟨⟩
  exact ⟨.plain h.notWaiting (h.notRefused hreply) nofun nofun
    fun hr => hresult (Entry.returned.inj hr), fun hp => h.excused_of_prompt (hprompt hp)⟩

theorem cancel (h : Turn password cmd env l request reply) (notes : List Text)
    {result : Except Text Outcome} (hresult : result ≠ .ok .started)
    (hprompt : isPrompt result = false) (replies : List Reply) :
    let call := { l with notes := notes }.cancel replies
    Call.Keeps password cmd env ⟨call.login, call.replies, call.result.map fun _ => result⟩ := by
  obtain ⟨hkept, hdone, -⟩ := @Login.cancel_kept _ _ _ { l with notes := notes } h.justified
    h.notWaiting ⟨h.holds.password, h.holds.command⟩ replies
  refine ⟨hkept, fun r hr => ?_⟩
  obtain ⟨u, hu, rfl⟩ := Option.map_eq_some_iff.mp hr
  exact ⟨.plain (hdone (by rw [hu]; rfl)) hkept.notRefused nofun nofun
    fun hr => hresult (Entry.returned.inj hr), fun hp => absurd (hprompt.symm.trans hp) nofun⟩

end Turn

theorem Login.drive_keeps (replies : List Reply) (h : Pending password cmd env l request) :
    (l.drive request replies).Keeps password cmd env := by
  induction replies generalizing l request with
  | nil =>
      refine ⟨⟨h.justified.concat h.rule, not_refused_concat nofun, ?_⟩, nofun⟩
      exact ⟨h.holds.password, h.holds.command⟩
  | cons reply replies ih =>
      obtain ⟨hlog, hholds⟩ := h.got reply
      cases reply with
      | error e =>
          have hwaiting : ¬Waiting (l.log ++ [.sent request] ++ [.got (.error e)]) :=
            not_waiting_concat nofun
          have hrefused : ¬Refused (l.log ++ [.sent request] ++ [.got (.error e)]) :=
            not_refused_concat nofun
          refine ⟨⟨hlog, hrefused, ⟨hholds.password, hholds.command⟩⟩, ?_⟩
          rintro _ ⟨⟩
          exact ⟨.plain hwaiting hrefused nofun nofun nofun, nofun⟩
      | ok reply =>
          have hturn : Turn password cmd env ((l.write (.sent request)).write (.got (.ok reply)))
              request reply := ⟨hlog, ⟨hholds.password, hholds.command⟩,
                h.excused.imp_right fun hexcused => hexcused.concat _, h.notCancel, l.log, rfl⟩
          have hlook := ((l.write (.sent request)).write (.got (.ok reply))).look_spec reply
          rw [drive]
          generalize (l.write (.sent request)).write (.got (.ok reply)) = turn at hturn hlook ⊢
          generalize turn.look reply = next at hlook ⊢
          cases hlook with
          | started hreply hcmd => exact hturn.started hreply hcmd replies
          | start hreply hcmd => exact ih (hturn.start hreply hcmd)
          | error hreply notes result hresult hprompt =>
              exact hturn.cancel notes hresult hprompt replies
          | password hreply p hp => exact ih (hturn.secret hreply hp)
          | informational hreply notes => exact ih (hturn.informational hreply notes)
          | other hreply notes result hresult hprompt =>
              exact hturn.finish hreply notes hresult hprompt replies

/-! ### Calls, one after the other -/

theorem Call.Keeps.returned {call : Call (Except Text Outcome)}
    (h : call.Keeps password cmd env) : Kept password cmd env call.returned.login ∧
      (call.returned.result.isSome → ¬Waiting call.returned.login.log ∧
        Settled cmd env call.returned.login call.returned.login.log) := by
  obtain ⟨login, replies, result⟩ := call
  cases result with
  | none => exact ⟨h.1, nofun⟩
  | some result =>
      have hholds := h.1.holds.concat (e := .returned result) nofun nofun
      obtain ⟨hrule, hexcused⟩ := h.2 result rfl
      exact ⟨⟨h.1.justified.concat hrule, not_refused_concat nofun,
        ⟨hholds.password, hholds.command⟩⟩, fun _ => ⟨not_waiting_concat nofun,
          settled_returned hexcused⟩⟩

theorem Kept.respond (h : Kept password cmd env l) (hwaiting : ¬Waiting l.log)
    (hsettled : Settled cmd env l l.log) (response : Option Text) :
    Pending password cmd env l (.respond response) :=
  ⟨h.justified, .plain hwaiting h.notRefused nofun nofun nofun,
    h.holds.concat (e := .sent (.respond response)) nofun nofun, .inr (hsettled.excused response),
    nofun⟩

theorem Kept.asks (h : Kept password cmd env l) (hwaiting : ¬Waiting l.log)
    (hsettled : Settled cmd env l l.log) (asks : List Ask) (replies : List Reply) :
    Kept password cmd env (l.asks replies asks).login := by
  induction asks generalizing l replies with
  | nil => exact h
  | cons ask asks ih =>
      cases ask with
      | respond response =>
          obtain ⟨hkept, hdone⟩ :=
            (Login.drive_keeps replies (h.respond hwaiting hsettled response)).returned
          unfold Login.asks Login.respond
          generalize (l.drive (.respond response) replies).returned = call at hkept hdone ⊢
          obtain ⟨login, replies, result⟩ := call
          cases result with
          | none => exact hkept
          | some result => exact ih hkept (hdone rfl).1 (hdone rfl).2 replies
      | cancel =>
          obtain ⟨hkept, hdone, hstill⟩ := Login.cancel_kept h.justified hwaiting h.holds replies
          replace hstill := hstill hsettled
          unfold Login.asks
          generalize l.cancel replies = call at hkept hdone hstill ⊢
          obtain ⟨login, replies, result⟩ := call
          cases result with
          | none => exact hkept
          | some result => exact ih hkept (hdone rfl) hstill replies

theorem conversation_kept (user password : Text) (cmd env : List Text) (asks : List Ask)
    (replies : List Reply) :
    Kept password cmd env (conversation user password cmd env asks replies).login := by
  have hpending : Pending password cmd env
      { user := user, password := some password, cmd := cmd, env := env } (.createSession user) :=
    ⟨.nil, .plain (by rintro ⟨front, request, h⟩; simp at h)
      (by rintro ⟨front, request, reply, h, -⟩; simp at h) nofun nofun nofun,
      ⟨.inr ⟨rfl, by simp⟩, .inl ⟨rfl, rfl, by simp⟩⟩, .inr fun hne hcmd => absurd hcmd hne, nofun⟩
  obtain ⟨hkept, hdone⟩ := (Login.drive_keeps replies hpending).returned
  unfold conversation Login.start
  dsimp only
  generalize (Login.drive _ (.createSession user) replies).returned = call at hkept hdone ⊢
  obtain ⟨login, replies, result⟩ := call
  match result with
  | none => exact hkept
  | some (.error e) => exact hkept
  | some (.ok outcome) => exact hkept.asks (hdone rfl).1 (hdone rfl).2 asks replies

end MindOS.Shell.Greeter
