import MindOS.Transition
import Mathlib.Logic.Function.Basic

/-!
# The authentication agent

A request waits for its turn at a gate and then asks for a password, up to three times. The
answers of the dialog reach it by a channel that holds one of them, and so does a
cancellation. What the agent asks for reaches the dialog by the queue of the shell's events.

The log records what the claim of the component is about: cancellations and answers as they
come, checks as they start and dialogs as they are shown.
-/

namespace MindOS.Shell.Polkit

open Transition

/-- Password attempts per authorisation. -/
def maxTries : Nat := 3

/-- Who the dialog offers: the user at the keyboard when they qualify, else the first account
listed that is not `root`, else the first. -/
def pickUser (me : String) (users : List String) : Option String :=
  if users.contains me then some me
  else (users.find? (· ≠ "root")).or users.head?

/-- A call of `BeginAuthentication`. -/
structure Call where
  action : String := ""
  message : String := ""
  icon : String := ""
  command : String := ""
  cookie : String
  /-- The accounts that can authorise this. -/
  users : List String

/-- What the dialog is told to ask. -/
structure Ask where
  id : Nat
  call : Call
  user : String
  error : String
  attempt : Nat

/-- What the agent sends to the shell. -/
inductive Event where
  | ask (ask : Ask)
  | busy (id : Nat)
  | done (id : Nat)

/-- A password from the dialog, with the number of the answer. -/
structure Answer where
  password : String
  number : Nat
  deriving DecidableEq

inductive Phase where
  /-- It waits for the dialog. -/
  | asking
  /-- A password is being checked. -/
  | checking
  deriving DecidableEq

/-- The request whose turn it is. -/
structure Active where
  id : Nat
  call : Call
  user : String
  attempt : Nat := 1
  phase : Phase := .asking

/-- What `BeginAuthentication` returns. -/
inductive Result where
  | granted
  | cancelled
  | failed (error : String)

inductive Entry where
  | cancel (cookie : String)
  | answer (id number : Nat)
  | check (cookie : String) (id number : Nat)
  | shown (cookie : String) (id : Nat)
  deriving DecidableEq

structure Agent where
  /-- The user at the keyboard. -/
  me : String
  next : Nat := 1
  /-- Calls that wait for their turn. -/
  waiting : List Call := []
  active : Option Active := none
  /-- The channels, each with what it holds: a password or a cancellation. -/
  replies : Nat → Option (Option (Option Answer)) := fun _ => none
  pending : String → Option Nat := fun _ => none
  /-- The results, each with the request's number if it got one. -/
  returned : List (Option Nat × Result) := []
  events : List Event := []
  /-- What the shell's dialog shows, and whether it is busy. -/
  polkit : Option (Ask × Bool) := none
  popup : Bool := false
  answers : Nat := 0
  log : List Entry := []

inductive Step where
  | begin (call : Call)
  | cancel (cookie : String)
  /-- The dialog's answer, or its dismissal. -/
  | respond (id : Nat) (password : Option String)
  /-- The popup is closed. -/
  | dismiss
  /-- The next call has its turn. -/
  | enter
  /-- The request takes what its channel holds; a password is checked on a new thread, unless
  none can be started. -/
  | take (failure : Option String)
  /-- The check is over, with an error or without. -/
  | checked (error : Option String)
  /-- The shell handles an event of the agent; a popup needs a monitor. -/
  | handle (monitor : Bool)

namespace Agent

/-- A channel that holds something takes no more, nor does one that is gone. -/
def trySend (s : Agent) (id : Nat) (value : Option Answer) : Agent :=
  if s.replies id = some none then
    { s with replies := Function.update s.replies id (some (some value)) }
  else s

def respond (s : Agent) (id : Nat) (password : Option String) : Agent :=
  match password with
  | some password =>
      { s with answers := s.answers + 1, log := s.log ++ [Entry.answer id s.answers] }.trySend id
        (some ⟨password, s.answers⟩)
  | none => s.trySend id none

def note (s : Agent) (e : Entry) : Agent := { s with log := s.log ++ [e] }

def cancelAuthentication (s : Agent) (cookie : String) : Agent :=
  match s.pending cookie with
  | some id => (s.note (.cancel cookie)).trySend id none
  | none => s.note (.cancel cookie)

/-- Escape, or a click beside the dialog. -/
def closePopup (s : Agent) : Agent :=
  if s.popup then
    let s := { s with popup := false }
    match s.polkit with
    | some dialog => s.respond dialog.1.id none
    | none => s
  else s

def send (s : Agent) (e : Event) : Agent := { s with events := s.events ++ [e] }

/-- The dialog is asked for a password. -/
def asks (s : Agent) (a : Active) (error : String) : Agent :=
  { s with active := some { a with phase := .asking } }.send
    (.ask { id := a.id, call := a.call, user := a.user, error := error, attempt := a.attempt })

/-- The request returns. -/
def finish (s : Agent) (a : Active) (result : Result) : Agent :=
  { s with
    active := none
    replies := Function.update s.replies a.id none
    pending := Function.update s.pending a.call.cookie none
    returned := s.returned ++ [(some a.id, result)] }.send (.done a.id)

def enter (s : Agent) : Option Agent :=
  match s.active, s.waiting with
  | none, call :: rest =>
      match pickUser s.me call.users with
      | none =>
          some { s with
            waiting := rest
            returned := s.returned ++ [(none, Result.failed "no account can authorise this")] }
      | some user =>
          let a : Active := { id := s.next, call := call, user := user }
          some ({ s with
            waiting := rest
            next := s.next + 1
            replies := Function.update s.replies s.next (some none)
            pending := Function.update s.pending call.cookie (some s.next) }.asks a "")
  | _, _ => none

/-- The request starts to check a password. -/
def checks (s : Agent) (a : Active) (answer : Answer) : Agent :=
  { s with
    active := some { a with phase := .checking }
    replies := Function.update s.replies a.id (some none)
    log := s.log ++ [Entry.check a.call.cookie a.id answer.number] }.send (.busy a.id)

/-- No thread can be started: the error leaves the function at once. -/
def leave (s : Agent) (a : Active) (error : String) : Agent :=
  { s with
    active := none
    replies := Function.update s.replies a.id (some none)
    returned := s.returned ++ [(some a.id, Result.failed error)] }.send (.busy a.id)

def take (s : Agent) (failure : Option String) : Option Agent :=
  match s.active with
  | some a =>
      if a.phase = .asking then
        match s.replies a.id with
        | some (some none) => some (s.finish a .cancelled)
        | some (some (some answer)) =>
            match failure with
            | none => some (s.checks a answer)
            | some e => some (s.leave a ("cannot run the authentication helper: " ++ e))
        | _ => none
      else none
  | none => none

def checked (s : Agent) (error : Option String) : Option Agent :=
  match s.active with
  | some a =>
      if a.phase = .checking then
        match error with
        | none => some (s.finish a .granted)
        | some error =>
            if a.attempt < maxTries then some (s.asks { a with attempt := a.attempt + 1 } error)
            else some (s.finish a (.failed error))
      else none
  | none => none

/-- What the shell does with an event of the agent. -/
def onEvent (s : Agent) (monitor : Bool) : Event → Agent
  | .ask ask =>
      { s with
        polkit := some (ask, false)
        popup := s.popup || monitor
        log := s.log ++ [Entry.shown ask.call.cookie ask.id] }
  | .busy _ => { s with polkit := s.polkit.map fun dialog => (dialog.1, true) }
  | .done _ => { s with polkit := none, popup := false }

def handle (s : Agent) (monitor : Bool) : Option Agent :=
  match s.events with
  | e :: rest => some ({ s with events := rest }.onEvent monitor e)
  | [] => none

def step (s : Agent) : Step → Option Agent
  | .begin call => some { s with waiting := s.waiting ++ [call] }
  | .cancel cookie => some (s.cancelAuthentication cookie)
  | .respond id password => some (s.respond id password)
  | .dismiss => some s.closePopup
  | .enter => s.enter
  | .take failure => s.take failure
  | .checked error => s.checked error
  | .handle monitor => s.handle monitor

/-! ## What is to hold -/

/-- No check starts and no dialog is shown for what was cancelled, and a check is of an answer
to the request's own dialog that was not checked before. -/
def Allowed (front : List Entry) : Entry → Prop
  | .check cookie id number =>
      .cancel cookie ∉ front ∧ .answer id number ∈ front ∧ ∀ c i, .check c i number ∉ front
  | .shown cookie _ => .cancel cookie ∉ front
  | _ => True

/-- The request that the dialog is about when the events are handled. -/
def dialogAfter : Option Nat → List Event → Option Nat
  | shown, [] => shown
  | _, .ask ask :: rest => dialogAfter (some ask.id) rest
  | shown, .busy _ :: rest => dialogAfter shown rest
  | _, .done _ :: rest => dialogAfter none rest

/-- The request that the dialog is about. -/
def dialog (s : Agent) : Option Nat := s.polkit.map fun dialog => dialog.1.id

/-- A request that has returned has left nothing behind. -/
structure Cleared (s : Agent) (id : Nat) : Prop where
  replies : s.replies id = none
  pending : ∀ cookie, s.pending cookie ≠ some id
  dialog : dialogAfter s.dialog s.events ≠ some id

structure Good (s : Agent) : Prop where
  log : Justified Allowed s.log
  cleared : ∀ id result, (some id, result) ∈ s.returned → s.Cleared id
  /-- There is no dialog without a request. -/
  popup : s.popup = true → s.polkit.isSome = true

/-- An account can authorise the call. -/
def Authorisable (s : Agent) (call : Call) : Prop := (pickUser s.me call.users).isSome = true

/-- A cancellation finds its request in a state to take it, and a check can be started. -/
def Orderly (s : Agent) : Step → Prop
  | .begin call => s.Authorisable call → .cancel call.cookie ∉ s.log
  | .cancel cookie =>
      (∀ call ∈ s.waiting, s.Authorisable call → call.cookie ≠ cookie) ∧
      (∀ ask, .ask ask ∈ s.events → ask.call.cookie ≠ cookie) ∧
      ∀ a ∈ s.active, a.call.cookie = cookie → a.phase = .asking →
        ∀ answer, s.replies a.id ≠ some (some (some answer))
  | .take (some _) =>
      ∀ a ∈ s.active, ∀ answer, s.replies a.id ≠ some (some (some answer))
  | .checked (some _) => ∀ a ∈ s.active, a.attempt < maxTries → .cancel a.call.cookie ∉ s.log
  | _ => True

/-! ## The invariant -/

/-- What was answered and checked. -/
structure Books (s : Agent) : Prop where
  log : Justified Allowed s.log
  numbers : ∀ id number, .answer id number ∈ s.log → number < s.answers
  checked : ∀ cookie id number, .check cookie id number ∈ s.log → .answer id number ∈ s.log
  held : ∀ id answer, s.replies id = some (some (some answer)) →
    .answer id answer.number ∈ s.log ∧ ∀ c i, .check c i answer.number ∉ s.log

/-- The request whose turn it is, and no other, has a channel, an entry and the dialog. -/
structure Turn (s : Agent) : Prop where
  active : ∀ a ∈ s.active,
    (s.replies a.id).isSome = true ∧ s.pending a.call.cookie = some a.id ∧ a.id < s.next
  replies : ∀ id, (s.replies id).isSome = true → ∃ a ∈ s.active, a.id = id
  pending : ∀ cookie id, s.pending cookie = some id →
    ∃ a ∈ s.active, a.id = id ∧ a.call.cookie = cookie
  returned : ∀ id result, (some id, result) ∈ s.returned → id < s.next ∧ ∀ a ∈ s.active, a.id ≠ id
  dialog : dialogAfter s.dialog s.events = s.active.map Active.id
  popup : s.popup = true → s.polkit.isSome = true

/-- What was cancelled is not asked for, and the request has been told. -/
structure Heeded (s : Agent) : Prop where
  waiting : ∀ call ∈ s.waiting, s.Authorisable call → .cancel call.cookie ∉ s.log
  asked : ∀ ask, .ask ask ∈ s.events → .cancel ask.call.cookie ∉ s.log
  active : ∀ a ∈ s.active, a.phase = .asking → .cancel a.call.cookie ∈ s.log →
    s.replies a.id = some (some none)

structure Inv (s : Agent) : Prop where
  books : s.Books
  turn : s.Turn
  heeded : s.Heeded

theorem Inv.good {s : Agent} (h : s.Inv) : s.Good where
  log := h.books.log
  cleared id result hreturned := by
    have hother := (h.turn.returned id result hreturned).2
    constructor
    · rw [← Option.not_isSome_iff_eq_none]
      intro hsome
      obtain ⟨a, ha, hid⟩ := h.turn.replies id hsome
      exact hother a ha hid
    · intro cookie hpending
      obtain ⟨a, ha, hid, -⟩ := h.turn.pending cookie id hpending
      exact hother a ha hid
    · rw [h.turn.dialog]
      intro hdialog
      obtain ⟨a, ha, hid⟩ := Option.map_eq_some_iff.mp hdialog
      exact hother a ha hid
  popup := h.turn.popup

theorem Inv.start (me : String) : Inv { me := me } where
  books :=
    { log := Justified.nil
      numbers := fun _ _ h => absurd h List.not_mem_nil
      checked := fun _ _ _ h => absurd h List.not_mem_nil
      held := fun _ _ h => nomatch h }
  turn :=
    { active := fun _ h => nomatch h
      replies := fun _ h => nomatch h
      pending := fun _ _ h => nomatch h
      returned := fun _ _ h => absurd h List.not_mem_nil
      dialog := rfl
      popup := fun h => nomatch h }
  heeded :=
    { waiting := fun _ h => absurd h List.not_mem_nil
      asked := fun _ h => absurd h List.not_mem_nil
      active := fun _ h => nomatch h }

variable {s t : Agent}

/-- What the channels and entries know a request by. -/
def key (a : Active) : Nat × String := (a.id, a.call.cookie)

theorem exists_of_key {o p : Option Active} (h : o.map key = p.map key) {a : Active}
    (ha : a ∈ o) : ∃ b ∈ p, b.id = a.id ∧ b.call.cookie = a.call.cookie := by
  obtain rfl : o = some a := ha
  obtain ⟨b, hb, hkey⟩ := Option.map_eq_some_iff.mp h.symm
  obtain ⟨hid, hcookie⟩ := Prod.mk.inj hkey
  exact ⟨b, hb, hid, hcookie⟩

theorem Turn.frame (h : s.Turn) (hkey : t.active.map key = s.active.map key)
    (hreplies : ∀ id, (t.replies id).isSome = (s.replies id).isSome)
    (hpending : t.pending = s.pending) (hnext : t.next = s.next)
    (hreturned : t.returned = s.returned)
    (hdialog : dialogAfter t.dialog t.events = dialogAfter s.dialog s.events)
    (hpopup : t.popup = true → t.polkit.isSome = true) : t.Turn where
  active b hb := by
    obtain ⟨a, ha, hid, hcookie⟩ := exists_of_key hkey hb
    rw [hreplies, hpending, hnext, ← hid, ← hcookie]
    exact h.active a ha
  replies id hsome := by
    obtain ⟨a, ha, hid⟩ := h.replies id ((hreplies id).symm.trans hsome)
    obtain ⟨b, hb, hbid, -⟩ := exists_of_key hkey.symm ha
    exact ⟨b, hb, hbid.trans hid⟩
  pending cookie id hentry := by
    obtain ⟨a, ha, hid, hcookie⟩ := h.pending cookie id (hpending ▸ hentry)
    obtain ⟨b, hb, hbid, hbcookie⟩ := exists_of_key hkey.symm ha
    exact ⟨b, hb, hbid.trans hid, hbcookie.trans hcookie⟩
  returned id result hmem := by
    obtain ⟨hlt, hother⟩ := h.returned id result (hreturned ▸ hmem)
    refine ⟨hnext ▸ hlt, fun b hb => ?_⟩
    obtain ⟨a, ha, hid, -⟩ := exists_of_key hkey hb
    exact hid ▸ hother a ha
  dialog := by
    rw [hdialog, h.dialog]
    have hids := congrArg (Option.map Prod.fst) hkey
    rw [Option.map_map, Option.map_map] at hids
    exact hids.symm
  popup := hpopup

/-! ## The channels -/

theorem trySend_cases (s : Agent) (id : Nat) (value : Option Answer) :
    s.trySend id value = s ∨ s.replies id = some none ∧ s.trySend id value =
      { s with replies := Function.update s.replies id (some (some value)) } := by
  unfold trySend
  by_cases hempty : s.replies id = some none
  · exact .inr ⟨hempty, if_pos hempty⟩
  · exact .inl (if_neg hempty)

theorem Books.trySend (h : s.Books) (id : Nat) {value : Option Answer}
    (hvalue : ∀ answer ∈ value,
      .answer id answer.number ∈ s.log ∧ ∀ c i, .check c i answer.number ∉ s.log) :
    (s.trySend id value).Books := by
  obtain hsame | ⟨-, heq⟩ := s.trySend_cases id value
  · rwa [hsame]
  · rw [heq]
    refine ⟨h.log, h.numbers, h.checked, fun other answer hheld => ?_⟩
    replace hheld : Function.update s.replies id (some (some value)) other = _ := hheld
    by_cases hother : other = id
    · subst hother
      rw [Function.update_self] at hheld
      exact hvalue answer (Option.some.inj (Option.some.inj hheld))
    · rw [Function.update_of_ne hother] at hheld
      exact h.held other answer hheld

theorem isSome_update {id : Nat} {held : Option (Option Answer)} (h : (s.replies id).isSome = true)
    (other : Nat) :
    (Function.update s.replies id (some held) other).isSome = (s.replies other).isSome := by
  by_cases hother : other = id
  · subst hother
    rw [Function.update_self, h]
    rfl
  · rw [Function.update_of_ne hother]

theorem Turn.trySend (h : s.Turn) (id : Nat) (value : Option Answer) :
    (s.trySend id value).Turn := by
  obtain hsame | ⟨hempty, heq⟩ := s.trySend_cases id value
  · rwa [hsame]
  · rw [heq]
    exact h.frame rfl (isSome_update (by rw [hempty]; rfl)) rfl rfl rfl rfl h.popup

theorem Heeded.trySend (h : s.Heeded) (id : Nat) (value : Option Answer) :
    (s.trySend id value).Heeded := by
  obtain hsame | ⟨hempty, heq⟩ := s.trySend_cases id value
  · rwa [hsame]
  · rw [heq]
    refine ⟨h.waiting, h.asked, fun a ha hphase hcancel => ?_⟩
    have hold := h.active a ha hphase hcancel
    have hne : a.id ≠ id := by
      rintro rfl
      rw [hempty] at hold
      cases hold
    exact (Function.update_of_ne hne _ _).trans hold

theorem Inv.dismissed (h : s.Inv) (id : Nat) : (s.trySend id none).Inv where
  books := h.books.trySend id fun _ ha => nomatch ha
  turn := h.turn.trySend id none
  heeded := h.heeded.trySend id none

/-! ## What a step leaves alone -/

theorem mem_of_mem_concat {log : List Entry} {d e : Entry} (h : d ∈ log ++ [e]) (hne : d ≠ e) :
    d ∈ log :=
  (List.mem_append.mp h).resolve_right fun heq => hne (List.mem_singleton.mp heq)

theorem Books.concat (h : s.Books) {e : Entry} (hallowed : Allowed s.log e)
    (hanswer : ∀ id number, Entry.answer id number ≠ e)
    (hcheck : ∀ cookie id number, Entry.check cookie id number ≠ e) :
    (s.note e).Books where
  log := h.log.concat hallowed
  numbers id number hmem := h.numbers id number (mem_of_mem_concat hmem (hanswer id number))
  checked cookie id number hmem :=
    List.mem_append_left _ (h.checked cookie id number
      (mem_of_mem_concat hmem (hcheck cookie id number)))
  held id answer hheld :=
    ⟨List.mem_append_left _ (h.held id answer hheld).1, fun c i hmem =>
      (h.held id answer hheld).2 c i (mem_of_mem_concat hmem (hcheck c i _))⟩

theorem Books.frame (h : s.Books) (hlog : t.log = s.log) (hanswers : t.answers = s.answers)
    (hreplies : ∀ id answer, t.replies id = some (some (some answer)) →
      s.replies id = some (some (some answer))) : t.Books where
  log := hlog ▸ h.log
  numbers := hlog ▸ hanswers ▸ h.numbers
  checked := hlog ▸ h.checked
  held id answer hheld := hlog ▸ h.held id answer (hreplies id answer hheld)

theorem Heeded.frame (h : s.Heeded) (hme : t.me = s.me)
    (hwaiting : ∀ call ∈ t.waiting, call ∈ s.waiting)
    (hasked : ∀ ask, .ask ask ∈ t.events → .ask ask ∈ s.events)
    (hactive : ∀ a ∈ t.active, a.phase = .asking →
      a ∈ s.active ∧ t.replies a.id = s.replies a.id)
    (hlog : ∀ cookie, .cancel cookie ∈ t.log → .cancel cookie ∈ s.log) : t.Heeded where
  waiting call hcall hauthorisable hcancel := by
    rw [Authorisable, hme] at hauthorisable
    exact h.waiting call (hwaiting call hcall) hauthorisable (hlog _ hcancel)
  asked ask hask hcancel := h.asked ask (hasked ask hask) (hlog _ hcancel)
  active a ha hphase hcancel := by
    obtain ⟨hold, hreplies⟩ := hactive a ha hphase
    rw [hreplies]
    exact h.active a hold hphase (hlog _ hcancel)

theorem Inv.respond (h : s.Inv) (id : Nat) (password : Option String) :
    (s.respond id password).Inv := by
  cases password with
  | none => exact h.dismissed id
  | some password =>
      have hnew : ∀ i, .answer i s.answers ∉ s.log := fun i hi =>
        Nat.lt_irrefl _ (h.books.numbers i _ hi)
      have hbooks : Books { s with
          answers := s.answers + 1, log := s.log ++ [Entry.answer id s.answers] } := by
        refine ⟨h.books.log.concat trivial, ?_, ?_, ?_⟩
        · intro i number hmem
          by_cases heq : Entry.answer i number = .answer id s.answers
          · obtain ⟨-, rfl⟩ := Entry.answer.inj heq
            exact Nat.lt_succ_self _
          · exact Nat.lt_succ_of_lt (h.books.numbers i number (mem_of_mem_concat hmem heq))
        · intro cookie i number hmem
          have hold := mem_of_mem_concat hmem nofun
          exact List.mem_append_left _ (h.books.checked cookie i number hold)
        · intro i answer hheld
          obtain ⟨hanswer, hunchecked⟩ := h.books.held i answer hheld
          exact ⟨List.mem_append_left _ hanswer, fun c j hmem =>
            hunchecked c j (mem_of_mem_concat hmem nofun)⟩
      have hturn : Turn { s with
          answers := s.answers + 1, log := s.log ++ [Entry.answer id s.answers] } :=
        h.turn.frame rfl (fun _ => rfl) rfl rfl rfl rfl h.turn.popup
      have hheeded : Heeded { s with
          answers := s.answers + 1, log := s.log ++ [Entry.answer id s.answers] } :=
        h.heeded.frame rfl (fun _ hcall => hcall) (fun _ hask => hask)
          (fun _ ha _ => ⟨ha, rfl⟩) fun _ hcancel => mem_of_mem_concat hcancel nofun
      refine ⟨hbooks.trySend id ?_, hturn.trySend id _, hheeded.trySend id _⟩
      rintro answer ⟨⟩
      refine ⟨List.mem_append_right _ List.mem_cons_self, fun c i hmem => ?_⟩
      exact hnew i (h.books.checked c i _ (mem_of_mem_concat hmem nofun))

theorem Inv.closePopup (h : s.Inv) : s.closePopup.Inv := by
  have hclosed : Inv { s with popup := false } :=
    ⟨h.books.frame rfl rfl fun _ _ hheld => hheld,
      h.turn.frame rfl (fun _ => rfl) rfl rfl rfl rfl fun hpopup => (nomatch hpopup),
      ⟨h.heeded.waiting, h.heeded.asked, h.heeded.active⟩⟩
  unfold Agent.closePopup
  by_cases hpopup : s.popup = true
  · rw [if_pos hpopup]
    cases hdialog : s.polkit with
    | none => simpa only [hdialog] using hclosed
    | some dialog => simpa only [hdialog] using hclosed.respond dialog.1.id none
  · rwa [if_neg hpopup]

theorem trySend_none_told {id : Nat} (hsome : (s.replies id).isSome = true)
    (hanswer : ∀ answer, s.replies id ≠ some (some (some answer))) :
    (s.trySend id none).replies id = some (some none) := by
  unfold trySend
  by_cases hempty : s.replies id = some none
  · rw [if_pos hempty]
    exact Function.update_self ..
  · rw [if_neg hempty]
    obtain ⟨held, hheld⟩ := Option.isSome_iff_exists.mp hsome
    cases held with
    | none => exact absurd hheld hempty
    | some value =>
        cases value with
        | none => exact hheld
        | some answer => exact absurd hheld (hanswer answer)

theorem trySend_replies_of_ne {id other : Nat} {value : Option Answer}
    (h : s.replies other ≠ some none) : (s.trySend id value).replies other = s.replies other := by
  obtain hsame | ⟨hempty, heq⟩ := s.trySend_cases id value
  · rw [hsame]
  · rw [heq]
    have hne : other ≠ id := fun he => h (he ▸ hempty)
    exact Function.update_of_ne hne ..

theorem Heeded.cancel {cookie : String} (h : s.Heeded) (horderly : s.Orderly (.cancel cookie))
    (hme : t.me = s.me) (hwaiting : t.waiting = s.waiting) (hevents : t.events = s.events)
    (hlog : t.log = s.log ++ [.cancel cookie])
    (hactive : ∀ a ∈ t.active, a.phase = .asking →
      (a.call.cookie = cookie ∨ .cancel a.call.cookie ∈ s.log) →
        t.replies a.id = some (some none)) : t.Heeded := by
  obtain ⟨hnone, hasked, -⟩ := horderly
  have hold : ∀ other, other ≠ cookie → .cancel other ∈ t.log → .cancel other ∈ s.log :=
    fun other hne hmem => mem_of_mem_concat (hlog ▸ hmem) fun heq => hne (Entry.cancel.inj heq)
  refine ⟨fun call hcall hauthorisable hcancel => ?_, fun ask hask hcancel => ?_, ?_⟩
  · rw [Authorisable, hme] at hauthorisable
    rw [hwaiting] at hcall
    have hne := hnone call hcall hauthorisable
    exact h.waiting call hcall hauthorisable (hold _ hne hcancel)
  · rw [hevents] at hask
    exact h.asked ask hask (hold _ (hasked ask hask) hcancel)
  · intro a ha hphase hcancel
    refine hactive a ha hphase ?_
    by_cases heq : a.call.cookie = cookie
    · exact .inl heq
    · exact .inr (hold _ heq hcancel)

theorem Inv.cancel {cookie : String} (h : s.Inv) (horderly : s.Orderly (.cancel cookie)) :
    (s.cancelAuthentication cookie).Inv := by
  have hbooks : (s.note (.cancel cookie)).Books :=
    h.books.concat trivial (fun _ _ => nofun) fun _ _ _ => nofun
  have hturn : (s.note (.cancel cookie)).Turn :=
    h.turn.frame rfl (fun _ => rfl) rfl rfl rfl rfl h.turn.popup
  unfold cancelAuthentication
  cases hpending : s.pending cookie with
  | none =>
      refine ⟨hbooks, hturn, h.heeded.cancel horderly rfl rfl rfl rfl fun a ha hphase hcancel => ?_⟩
      obtain heq | hcancel := hcancel
      · have hentry := (h.turn.active a ha).2.1
        rw [heq, hpending] at hentry
        cases hentry
      · exact h.heeded.active a ha hphase hcancel
  | some id =>
      refine ⟨hbooks.trySend id fun _ ha => (nomatch ha), hturn.trySend id none, ?_⟩
      have hfields : ∀ u : Agent, (u.trySend id none).me = u.me ∧
          (u.trySend id none).waiting = u.waiting ∧ (u.trySend id none).events = u.events ∧
          (u.trySend id none).log = u.log ∧ (u.trySend id none).active = u.active := by
        intro u
        obtain hsame | ⟨-, heq⟩ := u.trySend_cases id none
        · rw [hsame]
          exact ⟨rfl, rfl, rfl, rfl, rfl⟩
        · rw [heq]
          exact ⟨rfl, rfl, rfl, rfl, rfl⟩
      obtain ⟨hme, hwaiting, hevents, hlog, hactive⟩ :=
        hfields (s.note (.cancel cookie))
      refine h.heeded.cancel horderly hme hwaiting hevents hlog fun a ha hphase hcancel => ?_
      replace ha : a ∈ s.active := hactive ▸ ha
      obtain ⟨hsome, hentry, -⟩ := h.turn.active a ha
      obtain heq | hcancel := hcancel
      · rw [heq, hpending] at hentry
        obtain rfl := Option.some.inj hentry
        exact trySend_none_told hsome (horderly.2.2 a ha heq hphase)
      · have htold := h.heeded.active a ha hphase hcancel
        have hne : s.replies a.id ≠ some none := by
          rw [htold]
          exact nofun
        exact (trySend_replies_of_ne (s := s.note (.cancel cookie)) hne).trans htold

/-! ## The request -/

theorem dialogAfter_append (shown : Option Nat) (front back : List Event) :
    dialogAfter shown (front ++ back) = dialogAfter (dialogAfter shown front) back := by
  induction front generalizing shown with
  | nil => rfl
  | cons e front ih => cases e <;> exact ih _

theorem Inv.finish {a : Active} (h : s.Inv) (ha : s.active = some a) (result : Result) :
    (s.finish a result).Inv where
  books := by
    refine h.books.frame rfl rfl fun id answer hheld => ?_
    replace hheld : Function.update s.replies a.id none id = _ := hheld
    by_cases hid : id = a.id
    · subst hid
      rw [Function.update_self] at hheld
      cases hheld
    · rwa [Function.update_of_ne hid] at hheld
  turn := by
    have hactive := h.turn.active a ha
    refine ⟨fun _ hnone => (nomatch hnone), fun id hsome => ?_, fun cookie id hpending => ?_,
      fun id r hmem => ?_, ?_, h.turn.popup⟩
    · replace hsome : (Function.update s.replies a.id none id).isSome = true := hsome
      by_cases hid : id = a.id
      · subst hid
        rw [Function.update_self] at hsome
        cases hsome
      · rw [Function.update_of_ne hid] at hsome
        obtain ⟨b, hb, hbid⟩ := h.turn.replies id hsome
        obtain rfl := Option.some.inj (ha.symm.trans hb)
        exact absurd hbid.symm hid
    · replace hpending : Function.update s.pending a.call.cookie none cookie = _ := hpending
      by_cases hcookie : cookie = a.call.cookie
      · subst hcookie
        rw [Function.update_self] at hpending
        cases hpending
      · rw [Function.update_of_ne hcookie] at hpending
        obtain ⟨b, hb, -, hbcookie⟩ := h.turn.pending cookie id hpending
        obtain rfl := Option.some.inj (ha.symm.trans hb)
        exact absurd hbcookie.symm hcookie
    · refine ⟨?_, fun _ hnone => (nomatch hnone)⟩
      obtain hold | hnew := List.mem_append.mp hmem
      · exact (h.turn.returned id r hold).1
      · obtain ⟨hid, -⟩ := Prod.mk.inj (List.mem_singleton.mp hnew)
        rw [Option.some.inj hid]
        exact hactive.2.2
    · show dialogAfter s.dialog (s.events ++ [.done a.id]) = none
      rw [dialogAfter_append]
      rfl
  heeded := by
    refine h.heeded.frame rfl (fun _ hcall => hcall) (fun ask hask => ?_)
      (fun _ hnone => nomatch hnone) fun _ hcancel => hcancel
    simpa [Agent.finish, send] using hask

theorem Heeded.asks {a : Active} {error : String} (h : s.Heeded)
    (hcookie : .cancel a.call.cookie ∉ s.log) : (s.asks a error).Heeded where
  waiting := h.waiting
  asked ask hask := by
    obtain hold | hnew := List.mem_append.mp hask
    · exact h.asked ask hold
    · obtain rfl := Event.ask.inj (List.mem_singleton.mp hnew)
      exact hcookie
  active b hb _ hcancel := by
    obtain rfl := Option.some.inj hb
    exact absurd hcancel hcookie

theorem Turn.asks {a b : Active} {error : String} (h : s.Turn) (ha : s.active = some a)
    (hid : b.id = a.id) (hcookie : b.call.cookie = a.call.cookie) : (s.asks b error).Turn := by
  refine h.frame ?_ (fun _ => rfl) rfl rfl rfl ?_ h.popup
  · rw [ha]
    exact congrArg some (Prod.ext hid hcookie)
  · rw [h.dialog, ha]
    show dialogAfter s.dialog (s.events ++ [.ask _]) = some a.id
    rw [dialogAfter_append, ← hid]
    rfl

/-- The call that nobody can authorise is returned, and the next call waits. -/
def denied (s : Agent) (rest : List Call) : Agent :=
  { s with
    waiting := rest
    returned := s.returned ++ [(none, Result.failed "no account can authorise this")] }

/-- The call whose turn it is gets a channel, an entry and the dialog. -/
def entered (s : Agent) (call : Call) (rest : List Call) (user : String) : Agent :=
  { s with
    waiting := rest
    next := s.next + 1
    replies := Function.update s.replies s.next (some none)
    pending := Function.update s.pending call.cookie (some s.next) }.asks
      { id := s.next, call := call, user := user } ""

theorem enter_cases (ht : s.enter = some t) : ∃ call rest, s.active = none ∧
    s.waiting = call :: rest ∧
      (pickUser s.me call.users = none ∧ t = s.denied rest ∨
        ∃ user, pickUser s.me call.users = some user ∧ t = s.entered call rest user) := by
  unfold Agent.enter at ht
  split at ht
  case h_1 call rest hactive hwaiting =>
    refine ⟨call, rest, hactive, hwaiting, ?_⟩
    split at ht
    case h_1 hnobody => exact .inl ⟨hnobody, (Option.some.inj ht).symm⟩
    case h_2 user huser => exact .inr ⟨user, huser, (Option.some.inj ht).symm⟩
  case h_2 => cases ht

theorem Inv.denied {call : Call} {rest : List Call} (h : s.Inv)
    (hwaiting : s.waiting = call :: rest) : (s.denied rest).Inv := by
  refine ⟨h.books.frame rfl rfl fun _ _ hheld => hheld,
    ⟨h.turn.active, h.turn.replies, h.turn.pending, fun id r hmem => ?_, h.turn.dialog,
      h.turn.popup⟩,
    h.heeded.frame rfl (fun c hc => ?_) (fun _ hask => hask) (fun _ ha _ => ⟨ha, rfl⟩)
      fun _ hcancel => hcancel⟩
  · refine h.turn.returned id r ?_
    simpa [Agent.denied] using hmem
  · rw [hwaiting]
    exact List.mem_cons_of_mem _ hc

theorem Turn.entered (h : s.Turn) (hactive : s.active = none) (call : Call) (rest : List Call)
    (user : String) : (s.entered call rest user).Turn := by
  have hreplies : ∀ id, s.replies id = none := fun id => by
    rw [← Option.not_isSome_iff_eq_none]
    intro hsome
    obtain ⟨a, ha, -⟩ := h.replies id hsome
    exact nomatch hactive.symm.trans ha
  refine ⟨fun a ha => ?_, fun id hsome => ?_, fun cookie id hpending => ?_,
    fun id r hmem => ?_, ?_, h.popup⟩
  · obtain rfl := Option.some.inj ha
    refine ⟨?_, Function.update_self .., Nat.lt_succ_self _⟩
    show (Function.update s.replies s.next (some none) s.next).isSome = true
    rw [Function.update_self]
    rfl
  · replace hsome : (Function.update s.replies s.next (some none) id).isSome = true := hsome
    by_cases hid : id = s.next
    · exact ⟨_, rfl, hid.symm⟩
    · rw [Function.update_of_ne hid, hreplies] at hsome
      cases hsome
  · replace hpending : Function.update s.pending call.cookie (some s.next) cookie = _ :=
      hpending
    by_cases hsame : cookie = call.cookie
    · subst hsame
      rw [Function.update_self] at hpending
      exact ⟨_, rfl, Option.some.inj hpending, rfl⟩
    · rw [Function.update_of_ne hsame] at hpending
      obtain ⟨a, ha, -⟩ := h.pending cookie id hpending
      exact nomatch hactive.symm.trans ha
  · obtain ⟨hlt, -⟩ := h.returned id r hmem
    refine ⟨Nat.lt_succ_of_lt hlt, fun a ha => ?_⟩
    obtain rfl := Option.some.inj ha
    exact (Nat.ne_of_lt hlt).symm
  · show dialogAfter s.dialog (s.events ++ [.ask _]) = some s.next
    rw [dialogAfter_append]
    rfl

theorem Inv.entered {call : Call} {rest : List Call} {user : String} (h : s.Inv)
    (hactive : s.active = none) (hwaiting : s.waiting = call :: rest)
    (huser : pickUser s.me call.users = some user) : (s.entered call rest user).Inv := by
  have hcookie : .cancel call.cookie ∉ s.log := by
    refine h.heeded.waiting call (hwaiting ▸ List.mem_cons_self) ?_
    rw [Authorisable, huser]
    rfl
  refine ⟨?_, h.turn.entered hactive call rest user, ?_⟩
  · refine h.books.frame rfl rfl fun id answer hheld => ?_
    replace hheld : Function.update s.replies s.next (some none) id = _ := hheld
    by_cases hid : id = s.next
    · subst hid
      rw [Function.update_self] at hheld
      cases hheld
    · rwa [Function.update_of_ne hid] at hheld
  · refine ⟨fun c hc => ?_, fun ask hask => ?_, fun a ha _ hcancel => ?_⟩
    · exact h.heeded.waiting c (hwaiting ▸ List.mem_cons_of_mem _ hc)
    · obtain hold | hnew := List.mem_append.mp hask
      · exact h.heeded.asked ask hold
      · obtain rfl := Event.ask.inj (List.mem_singleton.mp hnew)
        exact hcookie
    · obtain rfl := Option.some.inj ha
      exact absurd hcancel hcookie

theorem Inv.enter (h : s.Inv) (ht : s.enter = some t) : t.Inv := by
  obtain ⟨call, rest, hactive, hwaiting, ⟨-, rfl⟩ | ⟨user, huser, rfl⟩⟩ := enter_cases ht
  · exact h.denied hwaiting
  · exact h.entered hactive hwaiting huser

theorem Inv.checks {a : Active} {answer : Answer} (h : s.Inv) (ha : s.active = some a)
    (hphase : a.phase = .asking) (hheld : s.replies a.id = some (some (some answer))) :
    (s.checks a answer).Inv := by
  obtain ⟨hanswer, hunchecked⟩ := h.books.held a.id answer hheld
  have hcookie : .cancel a.call.cookie ∉ s.log := by
    intro hcancel
    have htold := h.heeded.active a ha hphase hcancel
    rw [hheld] at htold
    cases htold
  have hempty : ∀ id held, (s.checks a answer).replies id = some (some held) → False := by
    intro id held hid
    replace hid : Function.update s.replies a.id (some none) id = _ := hid
    by_cases hsame : id = a.id
    · subst hsame
      rw [Function.update_self] at hid
      cases hid
    · rw [Function.update_of_ne hsame] at hid
      obtain ⟨b, hb, hbid⟩ := h.turn.replies id (by rw [hid]; rfl)
      obtain rfl := Option.some.inj (ha.symm.trans hb)
      exact hsame hbid.symm
  refine ⟨⟨h.books.log.concat ⟨hcookie, hanswer, hunchecked⟩, ?_, ?_, ?_⟩, ?_, ?_⟩
  · exact fun id number hmem => h.books.numbers id number (mem_of_mem_concat hmem nofun)
  · intro cookie id number hmem
    refine List.mem_append_left _ ?_
    obtain hold | hnew := List.mem_append.mp hmem
    · exact h.books.checked cookie id number hold
    · obtain ⟨-, rfl, rfl⟩ := Entry.check.inj (List.mem_singleton.mp hnew)
      exact hanswer
  · exact fun id held hid => (hempty id _ hid).elim
  · have hopen : (s.replies a.id).isSome = true := by
      rw [hheld]
      rfl
    refine h.turn.frame ?_ (isSome_update hopen) rfl rfl rfl ?_ h.turn.popup
    · rw [ha]
      rfl
    · show dialogAfter s.dialog (s.events ++ [.busy a.id]) = _
      rw [dialogAfter_append]
      rfl
  · refine h.heeded.frame rfl (fun _ hcall => hcall) (fun ask hask => ?_) (fun b hb hasking => ?_)
      fun _ hcancel => mem_of_mem_concat hcancel nofun
    · simpa [Agent.checks, send] using hask
    · obtain rfl := Option.some.inj hb
      cases hasking

theorem Inv.take {failure : Option String} (h : s.Inv) (ht : s.take failure = some t)
    (horderly : s.Orderly (.take failure)) : t.Inv := by
  unfold Agent.take at ht
  split at ht
  case h_1 a ha =>
    obtain ⟨hphase, ht⟩ := Option.ite_none_right_eq_some.mp ht
    split at ht
    case h_1 hheld =>
      obtain rfl := Option.some.inj ht
      exact h.finish ha .cancelled
    case h_2 answer hheld =>
      cases failure with
      | none =>
          obtain rfl := Option.some.inj ht
          exact h.checks ha hphase hheld
      | some e => exact absurd hheld (horderly a ha answer)
    case h_3 => cases ht
  case h_2 => cases ht

theorem Inv.checked {error : Option String} (h : s.Inv) (ht : s.checked error = some t)
    (horderly : s.Orderly (.checked error)) : t.Inv := by
  unfold Agent.checked at ht
  split at ht
  case h_1 a ha =>
    obtain ⟨hphase, ht⟩ := Option.ite_none_right_eq_some.mp ht
    cases error with
    | none =>
        obtain rfl := Option.some.inj ht
        exact h.finish ha .granted
    | some error =>
        by_cases hagain : a.attempt < maxTries
        · have ht := (if_pos hagain).symm.trans ht
          obtain rfl := Option.some.inj ht
          exact ⟨h.books.frame rfl rfl fun _ _ hheld => hheld, h.turn.asks ha rfl rfl,
            h.heeded.asks (horderly a ha hagain)⟩
        · have ht := (if_neg hagain).symm.trans ht
          obtain rfl := Option.some.inj ht
          exact h.finish ha (.failed error)
  case h_2 => cases ht

theorem Inv.onEvent {e : Event} {rest : List Event} (h : s.Inv) (hevents : s.events = e :: rest)
    (monitor : Bool) : ({ s with events := rest }.onEvent monitor e).Inv := by
  have hasked : ∀ ask, .ask ask ∈ rest → .ask ask ∈ s.events := fun ask hask =>
    hevents ▸ List.mem_cons_of_mem _ hask
  have hdialog : dialogAfter s.dialog s.events = dialogAfter s.dialog (e :: rest) := by
    rw [hevents]
  cases e with
  | ask ask =>
      have hcookie := h.heeded.asked ask (hevents ▸ List.mem_cons_self)
      have hbooks := h.books.concat (e := .shown ask.call.cookie ask.id) hcookie
        (fun _ _ => nofun) fun _ _ _ => nofun
      exact ⟨hbooks.frame rfl rfl fun _ _ hheld => hheld,
        h.turn.frame rfl (fun _ => rfl) rfl rfl rfl hdialog.symm fun _ => rfl,
        h.heeded.frame rfl (fun _ hcall => hcall) hasked (fun _ ha _ => ⟨ha, rfl⟩)
          fun _ hcancel => mem_of_mem_concat hcancel nofun⟩
  | busy id =>
      refine ⟨h.books.frame rfl rfl fun _ _ hheld => hheld,
        h.turn.frame rfl (fun _ => rfl) rfl rfl rfl ?_ fun hpopup => ?_,
        h.heeded.frame rfl (fun _ hcall => hcall) hasked (fun _ ha _ => ⟨ha, rfl⟩)
          fun _ hcancel => hcancel⟩
      · rw [hdialog]
        show dialogAfter (Option.map _ (Option.map _ s.polkit)) rest = _
        rw [Option.map_map]
        rfl
      · show (Option.map _ s.polkit).isSome = true
        rw [Option.isSome_map]
        exact h.turn.popup hpopup
  | done id =>
      exact ⟨h.books.frame rfl rfl fun _ _ hheld => hheld,
        h.turn.frame rfl (fun _ => rfl) rfl rfl rfl hdialog.symm fun hpopup => (nomatch hpopup),
        h.heeded.frame rfl (fun _ hcall => hcall) hasked (fun _ ha _ => ⟨ha, rfl⟩)
          fun _ hcancel => hcancel⟩

theorem Inv.begin {call : Call} (h : s.Inv) (horderly : s.Orderly (.begin call)) :
    Inv { s with waiting := s.waiting ++ [call] } where
  books := h.books.frame rfl rfl fun _ _ hheld => hheld
  turn := h.turn.frame rfl (fun _ => rfl) rfl rfl rfl rfl h.turn.popup
  heeded := by
    refine ⟨fun c hc hauthorisable => ?_, h.heeded.asked, h.heeded.active⟩
    obtain hold | hnew := List.mem_append.mp hc
    · exact h.heeded.waiting c hold hauthorisable
    · obtain rfl := List.mem_singleton.mp hnew
      exact horderly hauthorisable

theorem Inv.step {e : Step} (h : s.Inv) (ht : step s e = some t) (horderly : s.Orderly e) :
    t.Inv := by
  cases e with
  | begin call => exact Option.some.inj ht ▸ h.begin horderly
  | cancel cookie => exact Option.some.inj ht ▸ h.cancel horderly
  | respond id password => exact Option.some.inj ht ▸ h.respond id password
  | dismiss => exact Option.some.inj ht ▸ h.closePopup
  | enter => exact h.enter ht
  | take failure => exact h.take ht horderly
  | checked error => exact h.checked ht horderly
  | handle monitor =>
      have ht : s.handle monitor = some t := ht
      unfold Agent.handle at ht
      split at ht
      case h_1 e rest hevents =>
        obtain rfl := Option.some.inj ht
        exact h.onEvent hevents monitor
      case h_2 => cases ht

/-- In an orderly run no check starts and no dialog is shown for what was cancelled, each
answer is checked once at most, and what returns leaves nothing behind. -/
theorem good_along (me : String) (steps : List Step)
    (h : Along step (fun s e _ => s.Orderly e) { me := me } steps) :
    Along step (fun _ _ t => t.Good) { me := me } steps :=
  h.imp Inv (fun _ _ _ hs ht horderly => hs.step ht horderly)
    (fun _ _ _ hs ht horderly => (hs.step ht horderly).good) (Inv.start me)

/-- A password is asked for and given. -/
theorem good_along_granted :
    Along step (fun _ _ t => t.Good) { me := "mo" }
      [.begin { cookie := "a", users := ["root", "mo"] }, .enter, .handle true,
        .respond 1 (some "secret"), .take none, .checked none, .handle true, .handle true] := by
  refine good_along "mo" _ ?_
  refine .cons rfl ?_ (.cons rfl trivial (.cons rfl trivial (.cons rfl trivial
    (.cons rfl trivial (.cons rfl trivial (.cons rfl trivial (.cons rfl trivial trivial)))))))
  exact fun _ => List.not_mem_nil

/-- A request is cancelled while it waits for its turn, and its dialog is shown. -/
theorem cancelled_request_shown :
    ¬ ∀ (me : String) (steps : List Step),
      Along step (fun _ _ t => t.Good) { me := me } steps := by
  intro hall
  have hrun := hall "mo" [.begin { cookie := "a", users := ["mo"] },
    .begin { cookie := "b", users := ["mo"] }, .enter, .cancel "b", .respond 1 none, .take none,
    .enter, .handle true, .handle true, .handle true]
  have hend := hrun.exec (R := Good) (fun _ _ _ h => h) (Inv.start "mo").good rfl
  exact hend.log [.cancel "b", .shown "a" 1] (.shown "b" 2) [] rfl List.mem_cons_self

end Agent

end MindOS.Shell.Polkit
