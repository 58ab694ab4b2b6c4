import MindOS.Json.Basic
import MindOS.Talk

/-!
# Locking the screen when the machine suspends

Before the machine suspends the shell has the compositor lock the session and blank the
displays, and lets go of its inhibitor when both are confirmed or the attempt has failed.
After the resume it has the lock confirmed once more and wakes the displays.
-/

namespace MindOS.Shell.Sleep

open Talk

def utf8 (t : Text) : List UInt8 := t.flatMap String.utf8EncodeChar

/-- A request as it is sent; the names of actions need no escapes. -/
def request (id : Nat) (action : Text) : List UInt8 :=
  utf8 ("\x7b\"id\":".toList ++ Nat.toDigits 10 id ++ ",\"type\":\"".toList ++ action ++
    "\"\x7d\n".toList)

/-- What the socket of the compositor does, from the moment it is opened. -/
structure Socket where
  connect : Answer Unit
  writes : List (Answer Nat)
  reads : List (Answer (List UInt8))

section

variable (parse : List UInt8 → Except Text Json) (print : Json → Text)

/-- Whether a line is the answer a request waits for. -/
def confirm (id : Nat) (action : Text) (line : List UInt8) : Except Text Unit :=
  if 8192 < line.length ∨ line.getLast? ≠ some newline then
    .error "incomplete or oversized compositor reply".toList
  else
    match parse line with
    | .error e => .error e
    | .ok reply =>
        if (reply.get "id".toList).asU64 ≠ some id ∨ (reply.get "ok".toList).asBool ≠ some true then
          .error ("compositor rejected ".toList ++ action ++ ": ".toList ++
            print (reply.get "error".toList))
        else if (action = "lock".toList ∨ action = "blank".toList) ∧
            ((reply.get "result".toList).get "locked".toList).asBool ≠ some true then
          .error "compositor did not confirm the session lock".toList
        else if action = "blank".toList ∧
            ((reply.get "result".toList).get "stage".toList).asStr ≠ some "blank".toList then
          .error "compositor did not confirm blanked displays".toList
        else .ok ()

def dialogue : Dialogue Text where
  request := request
  accept := confirm parse print
  limit := 8193

/-- Have the compositor do one action after the other; with what went over the socket. -/
def compositorActions (actions : List Text) (socket : Socket) : Except Text Unit × List Io :=
  match socket.connect with
  | .failed e => (.error e, [])
  | .timedOut => (.error "compositor sleep preparation timed out".toList, [])
  | .ok () =>
      let channel := { writes := socket.writes, reads := socket.reads }
      match (dialogue parse print).converse 1 actions channel with
      | (.ok (), c) => (.ok (), c.log)
      | (.error (.failed e), c) => (.error e, c.log)
      | (.error .elapsed, c) => (.error "compositor sleep preparation timed out".toList, c.log)

/-- What is done about one signal of logind: what went over the socket, how that ended, and
whether the inhibitor was let go and the shell told of the resume after it. -/
structure Handled where
  talk : List Io := []
  result : Except Text Unit := .ok ()
  released : Bool := false
  resumed : Bool := false

def prepareSuspend (socket : Socket) (lock inhibitor : Bool) : Handled :=
  if lock then
    let (result, talk) := compositorActions parse print ["lock".toList, "blank".toList] socket
    { talk := talk, result := result, released := inhibitor }
  else { released := inhibitor }

/-- `PrepareForSleep` as it arrives, with its argument if that could be read, the setting and
the socket as they are then, and whether logind gives an inhibitor when it is asked. -/
structure Signal where
  goingToSleep : Option Bool
  lockOnSleep : Bool
  inhibits : Bool
  socket : Socket

structure Watcher where
  inhibitor : Bool
  wakeOnResume : Bool := false

def Watcher.handle (w : Watcher) (signal : Signal) : Watcher × Handled :=
  if signal.goingToSleep.getD false then
    ({ inhibitor := false, wakeOnResume := signal.lockOnSleep },
      prepareSuspend parse print signal.socket signal.lockOnSleep w.inhibitor)
  else if w.wakeOnResume then
    let (result, talk) :=
      compositorActions parse print ["lock".toList, "wake".toList] signal.socket
    ({ inhibitor := signal.inhibits }, { talk := talk, result := result, resumed := true })
  else ({ inhibitor := signal.inhibits }, { resumed := true })

/-- What is done about each of the signals. -/
def run : Watcher → List Signal → List Handled
  | _, [] => []
  | w, signal :: signals =>
      let (w, handled) := w.handle parse print signal
      handled :: run w signals

end

/-! ### What is promised -/

section

variable (parse : List UInt8 → Except Text Json)

/-- The stream begins with a line that is a reply with `P`; `rest` is what follows. -/
def Replied (P : Json → Prop) (stream rest : List UInt8) : Prop :=
  ∃ body reply, stream = body ++ newline :: rest ∧ newline ∉ body ∧
    parse (body ++ [newline]) = .ok reply ∧ P reply

/-- The answer to the request with this number, saying that the session is locked. -/
structure Locked (id : Nat) (reply : Json) : Prop where
  id : (reply.get "id".toList).asU64 = some id
  ok : (reply.get "ok".toList).asBool = some true
  locked : ((reply.get "result".toList).get "locked".toList).asBool = some true

/-- The same, and that the displays are blank. -/
structure Blanked (id : Nat) (reply : Json) : Prop extends Locked id reply where
  stage : ((reply.get "result".toList).get "stage".toList).asStr = some "blank".toList

/-- Both requests were sent, and the compositor answered the one with locked true and after
that the other with locked true and the blank stage. -/
def Confirmed (talk : List Io) : Prop :=
  written talk = request 1 "lock".toList ++ request 2 "blank".toList ∧
    ∃ rest rest', Replied parse (Locked 1) (received talk) rest ∧
      Replied parse (Blanked 2) rest rest'

/-- What is sent is part of the lock request, unless the lock was confirmed before. -/
def WaitsForLock (talk : List Io) : Prop :=
  ∀ front bytes back, talk = front ++ .wrote bytes :: back →
    written front ++ bytes <+: request 1 "lock".toList ∨
      ∃ rest, Replied parse (Locked 1) (received front) rest

end

def NeverUnlocks (talk : List Io) : Prop := ¬utf8 "unlock".toList <:+: written talk

/-! ### What a line confirms -/

variable {parse : List UInt8 → Except Text Json} {print : Json → Text}

theorem confirm_ok {id : Nat} {action : Text} {line : List UInt8}
    (h : confirm parse print id action line = .ok ()) :
    line.getLast? = some newline ∧ ∃ reply, parse line = .ok reply ∧
      (action = "lock".toList ∨ action = "blank".toList → Locked id reply) ∧
      (action = "blank".toList → Blanked id reply) := by
  unfold confirm at h
  split at h
  · cases h
  case isFalse hline =>
    split at h
    · cases h
    case h_2 reply hparse =>
      split at h
      · cases h
      case isFalse hreply =>
        split at h
        · cases h
        case isFalse hlocked =>
          split at h
          · cases h
          case isFalse hstage =>
            simp only [not_or, not_and, not_not] at hline hreply hlocked hstage
            have hlock (ha : action = "lock".toList ∨ action = "blank".toList) : Locked id reply :=
              ⟨hreply.1, hreply.2, hlocked ha⟩
            exact ⟨hline.2, reply, hparse, hlock, fun ha => ⟨hlock (.inr ha), hstage ha⟩⟩

theorem replied_of_confirm {id : Nat} {action : Text} {line stream rest : List UInt8}
    {P : Json → Prop} (hstream : stream = line ++ rest) (hend : newline ∉ line.dropLast)
    (h : confirm parse print id action line = .ok ())
    (hP : ∀ reply, (action = "lock".toList ∨ action = "blank".toList → Locked id reply) →
      (action = "blank".toList → Blanked id reply) → P reply) : Replied parse P stream rest := by
  obtain ⟨hlast, reply, hparse, hlock, hblank⟩ := confirm_ok h
  have hline := List.dropLast_append_getLast? newline hlast
  refine ⟨line.dropLast, reply, ?_, hend, ?_, hP reply hlock hblank⟩
  · rw [← List.singleton_append, ← List.append_assoc, hline, hstream]
  · rw [hline, hparse]

/-! ### What goes over the socket -/

/-- The log is that of a conversation about the actions, which came to its end if the result
is `Ok`. -/
theorem compositorActions_spec (parse : List UInt8 → Except Text Json) (print : Json → Text)
    (actions : List Text) (socket : Socket) :
    ∃ r, (dialogue parse print).Conversed 1 actions
      { writes := socket.writes, reads := socket.reads } r
      (compositorActions parse print actions socket).2 ∧
        ((compositorActions parse print actions socket).1 = .ok () → r.1 = .ok ()) := by
  unfold compositorActions
  split
  · exact ⟨(.error .elapsed, _), .nothing, nofun⟩
  · exact ⟨(.error .elapsed, _), .nothing, nofun⟩
  · obtain ⟨more, hmore⟩ := (dialogue parse print).converse_spec 1 actions
      { writes := socket.writes, reads := socket.reads }
    have hlog := hmore.log
    rw [List.nil_append] at hlog
    dsimp only
    split
    case h_1 c heq =>
      rw [heq] at hlog hmore
      obtain rfl := hlog
      exact ⟨_, hmore, fun _ => rfl⟩
    case h_2 e c heq =>
      rw [heq] at hlog hmore
      obtain rfl := hlog
      exact ⟨_, hmore, nofun⟩
    case h_3 c heq =>
      rw [heq] at hlog hmore
      obtain rfl := hlog
      exact ⟨_, hmore, nofun⟩

variable (socket : Socket) {action : Text}

theorem waitsForLock :
    WaitsForLock parse (compositorActions parse print ["lock".toList, action] socket).2 := by
  obtain ⟨r, h, -⟩ := compositorActions_spec parse print
    ["lock".toList, action] socket
  intro front bytes back htalk
  refine (h.waits ["lock".toList] [action] rfl front bytes back htalk).imp (fun hout => ?_) ?_
  · rwa [Dialogue.requests, Dialogue.requests, List.append_nil] at hout
  · rintro ⟨line, rest, hstream, hend, haccept, -⟩
    exact ⟨rest, replied_of_confirm hstream hend haccept fun _ hlock _ => hlock (.inl rfl)⟩

theorem written_compositorActions (actions : List Text) :
    written (compositorActions parse print actions socket).2 <+:
      (dialogue parse print).requests 1 actions := by
  obtain ⟨r, h, -⟩ := compositorActions_spec parse print actions socket
  exact h.out

theorem neverUnlocks_of_prefix {talk : List Io} (bytes : List UInt8) (h : written talk <+: bytes)
    (hbytes : ¬utf8 "unlock".toList <:+: bytes) : NeverUnlocks talk :=
  fun hunlock => hbytes (hunlock.trans h.isInfix)

theorem neverUnlocks_blank :
    NeverUnlocks (compositorActions parse print ["lock".toList, "blank".toList] socket).2 :=
  neverUnlocks_of_prefix (request 1 "lock".toList ++ (request 2 "blank".toList ++ []))
    (written_compositorActions socket _) (by decide)

theorem neverUnlocks_wake :
    NeverUnlocks (compositorActions parse print ["lock".toList, "wake".toList] socket).2 :=
  neverUnlocks_of_prefix (request 1 "lock".toList ++ (request 2 "wake".toList ++ []))
    (written_compositorActions socket _) (by decide)

theorem confirmed_of_ok
    (hok : (compositorActions parse print ["lock".toList, "blank".toList] socket).1 = .ok ()) :
    Confirmed parse (compositorActions parse print ["lock".toList, "blank".toList] socket).2 := by
  obtain ⟨r, h, hr⟩ := compositorActions_spec parse print
    ["lock".toList, "blank".toList] socket
  refine ⟨?_, ?_⟩
  · rw [h.all (hr hok), Dialogue.requests, Dialogue.requests, Dialogue.requests, List.append_nil]
    rfl
  · obtain ⟨line, rest, hstream, hend, haccept, line', rest', hstream', hend', haccept', -⟩ :=
      h.answered (hr hok)
    exact ⟨rest, rest',
      replied_of_confirm hstream hend haccept fun _ hlock _ => hlock (.inl rfl),
      replied_of_confirm hstream' hend' haccept' fun _ _ hblank => hblank rfl⟩

/-! ### What is done about the signals -/

theorem waitsForLock_nil : WaitsForLock parse [] := fun _ _ _ h =>
  absurd h.symm (List.append_ne_nil_of_right_ne_nil _ (List.cons_ne_nil _ _))

theorem neverUnlocks_nil : NeverUnlocks [] := by
  unfold NeverUnlocks
  decide

theorem handle_safe (w : Watcher) (signal : Signal) :
    WaitsForLock parse (w.handle parse print signal).2.talk ∧
      NeverUnlocks (w.handle parse print signal).2.talk := by
  unfold Watcher.handle prepareSuspend
  split
  · cases signal.lockOnSleep with
    | true => exact ⟨waitsForLock signal.socket, neverUnlocks_blank signal.socket⟩
    | false => exact ⟨waitsForLock_nil, neverUnlocks_nil⟩
  · split
    · exact ⟨waitsForLock signal.socket, neverUnlocks_wake signal.socket⟩
    · exact ⟨waitsForLock_nil, neverUnlocks_nil⟩

theorem run_safe (w : Watcher) (signals : List Signal) :
    ∀ handled ∈ run parse print w signals,
      WaitsForLock parse handled.talk ∧ NeverUnlocks handled.talk := by
  induction signals generalizing w with
  | nil => exact fun _ h => absurd h List.not_mem_nil
  | cons signal signals ih =>
      intro handled h
      obtain rfl | h := List.mem_cons.mp h
      · exact handle_safe w signal
      · exact ih _ handled h

/-- A suspend with locking on succeeds only when the lock and then the blank displays were
confirmed, and in the whole life of the watcher nothing behind the lock request is sent
before the lock is confirmed, and nothing ever unlocks. -/
theorem suspend_waits (parse : List UInt8 → Except Text Json) (print : Json → Text) :
    (∀ socket inhibitor, (prepareSuspend parse print socket true inhibitor).result = .ok () →
      Confirmed parse (prepareSuspend parse print socket true inhibitor).talk) ∧
    ∀ w signals, ∀ handled ∈ run parse print w signals,
      WaitsForLock parse handled.talk ∧ NeverUnlocks handled.talk :=
  ⟨fun socket _ hok => confirmed_of_ok socket hok, run_safe⟩

/-- The answers of a compositor that locks the session and then blanks the displays. -/
def lockReply : List UInt8 :=
  utf8 "\x7b\"id\":1,\"ok\":true,\"result\":\x7b\"locked\":true\x7d\x7d\n".toList

def blankReply : List UInt8 :=
  utf8 ("\x7b\"id\":2,\"ok\":true,\"result\":\x7b\"locked\":true,".toList ++
    "\"stage\":\"blank\"\x7d\x7d\n".toList)

def parseReply (line : List UInt8) : Except Text Json :=
  let reply (id : Int) (result : List (Text × Json)) : Json :=
    .obj [("id", .int id), ("ok", .bool true), ("result", .obj (("locked", .bool true) :: result))]
  if line = lockReply then .ok (reply 1 [])
  else if line = blankReply then .ok (reply 2 [("stage", .str "blank")])
  else .error "no reply"

theorem suspend_waits_confirmed :
    Confirmed parseReply (prepareSuspend parseReply (fun _ => [])
      ⟨.ok (), [.ok 10, .ok 100, .ok 100],
        [.ok (lockReply ++ blankReply.take 9), .ok (blankReply.drop 9)]⟩ true true).talk :=
  (suspend_waits parseReply fun _ => []).1 _ true (by decide)

end MindOS.Shell.Sleep
