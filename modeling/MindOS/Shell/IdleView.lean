import MindOS.Wm.Idle.Timeline

/-!
# What the shell knows of idling

The compositor tells its subscribers of idling by events, and a shell that has connected
asks for the state as well. The events are handled in the order sent, but a reply wakes a
task of its own: it may be handled after an event that was sent later.

To say what is older, each piece of news is stamped with how many events there were when it
was told. A request that has timed out is taken away with its reply.
-/

namespace MindOS.Shell.IdleView

open Idle Transition

/-- Where the session stands, and when it was told so. -/
structure News where
  value : IdleEvent
  stamp : Nat
  deriving DecidableEq

/-- What the shell sends. -/
inductive Request where
  | subscribe
  | getIdle
  deriving DecidableEq

/-- What the compositor sends. -/
inductive Line where
  | event (n : News)
  | reply (n : News)
  deriving DecidableEq

def Line.isReply : Line → Bool
  | .reply _ => true
  | .event _ => false

/-- What waits for the shell's main loop. -/
inductive HostEvent where
  | connected
  | idle (n : News)
  | disconnected
  deriving DecidableEq

structure System where
  clocked : Clocked
  connected : Bool := false
  /-- The compositor has read that the shell subscribes. -/
  subscribed : Bool := false
  requests : List Request := []
  wire : List Line := []
  events : List HostEvent := []
  /-- Tasks that are to ask for the state. -/
  tasks : Nat := 0
  /-- Replies that were read, each for a task of its own. -/
  replies : List News := []
  /-- The state the shell holds. -/
  idle : Option IdleEvent := none
  /-- The stamp of what it holds. -/
  known : Nat := 0

inductive Event where
  /-- Something happens to the session. -/
  | session (l : Label)
  | connect
  | disconnect
  /-- The compositor takes the next request. -/
  | serve
  /-- The shell's thread reads the next line. -/
  | read
  /-- The shell's main loop takes the next event. -/
  | handle
  /-- A task asks for the state. -/
  | ask
  /-- A task takes its reply. -/
  | answer (i : Nat)
  /-- A request has waited for too long, as sent or with its reply on the way. -/
  | failRequest (i : Nat)
  | failReply (i : Nat)

namespace System

/-- The state of the session now. -/
def current (s : System) : IdleEvent := s.clocked.session.idleJson

/-- The stamp of news told now. -/
def now (s : System) : Nat := s.clocked.session.outbox.length + 1

/-- The events that the session has sent beyond the first so many. -/
def sentSince (session : Session) (n : Nat) : List News :=
  ((session.outbox.zipIdx 2).drop n).map fun p => ⟨p.1, p.2⟩

/-- What the shell is told of a step of the session, if it subscribes. -/
def news (s : System) (after : Session) : List News :=
  if s.subscribed then sentSince after s.clocked.session.outbox.length else []

def moved (s : System) (clocked : Clocked) : System :=
  { s with clocked := clocked, wire := s.wire ++ (s.news clocked.session).map Line.event }

def onSession (s : System) (l : Label) : Option System := (s.clocked.step l).map s.moved

def serve (s : System) : Option System :=
  match s.requests with
  | .subscribe :: rest => some { s with requests := rest, subscribed := true }
  | .getIdle :: rest =>
      some { s with requests := rest, wire := s.wire ++ [.reply ⟨s.current, s.now⟩] }
  | [] => none

def read (s : System) : Option System :=
  match s.wire with
  | .event n :: rest => some { s with wire := rest, events := s.events ++ [.idle n] }
  | .reply n :: rest => some { s with wire := rest, replies := s.replies ++ [n] }
  | [] => none

/-- The shell takes over what it is told, unless it holds it already. -/
def idleChanged (s : System) (n : News) : System :=
  if s.idle = some n.value then { s with known := max s.known n.stamp }
  else { s with idle := some n.value, known := n.stamp }

def handle (s : System) : Option System :=
  match s.events with
  | .connected :: rest => some { s with events := rest, tasks := s.tasks + 1 }
  | .idle n :: rest => some ({ s with events := rest }.idleChanged n)
  | .disconnected :: rest => some { s with events := rest }
  | [] => none

/-- Without a connection the request fails at once. -/
def ask (s : System) : Option System :=
  if s.tasks = 0 then none
  else
    some { s with
      tasks := s.tasks - 1
      requests := if s.connected then s.requests ++ [.getIdle] else s.requests }

def step (s : System) : Event → Option System
  | .session l => s.onSession l
  | .connect =>
      if s.connected then none
      else
        some { s with
          connected := true
          subscribed := false
          requests := [.subscribe]
          wire := []
          events := s.events ++ [.connected] }
  | .disconnect =>
      if s.connected then
        some { s with
          connected := false
          subscribed := false
          requests := []
          wire := []
          events := s.events ++ [.disconnected] }
      else none
  | .serve => s.serve
  | .read => s.read
  | .handle => s.handle
  | .ask => s.ask
  | .answer i => s.replies[i]?.map fun n => { s with replies := s.replies.eraseIdx i }.idleChanged n
  | .failRequest i =>
      if s.requests[i]? = some .getIdle then some { s with requests := s.requests.eraseIdx i }
      else none
  | .failReply i =>
      if s.wire[i]?.any Line.isReply then some { s with wire := s.wire.eraseIdx i }
      else none

def start (settings : IdleSettings) (now : Nat) : System := { clocked := .start settings now }

/-! ## What is to hold -/

/-- Nothing is in flight on a live connection. -/
structure Quiet (s : System) : Prop where
  connected : s.connected = true
  requests : s.requests = []
  wire : s.wire = []
  events : s.events = []
  tasks : s.tasks = 0
  replies : s.replies = []

/-- With nothing in flight the shell holds the session's state. -/
def Converged (s : System) : Prop := s.Quiet → s.idle = some s.current

/-- The shell is still to be told by a reply to what it asks. -/
def Awaited (s : System) : Prop :=
  .connected ∈ s.events ∨ s.tasks ≠ 0 ∨ .getIdle ∈ s.requests

/-- The news is on its way. -/
def OnTheWay (s : System) (n : News) : Prop :=
  .idle n ∈ s.events ∨ .event n ∈ s.wire ∨ .reply n ∈ s.wire ∨ n ∈ s.replies

/-- The shell is up to date, or will be told. -/
def Assured (s : System) : Prop :=
  s.Awaited ∨ s.subscribed = true ∧ ((∃ n, s.OnTheWay n ∧ n.stamp = s.now) ∨ s.known = s.now)

/-- A reply comes in time: the shell has not been told the newest there is, the reply is no
older than what it has been told, or says the same. A request that fails is not needed. -/
def InTime (s : System) : Event → System → Prop
  | .answer i, _ =>
      ∀ n ∈ s.replies[i]?, s.known < s.now ∨ s.known ≤ n.stamp ∨ s.idle = some n.value
  | .failRequest _, t => t.Assured
  | .failReply _, t => t.Assured
  | _, _ => True

/-! ## The stream of events -/

/-- The event in a line, if it has one. -/
def lineEvent : Line → Option HostEvent
  | .event n => some (.idle n)
  | .reply _ => none

/-- The events that the main loop has still to handle, in their order. -/
def stream (s : System) : List HostEvent := s.events ++ s.wire.filterMap lineEvent

/-- The last news among the events of the last connection. -/
def latest : Option News → List HostEvent → Option News
  | last, [] => last
  | _, .connected :: rest => latest none rest
  | _, .idle n :: rest => latest (some n) rest
  | last, .disconnected :: rest => latest last rest

theorem latest_append {last : Option News} (front back : List HostEvent) :
    latest last (front ++ back) = latest (latest last front) back := by
  induction front generalizing last with
  | nil => rfl
  | cons e front ih => cases e <;> exact ih

theorem latest_of_some {last : Option News} {events : List HostEvent} {n : News}
    (h : latest none events = some n) : latest last events = some n := by
  induction events with
  | nil => cases h
  | cons e events ih =>
      cases e with
      | connected => exact h
      | idle m => exact h
      | disconnected => exact ih h

theorem latest_some_cases (n : News) (events : List HostEvent) :
    .connected ∈ events ∨
      ∃ m, latest (some n) events = some m ∧ (m = n ∨ .idle m ∈ events) := by
  induction events generalizing n with
  | nil => exact .inr ⟨n, rfl, .inl rfl⟩
  | cons e events ih =>
      cases e with
      | connected => exact .inl List.mem_cons_self
      | idle k =>
          obtain hconnected | ⟨m, hm, rfl | hmem⟩ := ih k
          · exact .inl (List.mem_cons_of_mem _ hconnected)
          · exact .inr ⟨m, hm, .inr List.mem_cons_self⟩
          · exact .inr ⟨m, hm, .inr (List.mem_cons_of_mem _ hmem)⟩
      | disconnected =>
          obtain hconnected | ⟨m, hm, hmem⟩ := ih n
          · exact .inl (List.mem_cons_of_mem _ hconnected)
          · exact .inr ⟨m, hm, hmem.imp_right (List.mem_cons_of_mem _)⟩

/-- News of now says what is the case. -/
def Fits (s : System) (n : News) : Prop :=
  n.stamp ≤ s.now ∧ (n.stamp = s.now → n.value = s.current)

/-- What was told and will be told is what was the case. -/
structure Told (s : System) : Prop where
  session : s.clocked.session.Known
  fits : ∀ n, s.OnTheWay n → s.Fits n
  known : s.known ≤ s.now
  holds : s.known = s.now → s.idle = some s.current

/-- What holds between the steps of a run. -/
structure Inv (s : System) : Prop where
  told : s.Told
  /-- Nothing is told before the compositor has read that the shell subscribes. -/
  subscribes : s.connected = true → s.subscribed = false → s.requests.head? = some .subscribe
  latest : s.connected = true → ∀ n ∈ latest none s.stream, s.subscribed = true ∧ n.stamp = s.now
  assured : s.connected = true → s.Assured

variable {s t : System}

/-- The session moved on, or stands where it stood. -/
def Onward (s t : System) : Prop := s.now < t.now ∨ t.now = s.now ∧ t.current = s.current

theorem Onward.of_eq (h : t.clocked = s.clocked) : Onward s t :=
  .inr ⟨by rw [now, now, h], by rw [current, current, h]⟩

theorem Fits.onward {n : News} (h : s.Fits n) (hon : Onward s t) : t.Fits n := by
  obtain hlt | ⟨hnow, hcurrent⟩ := hon
  · exact ⟨h.1.trans hlt.le, fun heq => absurd (heq ▸ h.1) (not_le.mpr hlt)⟩
  · rwa [Fits, hnow, hcurrent]

theorem Told.onward (h : s.Told) (hsession : t.clocked.session.Known) (hon : Onward s t)
    (hidle : t.idle = s.idle) (hknown : t.known = s.known)
    (hway : ∀ n, t.OnTheWay n → s.OnTheWay n ∨ t.Fits n) : t.Told where
  session := hsession
  fits n hn := (hway n hn).elim (fun hold => (h.fits n hold).onward hon) id
  known := by
    rw [hknown]
    obtain hlt | ⟨hnow, -⟩ := hon
    · exact h.known.trans hlt.le
    · exact hnow ▸ h.known
  holds heq := by
    rw [hknown] at heq
    obtain hlt | ⟨hnow, hcurrent⟩ := hon
    · exact absurd (heq ▸ h.known) (not_le.mpr hlt)
    · rw [hidle, hcurrent]
      exact h.holds (heq.trans hnow)

theorem Told.frame (h : s.Told) (hclocked : t.clocked = s.clocked) (hidle : t.idle = s.idle)
    (hknown : t.known = s.known) (hway : ∀ n, t.OnTheWay n → s.OnTheWay n) : t.Told :=
  h.onward (hclocked ▸ h.session) (.of_eq hclocked) hidle hknown fun n hn => .inl (hway n hn)

theorem Told.idleChanged {n : News} (h : s.Told) (hfits : s.Fits n) : (s.idleChanged n).Told := by
  unfold System.idleChanged
  by_cases hsame : s.idle = some n.value
  · rw [if_pos hsame]
    refine ⟨h.session, h.fits, max_le h.known hfits.1, fun heq => ?_⟩
    obtain hknown | hstamp := max_choice s.known n.stamp
    · exact h.holds (hknown.symm.trans heq)
    · exact hsame.trans (congrArg some (hfits.2 (hstamp.symm.trans heq)))
  · rw [if_neg hsame]
    exact ⟨h.session, h.fits, hfits.1, fun heq => congrArg some (hfits.2 heq)⟩

theorem Assured.frame (h : s.Assured) (hclocked : t.clocked = s.clocked)
    (hsubscribed : s.subscribed = true → t.subscribed = true)
    (hknown : t.known = s.known) (hawaited : s.Awaited → t.Awaited)
    (hway : ∀ n, s.OnTheWay n → t.OnTheWay n) : t.Assured := by
  have hnow : t.now = s.now := by rw [now, now, hclocked]
  refine h.imp hawaited fun ⟨hsub, htold⟩ => ⟨hsubscribed hsub, ?_⟩
  rw [hnow, hknown]
  exact htold.imp_left fun ⟨n, hn, hstamp⟩ => ⟨n, hway n hn, hstamp⟩

theorem Inv.start (settings : IdleSettings) (clock : Nat) : (start settings clock).Inv where
  told :=
    { session := Session.known_start settings clock
      fits := fun n hn => by simp [OnTheWay, System.start] at hn
      known := Nat.zero_le _
      holds := fun h => absurd h (Nat.succ_ne_zero _).symm }
  subscribes h := nomatch h
  latest h := nomatch h
  assured h := nomatch h

/-! ## The session's steps -/

theorem latest_idles (last : Option News) (news : List News) :
    latest last (news.map HostEvent.idle) = news.getLast?.or last := by
  induction news generalizing last with
  | nil => rfl
  | cons n news ih =>
      rw [List.map_cons, latest, ih, List.getLast?_cons]
      cases news.getLast? <;> rfl

theorem filterMap_event (news : List News) :
    (news.map Line.event).filterMap lineEvent = news.map HostEvent.idle := by
  rw [List.filterMap_map, ← List.filterMap_eq_map]
  rfl

theorem sentSince_eq {before after : Session} {sent : List IdleEvent}
    (h : after.outbox = before.outbox ++ sent) :
    sentSince after before.outbox.length =
      (sent.zipIdx (before.outbox.length + 2)).map fun p => ⟨p.1, p.2⟩ := by
  rw [sentSince, h, List.zipIdx_append, List.drop_left' (List.length_zipIdx ..), Nat.add_comm]

theorem fits_of_sentSince {before : Session} (h : before.Tells t.clocked.session) {n : News}
    (hn : n ∈ sentSince t.clocked.session before.outbox.length) : t.Fits n := by
  obtain ⟨sent, hout, hjson, -⟩ := h
  rw [sentSince_eq hout] at hn
  obtain ⟨⟨value, i⟩, hi, rfl⟩ := List.mem_map.mp hn
  obtain ⟨hlow, hhigh, hvalue⟩ := List.mem_zipIdx hi
  have hnow : t.now = before.outbox.length + sent.length + 1 := by
    rw [now, hout, List.length_append]
  rw [Fits, hnow]
  constructor
  · show i ≤ _
    omega
  · intro hstamp
    have hlast : sent.getLast? = some value := by
      have hindex : i - (before.outbox.length + 2) = sent.length - 1 := by
        have hi : i = _ := hstamp
        omega
      rw [List.getLast?_eq_getElem?, List.getElem?_eq_some_iff]
      exact ⟨by omega, by simp only [hvalue, hindex]⟩
    show value = t.clocked.session.idleJson
    rw [hjson, hlast]
    rfl

theorem getLast?_sentSince {before : Session} (h : before.Tells t.clocked.session) {n : News}
    (hn : (sentSince t.clocked.session before.outbox.length).getLast? = some n) :
    n.stamp = t.now := by
  obtain ⟨sent, hout, -, -⟩ := h
  rw [sentSince_eq hout, List.getLast?_map, List.getLast?_zipIdx] at hn
  cases hlast : sent.getLast? with
  | none => simp [hlast] at hn
  | some value =>
      rw [hlast] at hn
      obtain rfl := Option.some.inj hn
      have hpos : sent ≠ [] := by
        rintro rfl
        cases hlast
      have hlength := List.length_pos_of_ne_nil hpos
      show before.outbox.length + 2 + sent.length - 1 = t.now
      rw [now, hout, List.length_append]
      omega

theorem onward_of_tells (h : s.clocked.session.Tells t.clocked.session) :
    Onward s t ∧
      (sentSince t.clocked.session s.clocked.session.outbox.length = [] → t.now = s.now) := by
  obtain ⟨sent, hout, hjson, -⟩ := h
  rw [sentSince_eq hout, Onward, now, now, hout, List.length_append]
  cases sent with
  | nil => exact ⟨.inr ⟨rfl, hjson⟩, fun _ => rfl⟩
  | cons e sent =>
      refine ⟨.inl ?_, fun h => ?_⟩
      · rw [List.length_cons]
        omega
      · rw [List.zipIdx_cons, List.map_cons] at h
        cases h

theorem news_cases {clocked : Clocked} (h : s.clocked.session.Tells clocked.session)
    (hsubscribed : s.subscribed = true) :
    (s.news clocked.session = [] ∧ (s.moved clocked).now = s.now) ∨
      ∃ n, (s.news clocked.session).getLast? = some n ∧ n.stamp = (s.moved clocked).now := by
  rw [news, if_pos hsubscribed]
  cases hlast : (sentSince clocked.session s.clocked.session.outbox.length).getLast? with
  | none =>
      have hnil := List.getLast?_eq_none_iff.mp hlast
      exact .inl ⟨hnil, (onward_of_tells (t := s.moved clocked) h).2 hnil⟩
  | some n => exact .inr ⟨n, rfl, getLast?_sentSince (t := s.moved clocked) h hlast⟩

theorem stream_moved (s : System) (clocked : Clocked) :
    (s.moved clocked).stream = s.stream ++ (s.news clocked.session).map HostEvent.idle := by
  rw [stream, stream, moved, List.filterMap_append, filterMap_event, List.append_assoc]

theorem Inv.moved {clocked : Clocked} (h : s.Inv)
    (htells : s.clocked.session.Tells clocked.session) : (s.moved clocked).Inv where
  told := by
    refine h.told.onward (htells.known h.told.session) (onward_of_tells htells).1 rfl rfl ?_
    rintro n (hevent | hevent | hreply | hreply)
    · exact .inl (.inl hevent)
    · obtain hevent | hnew := List.mem_append.mp hevent
      · exact .inl (.inr (.inl hevent))
      · obtain ⟨m, hm, hmn⟩ := List.mem_map.mp hnew
        obtain rfl := Line.event.inj hmn
        rw [news] at hm
        split at hm
        · exact .inr (fits_of_sentSince htells hm)
        · cases hm
    · obtain hreply | hnew := List.mem_append.mp hreply
      · exact .inl (.inr (.inr (.inl hreply)))
      · simp at hnew
    · exact .inl (.inr (.inr (.inr hreply)))
  subscribes := h.subscribes
  latest hconnected n hn := by
    rw [stream_moved, latest_append, latest_idles] at hn
    cases hsubscribed : s.subscribed with
    | false =>
        rw [news, hsubscribed] at hn
        have hold := (h.latest hconnected n hn).1
        rw [hsubscribed] at hold
        cases hold
    | true =>
        refine ⟨hsubscribed, ?_⟩
        obtain ⟨hnil, hnow⟩ | ⟨m, hm, hstamp⟩ := news_cases htells hsubscribed
        · rw [hnil] at hn
          rw [hnow]
          exact (h.latest hconnected n hn).2
        · rw [hm] at hn
          obtain rfl := Option.some.inj hn
          exact hstamp
  assured hconnected := by
    obtain hawaited | ⟨hsubscribed, htold⟩ := h.assured hconnected
    · exact .inl hawaited
    · refine .inr ⟨hsubscribed, ?_⟩
      obtain ⟨-, hnow⟩ | ⟨m, hm, hstamp⟩ := news_cases htells hsubscribed
      · rw [hnow]
        refine htold.imp_left ?_
        rintro ⟨n, hway, hn⟩
        refine ⟨n, ?_, hn⟩
        exact hway.imp_right (Or.imp (List.mem_append_left _)
          (Or.imp_left (List.mem_append_left _)))
      · have hmem : Line.event m ∈ (s.news clocked.session).map Line.event :=
          List.mem_map_of_mem (List.mem_of_getLast? hm)
        exact .inl ⟨m, .inr (.inl (List.mem_append_right _ hmem)), hstamp⟩

theorem Inv.onSession {l : Label} (h : s.Inv) (ht : s.onSession l = some t) : t.Inv := by
  obtain ⟨clocked, hstep, rfl⟩ := Option.map_eq_some_iff.mp ht
  obtain ⟨-, hclocked⟩ := Option.ite_none_right_eq_some.mp hstep
  obtain rfl := Option.some.inj hclocked
  exact h.moved (Session.tells_apply h.told.session l.now l.op)

/-! ## The connection -/

theorem Inv.connect (h : s.Inv) (ht : step s .connect = some t) : t.Inv := by
  obtain ⟨-, ht⟩ := Option.ite_none_left_eq_some.mp ht
  obtain rfl := Option.some.inj ht
  constructor
  · refine h.told.frame rfl rfl rfl ?_
    rintro n (hevent | hevent | hreply | hreply)
    · exact .inl (by simpa using hevent)
    · cases hevent
    · cases hreply
    · exact .inr (.inr (.inr hreply))
  · exact fun _ _ => rfl
  · intro _ n hn
    rw [stream, latest_append, latest_append] at hn
    cases hn
  · exact fun _ => .inl (.inl (List.mem_append_right _ List.mem_cons_self))

theorem Inv.disconnect (h : s.Inv) (ht : step s .disconnect = some t) : t.Inv := by
  obtain ⟨-, ht⟩ := Option.ite_none_right_eq_some.mp ht
  obtain rfl := Option.some.inj ht
  constructor
  · refine h.told.frame rfl rfl rfl ?_
    rintro n (hevent | hevent | hreply | hreply)
    · exact .inl (by simpa using hevent)
    · cases hevent
    · cases hreply
    · exact .inr (.inr (.inr hreply))
  · exact fun hconnected => nomatch hconnected
  · exact fun hconnected => nomatch hconnected
  · exact fun hconnected => nomatch hconnected

theorem Inv.serve (h : s.Inv) (ht : s.serve = some t) : t.Inv := by
  unfold System.serve at ht
  split at ht
  case h_1 rest hrequests =>
    obtain rfl := Option.some.inj ht
    constructor
    · exact h.told.frame rfl rfl rfl fun n hn => hn
    · exact fun _ hunsub => nomatch hunsub
    · exact fun hconnected n hn => ⟨rfl, (h.latest hconnected n hn).2⟩
    · intro hconnected
      refine (h.assured hconnected).frame rfl (fun _ => rfl) rfl ?_ fun n hn => hn
      refine Or.imp_right (Or.imp_right fun hget => ?_)
      rw [hrequests] at hget
      exact (List.mem_cons.mp hget).resolve_left nofun
  case h_2 rest hrequests =>
    obtain rfl := Option.some.inj ht
    have hsubscribed : s.connected = true → s.subscribed = true := by
      intro hconnected
      by_contra hunsub
      have hhead := h.subscribes hconnected (Bool.eq_false_iff.mpr hunsub)
      rw [hrequests] at hhead
      cases hhead
    constructor
    · refine h.told.onward h.told.session (.of_eq rfl) rfl rfl ?_
      rintro n (hevent | hevent | hreply | hreply)
      · exact .inl (.inl hevent)
      · exact .inl (.inr (.inl (by simpa using hevent)))
      · obtain hreply | hnew := List.mem_append.mp hreply
        · exact .inl (.inr (.inr (.inl hreply)))
        · obtain rfl := Line.reply.inj (List.mem_singleton.mp hnew)
          exact .inr ⟨le_rfl, fun _ => rfl⟩
      · exact .inl (.inr (.inr (.inr hreply)))
    · exact fun hconnected hunsub => nomatch hunsub.symm.trans (hsubscribed hconnected)
    · intro hconnected n hn
      have hnone : [Line.reply ⟨s.current, s.now⟩].filterMap lineEvent = [] := rfl
      rw [stream, List.filterMap_append, hnone, List.append_nil] at hn
      exact h.latest hconnected n hn
    · intro hconnected
      refine .inr ⟨hsubscribed hconnected, .inl ⟨⟨s.current, s.now⟩, ?_, rfl⟩⟩
      exact .inr (.inr (.inl (List.mem_append_right _ List.mem_cons_self)))
  case h_3 => cases ht

/-! ## The main loop -/

theorem Inv.readEvent {n : News} {rest : List Line} (h : s.Inv)
    (hwire : s.wire = .event n :: rest) :
    Inv { s with wire := rest, events := s.events ++ [.idle n] } := by
  constructor
  · refine h.told.frame rfl rfl rfl ?_
    rintro m (hevent | hevent | hreply | hreply)
    · obtain hevent | hnew := List.mem_append.mp hevent
      · exact .inl hevent
      · obtain rfl := HostEvent.idle.inj (List.mem_singleton.mp hnew)
        exact .inr (.inl (hwire ▸ List.mem_cons_self))
    · exact .inr (.inl (hwire ▸ List.mem_cons_of_mem _ hevent))
    · exact .inr (.inr (.inl (hwire ▸ List.mem_cons_of_mem _ hreply)))
    · exact .inr (.inr (.inr hreply))
  · exact h.subscribes
  · intro hconnected m hm
    refine h.latest hconnected m ?_
    have hstream : s.stream = (s.events ++ [.idle n]) ++ rest.filterMap lineEvent := by
      rw [stream, hwire, List.append_assoc]
      rfl
    rw [hstream]
    exact hm
  · intro hconnected
    refine (h.assured hconnected).frame rfl id rfl ?_ ?_
    · exact Or.imp_left fun hmem => List.mem_append_left _ hmem
    · rintro m (hevent | hevent | hreply | hreply)
      · exact .inl (List.mem_append_left _ hevent)
      · obtain heq | hevent := List.mem_cons.mp (hwire ▸ hevent)
        · obtain rfl := Line.event.inj heq
          exact .inl (List.mem_append_right _ List.mem_cons_self)
        · exact .inr (.inl hevent)
      · rw [hwire] at hreply
        exact .inr (.inr (.inl ((List.mem_cons.mp hreply).resolve_left nofun)))
      · exact .inr (.inr (.inr hreply))

theorem Inv.readReply {n : News} {rest : List Line} (h : s.Inv)
    (hwire : s.wire = .reply n :: rest) :
    Inv { s with wire := rest, replies := s.replies ++ [n] } := by
  constructor
  · refine h.told.frame rfl rfl rfl ?_
    rintro m (hevent | hevent | hreply | hreply)
    · exact .inl hevent
    · exact .inr (.inl (hwire ▸ List.mem_cons_of_mem _ hevent))
    · exact .inr (.inr (.inl (hwire ▸ List.mem_cons_of_mem _ hreply)))
    · obtain hreply | hnew := List.mem_append.mp hreply
      · exact .inr (.inr (.inr hreply))
      · obtain rfl := List.mem_singleton.mp hnew
        exact .inr (.inr (.inl (hwire ▸ List.mem_cons_self)))
  · exact h.subscribes
  · intro hconnected m hm
    refine h.latest hconnected m ?_
    rw [stream, hwire]
    exact hm
  · intro hconnected
    refine (h.assured hconnected).frame rfl id rfl id ?_
    rintro m (hevent | hevent | hreply | hreply)
    · exact .inl hevent
    · rw [hwire] at hevent
      exact .inr (.inl ((List.mem_cons.mp hevent).resolve_left nofun))
    · obtain heq | hreply := List.mem_cons.mp (hwire ▸ hreply)
      · obtain rfl := Line.reply.inj heq
        exact .inr (.inr (.inr (List.mem_append_right _ List.mem_cons_self)))
      · exact .inr (.inr (.inl hreply))
    · exact .inr (.inr (.inr (List.mem_append_left _ hreply)))

theorem Inv.read (h : s.Inv) (ht : s.read = some t) : t.Inv := by
  unfold System.read at ht
  split at ht
  case h_1 n rest hwire => exact Option.some.inj ht ▸ h.readEvent hwire
  case h_2 n rest hwire => exact Option.some.inj ht ▸ h.readReply hwire
  case h_3 => cases ht

theorem idleChanged_eq (s : System) (n : News) :
    ∃ idle known, s.idleChanged n = { s with idle := idle, known := known } := by
  unfold System.idleChanged
  split
  · exact ⟨s.idle, _, rfl⟩
  · exact ⟨_, _, rfl⟩

theorem idleChanged_known {n : News} (hknown : s.known ≤ s.now) (hstamp : n.stamp = s.now) :
    (s.idleChanged n).known = s.now := by
  unfold System.idleChanged
  split
  · exact (max_eq_right (hstamp ▸ hknown)).trans hstamp
  · exact hstamp

theorem Inv.handle_idle {n : News} {rest : List HostEvent} (h : s.Inv)
    (hevents : s.events = .idle n :: rest) : ({ s with events := rest }.idleChanged n).Inv := by
  have hway : ∀ m, OnTheWay { s with events := rest } m → s.OnTheWay m := fun m hm =>
    hm.imp_left fun hevent => hevents ▸ List.mem_cons_of_mem _ hevent
  have hfits := h.told.fits n (.inl (hevents ▸ List.mem_cons_self))
  have htold : Told { s with events := rest } := h.told.frame rfl rfl rfl hway
  have hstream : s.stream = .idle n :: stream { s with events := rest } := by
    rw [stream, hevents]
    rfl
  have hlast : s.connected = true → ∀ m ∈ System.latest (some n) (stream { s with events := rest }),
      s.subscribed = true ∧ m.stamp = s.now := by
    intro hconnected m hm
    refine h.latest hconnected m ?_
    rw [hstream]
    exact hm
  have hknown := idleChanged_known (s := { s with events := rest }) (n := n) h.told.known
  have htold' := htold.idleChanged hfits
  obtain ⟨idle, known, heq⟩ := idleChanged_eq { s with events := rest } n
  rw [heq] at htold' hknown ⊢
  refine ⟨htold', h.subscribes, ?_, ?_⟩
  · exact fun hconnected m hm => hlast hconnected m (latest_of_some hm)
  · intro hconnected
    obtain hnew | ⟨m, hm, hmem⟩ := latest_some_cases n (stream { s with events := rest })
    · refine .inl (.inl ?_)
      refine (List.mem_append.mp hnew).resolve_right fun hline => ?_
      obtain ⟨line, -, hline⟩ := List.mem_filterMap.mp hline
      cases line <;> cases hline
    · obtain ⟨hsubscribed, hstamp⟩ := hlast hconnected m hm
      refine .inr ⟨hsubscribed, ?_⟩
      obtain rfl | hmem := hmem
      · exact .inr (hknown hstamp)
      · refine .inl ⟨m, ?_, hstamp⟩
        refine (List.mem_append.mp hmem).imp_right fun hline => .inl ?_
        obtain ⟨line, hwire, hline⟩ := List.mem_filterMap.mp hline
        cases line with
        | event k =>
            obtain rfl := HostEvent.idle.inj (Option.some.inj hline)
            exact hwire
        | reply k => cases hline

theorem Inv.handle (h : s.Inv) (ht : s.handle = some t) : t.Inv := by
  unfold System.handle at ht
  split at ht
  case h_1 rest hevents =>
    obtain rfl := Option.some.inj ht
    refine ⟨h.told.frame rfl rfl rfl ?_, h.subscribes, ?_, ?_⟩
    · exact fun n => Or.imp_left fun hevent => hevents ▸ List.mem_cons_of_mem _ hevent
    · intro hconnected n hn
      refine h.latest hconnected n ?_
      rw [stream, hevents]
      exact hn
    · exact fun _ => .inl (.inr (.inl (Nat.succ_ne_zero _)))
  case h_2 n rest hevents =>
    obtain rfl := Option.some.inj ht
    exact h.handle_idle hevents
  case h_3 rest hevents =>
    obtain rfl := Option.some.inj ht
    refine ⟨h.told.frame rfl rfl rfl ?_, h.subscribes, ?_, ?_⟩
    · exact fun n => Or.imp_left fun hevent => hevents ▸ List.mem_cons_of_mem _ hevent
    · intro hconnected n hn
      refine h.latest hconnected n ?_
      rw [stream, hevents]
      exact hn
    · intro hconnected
      refine (h.assured hconnected).frame rfl id rfl (Or.imp_left fun hmem => ?_) fun n =>
        Or.imp_left fun hmem => ?_
      · rw [hevents] at hmem
        exact (List.mem_cons.mp hmem).resolve_left nofun
      · rw [hevents] at hmem
        exact (List.mem_cons.mp hmem).resolve_left nofun
  case h_4 => cases ht

theorem Inv.ask (h : s.Inv) (ht : s.ask = some t) : t.Inv := by
  obtain ⟨-, ht⟩ := Option.ite_none_left_eq_some.mp ht
  obtain rfl := Option.some.inj ht
  refine ⟨h.told.frame rfl rfl rfl fun n hn => hn, ?_, h.latest, ?_⟩
  · intro hconnected hunsub
    have hconnected : s.connected = true := hconnected
    simp [hconnected, h.subscribes hconnected hunsub]
  · intro hconnected
    have hconnected : s.connected = true := hconnected
    refine .inl (.inr (.inr ?_))
    simp [hconnected]

theorem Inv.answer {i : Nat} (h : s.Inv) (ht : step s (.answer i) = some t)
    (htime : s.InTime (.answer i) t) : t.Inv := by
  obtain ⟨n, hn, rfl⟩ := Option.map_eq_some_iff.mp ht
  have hmem := List.mem_of_getElem? hn
  have hfits := h.told.fits n (.inr (.inr (.inr hmem)))
  have htold : Told { s with replies := s.replies.eraseIdx i } := by
    refine h.told.frame rfl rfl rfl fun m => ?_
    exact Or.imp_right (Or.imp_right (Or.imp_right List.mem_of_mem_eraseIdx))
  have hknown := idleChanged_known (s := { s with replies := s.replies.eraseIdx i }) (n := n)
    h.told.known
  have htold' := htold.idleChanged hfits
  have hkeeps : s.known = s.now →
      ({ s with replies := s.replies.eraseIdx i }.idleChanged n).known = s.now := by
    intro hnow
    obtain hlt | hle | hsame := htime n hn
    · exact absurd hnow hlt.ne
    · exact hknown (le_antisymm hfits.1 (hnow ▸ hle))
    · rw [System.idleChanged, if_pos hsame]
      exact (max_eq_left (hnow ▸ hfits.1)).trans hnow
  obtain ⟨idle, known, heq⟩ := idleChanged_eq { s with replies := s.replies.eraseIdx i } n
  rw [heq] at htold' hknown hkeeps ⊢
  refine ⟨htold', h.subscribes, h.latest, fun hconnected => ?_⟩
  obtain hawaited | ⟨hsubscribed, ⟨m, hway, hstamp⟩ | hnow⟩ := h.assured hconnected
  · exact .inl hawaited
  · refine .inr ⟨hsubscribed, ?_⟩
    obtain hevent | hevent | hreply | hreply := hway
    · exact .inl ⟨m, .inl hevent, hstamp⟩
    · exact .inl ⟨m, .inr (.inl hevent), hstamp⟩
    · exact .inl ⟨m, .inr (.inr (.inl hreply)), hstamp⟩
    · obtain ⟨j, hj⟩ := List.mem_iff_getElem?.mp hreply
      by_cases hij : j = i
      · subst hij
        obtain rfl := Option.some.inj (hj.symm.trans hn)
        exact .inr (hknown hstamp)
      · have hrest := List.mem_eraseIdx_iff_getElem?.mpr ⟨j, hij, hj⟩
        exact .inl ⟨m, .inr (.inr (.inr hrest)), hstamp⟩
  · exact .inr ⟨hsubscribed, .inr (hkeeps hnow)⟩

theorem Inv.failRequest {i : Nat} (h : s.Inv) (ht : step s (.failRequest i) = some t)
    (htime : s.InTime (.failRequest i) t) : t.Inv := by
  obtain ⟨hget, ht⟩ := Option.ite_none_right_eq_some.mp ht
  obtain rfl := Option.some.inj ht
  refine ⟨h.told.frame rfl rfl rfl fun n hn => hn, ?_, h.latest, fun _ => htime⟩
  intro hconnected hunsub
  obtain ⟨rest, hrest⟩ := List.head?_eq_some_iff.mp (h.subscribes hconnected hunsub)
  cases i with
  | zero =>
      rw [hrest] at hget
      cases hget
  | succ i =>
      show (s.requests.eraseIdx (i + 1)).head? = _
      rw [hrest]
      rfl

theorem filterMap_eraseIdx {wire : List Line} {i : Nat}
    (h : wire[i]?.any Line.isReply = true) :
    (wire.eraseIdx i).filterMap lineEvent = wire.filterMap lineEvent := by
  induction wire generalizing i with
  | nil => rfl
  | cons line wire ih =>
      cases i with
      | zero =>
          cases line with
          | event n => cases h
          | reply n => rfl
      | succ i =>
          rw [List.eraseIdx_cons_succ, List.filterMap_cons, List.filterMap_cons, ih h]

theorem Inv.failReply {i : Nat} (h : s.Inv) (ht : step s (.failReply i) = some t)
    (htime : s.InTime (.failReply i) t) : t.Inv := by
  obtain ⟨hreply, ht⟩ := Option.ite_none_right_eq_some.mp ht
  obtain rfl := Option.some.inj ht
  refine ⟨h.told.frame rfl rfl rfl fun n => ?_, h.subscribes, ?_, fun _ => htime⟩
  · exact Or.imp_right (Or.imp List.mem_of_mem_eraseIdx
      (Or.imp_left List.mem_of_mem_eraseIdx))
  · intro hconnected n hn
    rw [stream, filterMap_eraseIdx hreply] at hn
    exact h.latest hconnected n hn

theorem Inv.step {e : Event} (h : s.Inv) (ht : step s e = some t) (htime : s.InTime e t) :
    t.Inv := by
  cases e with
  | session l => exact h.onSession ht
  | connect => exact h.connect ht
  | disconnect => exact h.disconnect ht
  | serve => exact h.serve ht
  | read => exact h.read ht
  | handle => exact h.handle ht
  | ask => exact h.ask ht
  | answer i => exact h.answer ht htime
  | failRequest i => exact h.failRequest ht htime
  | failReply i => exact h.failReply ht htime

/-! ## Convergence -/

theorem Inv.converged (h : s.Inv) : s.Converged := by
  intro hquiet
  obtain hawaited | ⟨-, ⟨n, hway, -⟩ | hknown⟩ := h.assured hquiet.connected
  · simp [Awaited, hquiet.events, hquiet.tasks, hquiet.requests] at hawaited
  · simp [OnTheWay, hquiet.events, hquiet.wire, hquiet.replies] at hway
  · exact h.told.holds hknown

/-- In a run in which the replies come in time the shell holds the session's state whenever
nothing is in flight. -/
theorem idle_converges (settings : IdleSettings) (clock : Nat) (events : List Event)
    (h : Along step InTime (start settings clock) events) :
    Along step (fun _ _ t => t.Converged) (start settings clock) events :=
  h.imp Inv (fun _ _ _ hs ht htime => hs.step ht htime)
    (fun _ _ _ hs ht htime => (hs.step ht htime).converged) (Inv.start settings clock)

/-- The shell connects, asks, and is told. -/
theorem idle_converges_asking :
    Along step (fun _ _ t => t.Converged) (start {} 0)
      [.connect, .serve, .handle, .ask, .serve, .read, .answer 0] := by
  refine idle_converges {} 0 _ ?_
  refine .cons rfl trivial (.cons rfl trivial (.cons rfl trivial (.cons rfl trivial
    (.cons rfl trivial (.cons rfl trivial (.cons rfl ?_ trivial))))))
  exact fun _ _ => .inl Nat.one_pos

/-- The session is locked after it was asked for, and the reply is handled after the event:
the shell takes the session to be at work. -/
theorem late_reply_unlocks :
    ¬ ∀ (settings : IdleSettings) (clock : Nat) (events : List Event),
      Along step (fun _ _ t => t.Converged) (start settings clock) events := by
  intro hall
  have hstart : (start {} 0).Converged := fun hquiet => nomatch hquiet.connected
  have hrun := hall {} 0 [.connect, .serve, .handle, .ask, .serve, .session ⟨1, .lock⟩, .read,
    .read, .handle, .answer 0]
  have hend := hrun.exec (R := Converged) (fun _ _ _ h => h) hstart rfl
  exact nomatch congrArg (Option.map IdleEvent.locked) (hend ⟨rfl, rfl, rfl, rfl, rfl, rfl⟩)

end System

end MindOS.Shell.IdleView
