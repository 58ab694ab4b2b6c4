import MindOS.Text.Basic

/-!
# The clients of the shell IPC

The server keeps its connected clients under ids that are not used again, and sends
lines to one of them or to all subscribers. A client's socket is the list of answers
that its next writes get; how long a line is comes as a parameter. What was queued
for a client is kept in `sent`, newest last.
-/

namespace MindOS.Ipc

/-- Unsent bytes a stalled client may accumulate before it is dropped. -/
def maxPending : Nat := 4 * 1024 * 1024

/-- What a write to a socket answers. -/
inductive Write where
  /-- It took so many bytes. -/
  | wrote (n : Nat)
  | wouldBlock
  | interrupted
  | failed
  deriving DecidableEq

variable {L : Type}

structure Client (L : Type) where
  /-- The answers of the next writes; after them the socket would block. -/
  socket : List Write := []
  /-- Bytes not written yet. -/
  pending : Nat := 0
  subscribed : Bool := false
  sent : List L := []

/-- Push as many of the pending bytes as the socket takes; `false` means the client
is dead or hopelessly behind. -/
def flush : List Write → Nat → List Write × Nat × Bool
  | socket, 0 => (socket, 0, true)
  | [], pending => ([], pending, pending ≤ maxPending)
  | .wrote 0 :: socket, pending => (socket, pending, false)
  | .wrote n :: socket, pending => flush socket (pending - n)
  | .wouldBlock :: socket, pending => (socket, pending, pending ≤ maxPending)
  | .interrupted :: socket, pending => flush socket pending
  | .failed :: socket, pending => (socket, pending, false)

namespace Client

def flush (c : Client L) : Client L × Bool :=
  let (socket, pending, ok) := Ipc.flush c.socket c.pending
  ({ c with socket := socket, pending := pending }, ok)

variable (size : L → Nat)

/-- Queue a line and its end. -/
def send (c : Client L) (line : L) : Client L × Bool :=
  { c with pending := c.pending + size line + 1, sent := c.sent ++ [line] }.flush

@[simp] theorem send_subscribed (c : Client L) (line : L) :
    (c.send size line).1.subscribed = c.subscribed := rfl

@[simp] theorem send_sent (c : Client L) (line : L) :
    (c.send size line).1.sent = c.sent ++ [line] := rfl

end Client

/-- The connected clients by their ids. -/
structure Server (L : Type) where
  clients : List (Nat × Client L) := []
  nextClient : Nat := 0

namespace Server

def find (s : Server L) (id : Nat) : Option (Client L) :=
  (s.clients.find? fun p => p.1 = id).map Prod.snd

def hasClient (s : Server L) (id : Nat) : Bool := s.clients.any fun p => p.1 = id

def hasSubscribers (s : Server L) : Bool := s.clients.any fun p => p.2.subscribed

def isSubscribed (s : Server L) (id : Nat) : Bool :=
  ((s.find id).map Client.subscribed).getD false

/-- Change the client with an id. -/
def update (s : Server L) (id : Nat) (f : Client L → Client L) : Server L :=
  { s with clients := s.clients.map fun p => if p.1 = id then (p.1, f p.2) else p }

def subscribe (s : Server L) (id : Nat) : Server L :=
  s.update id fun c => { c with subscribed := true }

/-- Register a new connection; its id. -/
def addClient (s : Server L) (socket : List Write) : Server L × Nat :=
  let id := s.nextClient + 1
  ({ clients := s.clients ++ [(id, { socket := socket })], nextClient := id }, id)

def removeClient (s : Server L) (id : Nat) : Server L :=
  { s with clients := s.clients.filter fun p => p.1 ≠ id }

variable (size : L → Nat)

/-- Queue a line for one client; `false` means the client should be dropped. -/
def send (s : Server L) (id : Nat) (line : L) : Server L × Bool :=
  match s.find id with
  | none => (s, false)
  | some c => (s.update id fun _ => (c.send size line).1, (c.send size line).2)

/-- Send lines to one client, up to the first that fails. -/
def sendAll (s : Server L) (id : Nat) : List L → Server L × Bool
  | [] => (s, true)
  | line :: lines =>
      let (s, ok) := s.send size id line
      if ok then sendAll s id lines else (s, false)

/-- Push what an earlier write to a client could not. -/
def flushClient (s : Server L) (id : Nat) : Server L × Bool :=
  match s.find id with
  | none => (s, false)
  | some c => (s.update id fun _ => c.flush.1, c.flush.2)

/-- Send a line to every subscriber; dead clients are removed. -/
def broadcast (s : Server L) (line : L) : Server L :=
  { s with
    clients := s.clients.filterMap fun p =>
      if p.2.subscribed then
        let (c, ok) := p.2.send size line
        if ok then some (p.1, c) else none
      else some p }

/-! ### Which clients are there -/

theorem hasClient_iff {s : Server L} {id : Nat} :
    s.hasClient id = true ↔ ∃ c, (id, c) ∈ s.clients := by
  simp [hasClient, List.any_eq_true]

theorem find_of_hasClient {s : Server L} {id : Nat} (h : s.hasClient id = true) :
    ∃ c, s.find id = some c := by
  obtain ⟨c, hc⟩ := hasClient_iff.mp h
  cases hfind : s.clients.find? fun p => decide (p.1 = id) with
  | none => exact absurd (List.find?_eq_none.mp hfind _ hc) (by simp)
  | some p => exact ⟨p.2, by rw [find, hfind, Option.map_some]⟩

theorem hasClient_of_find {s : Server L} {id : Nat} {c : Client L} (h : s.find id = some c) :
    s.hasClient id = true := by
  obtain ⟨p, hp, -⟩ := Option.map_eq_some_iff.mp h
  exact List.any_eq_true.mpr ⟨p, List.mem_of_find?_eq_some hp, by simpa using List.find?_some hp⟩

@[simp] theorem hasClient_update (s : Server L) (i : Nat) (f : Client L → Client L) (id : Nat) :
    (s.update i f).hasClient id = s.hasClient id := by
  rw [hasClient, update, List.any_map]
  congr 1
  funext p
  simp only [Function.comp]
  split <;> rfl

@[simp] theorem hasClient_subscribe (s : Server L) (i id : Nat) :
    (s.subscribe i).hasClient id = s.hasClient id := hasClient_update ..

theorem hasClient_addClient {s : Server L} {socket : List Write} {id : Nat}
    (h : s.hasClient id = true) : (s.addClient socket).1.hasClient id = true := by
  obtain ⟨c, hc⟩ := hasClient_iff.mp h
  exact hasClient_iff.mpr ⟨c, List.mem_append_left _ hc⟩

theorem hasClient_removeClient {s : Server L} {i id : Nat} (h : s.hasClient id = true)
    (hne : id ≠ i) : (s.removeClient i).hasClient id = true := by
  obtain ⟨c, hc⟩ := hasClient_iff.mp h
  exact hasClient_iff.mpr ⟨c, List.mem_filter.mpr ⟨hc, by simpa using hne⟩⟩

@[simp] theorem hasClient_send (s : Server L) (i : Nat) (line : L) (id : Nat) :
    (s.send size i line).1.hasClient id = s.hasClient id := by
  unfold send
  split
  · rfl
  · exact hasClient_update ..

@[simp] theorem hasClient_sendAll (s : Server L) (i : Nat) (lines : List L) (id : Nat) :
    (s.sendAll size i lines).1.hasClient id = s.hasClient id := by
  induction lines generalizing s with
  | nil => rfl
  | cons line lines ih =>
      unfold sendAll
      simp only
      split
      · rw [ih, hasClient_send]
      · exact hasClient_send ..

@[simp] theorem hasClient_flushClient (s : Server L) (i id : Nat) :
    (s.flushClient i).1.hasClient id = s.hasClient id := by
  unfold flushClient
  split
  · rfl
  · exact hasClient_update ..

theorem send_ok {s : Server L} {id : Nat} {line : L} (h : (s.send size id line).2 = true) :
    s.hasClient id = true := by
  unfold send at h
  split at h
  case h_1 => cases h
  case h_2 c hc => exact hasClient_of_find hc

theorem hasClient_broadcast {s : Server L} {line : L} {id : Nat} (h : s.hasClient id = true)
    (htakes : ∀ c, (id, c) ∈ s.clients → c.subscribed = true → (c.send size line).2 = true) :
    (s.broadcast size line).hasClient id = true := by
  obtain ⟨c, hc⟩ := hasClient_iff.mp h
  cases hsub : c.subscribed with
  | false =>
      exact hasClient_iff.mpr ⟨c, List.mem_filterMap.mpr ⟨_, hc, if_neg (by simp [hsub])⟩⟩
  | true =>
      refine hasClient_iff.mpr ⟨(c.send size line).1, List.mem_filterMap.mpr ⟨_, hc, ?_⟩⟩
      rw [if_pos hsub]
      simp only [htakes c hc hsub, if_true]

/-! ### What the clients were sent -/

theorem mem_update {s : Server L} {id : Nat} {f : Client L → Client L} {p : Nat × Client L}
    (h : p ∈ (s.update id f).clients) :
    (p ∈ s.clients ∧ p.1 ≠ id) ∨ p.1 = id ∧ ∃ c, (id, c) ∈ s.clients ∧ p.2 = f c := by
  obtain ⟨q, hq, rfl⟩ := List.mem_map.mp h
  by_cases hid : q.1 = id
  · refine .inr ?_
    rw [if_pos hid]
    exact ⟨hid, q.2, hid ▸ hq, rfl⟩
  · refine .inl ?_
    rw [if_neg hid]
    exact ⟨hq, hid⟩

theorem mem_removeClient {s : Server L} {id : Nat} {p : Nat × Client L}
    (h : p ∈ (s.removeClient id).clients) : p ∈ s.clients ∧ p.1 ≠ id := by
  obtain ⟨hp, hid⟩ := List.mem_filter.mp h
  exact ⟨hp, by simpa using hid⟩

theorem mem_of_find {s : Server L} {id : Nat} {c : Client L} (h : s.find id = some c) :
    (id, c) ∈ s.clients := by
  obtain ⟨p, hp, rfl⟩ := Option.map_eq_some_iff.mp h
  have hid : p.1 = id := by simpa using List.find?_some hp
  exact hid ▸ List.mem_of_find?_eq_some hp

theorem mem_send {s : Server L} {id : Nat} {line : L} {p : Nat × Client L}
    (h : p ∈ (s.send size id line).1.clients) (hok : (s.send size id line).2 = true) :
    (p ∈ s.clients ∧ p.1 ≠ id) ∨
      p.1 = id ∧ ∃ c, (id, c) ∈ s.clients ∧ p.2 = (c.send size line).1 := by
  unfold send at h hok
  split at h
  case h_1 hnone =>
    rw [hnone] at hok
    cases hok
  case h_2 c hc =>
    obtain hother | ⟨hid, d, -, hd⟩ := mem_update h
    · exact .inl hother
    · exact .inr ⟨hid, c, mem_of_find hc, hd⟩

theorem mem_send_of_ne {s : Server L} {id : Nat} {line : L} {p : Nat × Client L}
    (h : p ∈ (s.send size id line).1.clients) (hid : p.1 ≠ id) : p ∈ s.clients := by
  unfold send at h
  split at h
  case h_1 => exact h
  case h_2 c hc =>
    obtain hother | ⟨heq, -⟩ := mem_update h
    · exact hother.1
    · exact absurd heq hid

theorem mem_sendAll_of_ne {s : Server L} {id : Nat} {lines : List L} {p : Nat × Client L}
    (h : p ∈ (s.sendAll size id lines).1.clients) (hid : p.1 ≠ id) : p ∈ s.clients := by
  induction lines generalizing s with
  | nil => exact h
  | cons line lines ih =>
      unfold sendAll at h
      simp only at h
      split at h
      · exact mem_send_of_ne size (ih h) hid
      · exact mem_send_of_ne size h hid

theorem mem_sendAll {s : Server L} {id : Nat} {lines : List L} {p : Nat × Client L}
    (h : p ∈ (s.sendAll size id lines).1.clients) (hok : (s.sendAll size id lines).2 = true)
    (hid : p.1 = id) : ∃ c, (id, c) ∈ s.clients ∧ p.2.sent = c.sent ++ lines := by
  induction lines generalizing s with
  | nil => exact ⟨p.2, hid ▸ h, by rw [List.append_nil]⟩
  | cons line lines ih =>
      unfold sendAll at h hok
      simp only at h hok
      split at h
      case isTrue hline =>
        rw [if_pos hline] at hok
        obtain ⟨c, hc, hsent⟩ := ih h hok
        obtain ⟨-, hne⟩ | ⟨-, d, hd, rfl⟩ := mem_send size hc hline
        · exact absurd rfl hne
        · refine ⟨d, hd, ?_⟩
          rw [hsent, Client.send_sent, List.append_assoc]
          rfl
      case isFalse hline =>
        rw [if_neg hline] at hok
        cases hok

theorem find_update (s : Server L) (id : Nat) (f : Client L → Client L) :
    (s.update id f).find id = (s.find id).map f := by
  obtain ⟨clients, nextClient⟩ := s
  induction clients with
  | nil => rfl
  | cons p clients ih =>
      by_cases hid : p.1 = id
      · simp [find, update, hid]
      · simpa [find, update, hid] using ih

theorem isSubscribed_send_subscribe {s : Server L} {id : Nat} {line : L}
    (h : ((s.subscribe id).send size id line).2 = true) :
    ((s.subscribe id).send size id line).1.isSubscribed id = true := by
  obtain ⟨c, hc⟩ := find_of_hasClient (send_ok size h)
  have hsub : c.subscribed = true := by
    rw [subscribe, find_update] at hc
    obtain ⟨d, -, rfl⟩ := Option.map_eq_some_iff.mp hc
    rfl
  have hsend : (s.subscribe id).send size id line =
      ((s.subscribe id).update id fun _ => (c.send size line).1, (c.send size line).2) := by
    simp only [send, hc]
  rw [hsend, isSubscribed, find_update, hc, Option.map_some, Option.map_some, Option.getD_some,
    Client.send_subscribed, hsub]

theorem mem_broadcast {s : Server L} {line : L} {p : Nat × Client L}
    (h : p ∈ (s.broadcast size line).clients) :
    ∃ c, (p.1, c) ∈ s.clients ∧ p.2.subscribed = c.subscribed ∧
      p.2.sent = if c.subscribed then c.sent ++ [line] else c.sent := by
  obtain ⟨q, hq, hp⟩ := List.mem_filterMap.mp h
  split at hp
  case isTrue hsub =>
    obtain ⟨-, hp⟩ := Option.ite_none_right_eq_some.mp hp
    obtain rfl := Option.some.inj hp
    exact ⟨q.2, hq, rfl, (if_pos hsub).symm⟩
  case isFalse hsub =>
    obtain rfl := Option.some.inj hp
    exact ⟨q.2, hq, rfl, (if_neg hsub).symm⟩

end Server
end MindOS.Ipc
