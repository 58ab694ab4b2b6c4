import MindOS.Text.Basic

/-!
# Requests over a socket, answered line by line

A client writes a request, reads one line, looks at it and goes on with the next request.
Writes may take part of the bytes, reads cut the stream anywhere and bring bytes that stand
behind the line, and the deadline may strike wherever the client waits. The log keeps what
went over the socket, in order.
-/

namespace Talk

/-- What the socket answers to an operation; `timedOut` when the deadline strikes first. -/
inductive Answer (α : Type*) where
  | ok (x : α)
  | failed (e : Text)
  | timedOut

/-- Why a conversation ends early. -/
inductive Stop where
  | failed (e : Text)
  | elapsed
  deriving DecidableEq

inductive Io where
  | wrote (bytes : List UInt8)
  | read (bytes : List UInt8)

def Io.out : Io → List UInt8
  | wrote bytes => bytes
  | read _ => []

def Io.came : Io → List UInt8
  | wrote _ => []
  | read bytes => bytes

def written (log : List Io) : List UInt8 := log.flatMap Io.out

def received (log : List Io) : List UInt8 := log.flatMap Io.came

/-- A socket behind a read buffer: what it will answer, and what went over it. Where no
answer is left, the deadline strikes. -/
structure Channel where
  writes : List (Answer Nat)
  reads : List (Answer (List UInt8))
  buffer : List UInt8 := []
  log : List Io := []

namespace Channel

/-- `write_all`, with the answers to come. -/
def writeAll (bytes : List UInt8) (c : Channel) : List (Answer Nat) → Except Stop Unit × Channel
  | [] => (if bytes.isEmpty then .ok () else .error .elapsed, { c with writes := [] })
  | answer :: writes =>
      if bytes.isEmpty then (.ok (), { c with writes := answer :: writes })
      else
        match answer with
        | .timedOut => (.error .elapsed, { c with writes := writes })
        | .failed e => (.error (.failed e), { c with writes := writes })
        | .ok 0 => (.error (.failed "write zero".toList), { c with writes := writes })
        | .ok (n + 1) =>
            writeAll (bytes.drop (n + 1)) { c with log := c.log ++ [.wrote (bytes.take (n + 1))] }
              writes

/-- How much of the buffer belongs to the line, if the line ends there: at `stop`, or because
it is as long as it may be. -/
def ending (stop : UInt8) (limit : Nat) (buffer : List UInt8) : Option Nat :=
  if stop ∈ buffer.take limit then some (buffer.idxOf stop + 1)
  else if limit ≤ buffer.length then some limit
  else none

/-- `take(limit).read_until(stop)` behind what is read of the line, with the answers to come. -/
def readUntil (stop : UInt8) (limit : Nat) (line : List UInt8) (c : Channel) :
    List (Answer (List UInt8)) → Except Stop (List UInt8) × Channel
  | [] =>
      match ending stop limit c.buffer with
      | some n => (.ok (line ++ c.buffer.take n), { c with reads := [], buffer := c.buffer.drop n })
      | none => (.error .elapsed, { c with reads := [] })
  | answer :: reads =>
      match ending stop limit c.buffer with
      | some n =>
          (.ok (line ++ c.buffer.take n),
            { c with reads := answer :: reads, buffer := c.buffer.drop n })
      | none =>
          match answer with
          | .timedOut => (.error .elapsed, { c with reads := reads })
          | .failed e => (.error (.failed e), { c with reads := reads })
          -- the other side has closed its end
          | .ok [] => (.ok (line ++ c.buffer), { c with reads := reads, buffer := [] })
          | .ok (b :: bytes) =>
              readUntil stop (limit - c.buffer.length) (line ++ c.buffer)
                { c with buffer := b :: bytes, log := c.log ++ [.read (b :: bytes)] } reads

end Channel

def newline : UInt8 := 10

/-- How a request is written, and whether a line is the answer it waits for. -/
structure Dialogue (α : Type*) where
  request : Nat → α → List UInt8
  accept : Nat → α → List UInt8 → Except Text Unit
  limit : Nat

namespace Dialogue

variable {α : Type*} (d : Dialogue α)

/-- One request after the other, numbered, each when the one before is answered. -/
def converse : Nat → List α → Channel → Except Stop Unit × Channel
  | _, [], c => (.ok (), c)
  | id, a :: as, c =>
      match c.writeAll (d.request id a) c.writes with
      | (.error e, c) => (.error e, c)
      | (.ok (), c) =>
          match c.readUntil newline d.limit [] c.reads with
          | (.error e, c) => (.error e, c)
          | (.ok line, c) =>
              match d.accept id a line with
              | .error e => (.error (.failed e), c)
              | .ok () => converse (id + 1) as c

/-- All of the requests, one behind the other. -/
def requests : Nat → List α → List UInt8
  | _, [] => []
  | id, a :: as => d.request id a ++ requests (id + 1) as

/-- The stream begins with a line for each request, each the answer it waits for. -/
def Answered : Nat → List α → List UInt8 → Prop
  | _, [], _ => True
  | id, a :: as, stream => ∃ line rest, stream = line ++ rest ∧ newline ∉ line.dropLast ∧
      d.accept id a line = .ok () ∧ Answered (id + 1) as rest

end Dialogue

/-! ### The log -/

@[simp] theorem written_append (log more : List Io) :
    written (log ++ more) = written log ++ written more :=
  List.flatMap_append

@[simp] theorem received_append (log more : List Io) :
    received (log ++ more) = received log ++ received more :=
  List.flatMap_append

@[simp] theorem written_wrote (pieces : List (List UInt8)) :
    written (pieces.map Io.wrote) = pieces.flatten := by
  rw [written, List.flatMap_map]
  exact List.flatMap_id

@[simp] theorem received_wrote (pieces : List (List UInt8)) :
    received (pieces.map Io.wrote) = [] := by
  rw [received, List.flatMap_map]
  exact List.flatMap_eq_nil_iff.mpr fun _ _ => rfl

@[simp] theorem written_read (chunks : List (List UInt8)) :
    written (chunks.map Io.read) = [] := by
  rw [written, List.flatMap_map]
  exact List.flatMap_eq_nil_iff.mpr fun _ _ => rfl

@[simp] theorem received_read (chunks : List (List UInt8)) :
    received (chunks.map Io.read) = chunks.flatten := by
  rw [received, List.flatMap_map]
  exact List.flatMap_id

/-! ### One request and one line -/

namespace Channel

/-- What a write leaves: pieces of the bytes went out, from the front, and all of them if it
says so. -/
def Wrote (bytes : List UInt8) (c : Channel) (r : Except Stop Unit × Channel) : Prop :=
  ∃ pieces : List (List UInt8), r.2.log = c.log ++ pieces.map Io.wrote ∧
    r.2.buffer = c.buffer ∧ pieces.flatten <+: bytes ∧ (r.1 = .ok () → pieces.flatten = bytes)

theorem Wrote.nothing {bytes : List UInt8} {c : Channel} {r : Except Stop Unit × Channel}
    (hlog : r.2.log = c.log) (hbuffer : r.2.buffer = c.buffer)
    (hdone : r.1 = .ok () → bytes = []) : Wrote bytes c r := by
  refine ⟨[], ?_, hbuffer, List.nil_prefix, fun h => (hdone h).symm⟩
  rw [hlog, List.map_nil, List.append_nil]

theorem Wrote.piece {bytes : List UInt8} {c : Channel} {r : Except Stop Unit × Channel} {n : Nat}
    (h : Wrote (bytes.drop n) { c with log := c.log ++ [.wrote (bytes.take n)] } r) :
    Wrote bytes c r := by
  obtain ⟨pieces, hlog, hbuffer, hprefix, hall⟩ := h
  have hsplit : bytes.take n ++ bytes.drop n = bytes := List.take_append_drop _ _
  refine ⟨bytes.take n :: pieces, ?_, hbuffer, ?_, fun h => ?_⟩
  · rw [hlog, List.map_cons, List.append_assoc, List.singleton_append]
  · rw [List.flatten_cons]
    exact ((List.prefix_append_right_inj _).mpr hprefix).trans (by rw [hsplit])
  · rw [List.flatten_cons, hall h, hsplit]

theorem writeAll_spec (bytes : List UInt8) (c : Channel) (writes : List (Answer Nat)) :
    Wrote bytes c (c.writeAll bytes writes) := by
  induction writes generalizing bytes c with
  | nil =>
      refine .nothing rfl rfl fun h => ?_
      by_contra hb
      simp only [writeAll, List.isEmpty_iff, hb, if_false] at h
      cases h
  | cons answer writes ih =>
      unfold writeAll
      split
      case isTrue hb => exact .nothing rfl rfl fun _ => List.isEmpty_iff.mp hb
      cases answer with
      | timedOut => exact .nothing rfl rfl nofun
      | failed e => exact .nothing rfl rfl nofun
      | ok n =>
          cases n with
          | zero => exact .nothing rfl rfl nofun
          | succ n => exact .piece (ih _ _)

/-- What reading a line leaves: chunks came in, and what came is the line and what is kept in
the buffer behind it. -/
def GotLine (stop : UInt8) (line : List UInt8) (c : Channel)
    (r : Except Stop (List UInt8) × Channel) : Prop :=
  ∃ chunks : List (List UInt8), r.2.log = c.log ++ chunks.map Io.read ∧
    ∀ got, r.1 = .ok got →
      line ++ c.buffer ++ chunks.flatten = got ++ r.2.buffer ∧ stop ∉ got.dropLast

theorem GotLine.stopped {stop : UInt8} {line : List UInt8} {c : Channel} {e : Stop}
    {reads : List (Answer (List UInt8))} :
    GotLine stop line c (.error e, { c with reads := reads }) :=
  ⟨[], (List.append_nil _).symm, nofun⟩

theorem not_mem_take_idxOf {stop : UInt8} (buffer : List UInt8) :
    stop ∉ buffer.take (buffer.idxOf stop) := by
  intro h
  have hmem := List.mem_of_mem_take h
  exact (Nat.lt_irrefl _) ((List.mem_take_iff_idxOf_lt hmem).mp h)

theorem ending_spec {stop : UInt8} {limit n : Nat} {buffer : List UInt8}
    (h : ending stop limit buffer = some n) : stop ∉ (buffer.take n).dropLast := by
  intro hmem
  unfold ending at h
  split at h
  · obtain rfl := Option.some.inj h
    rw [List.dropLast_eq_take, List.take_take, List.length_take] at hmem
    exact not_mem_take_idxOf buffer ((List.take_prefix_take_left (by omega)).subset hmem)
  case isFalse hstop =>
    split at h
    · obtain rfl := Option.some.inj h
      exact hstop (List.mem_of_mem_dropLast hmem)
    · cases h

theorem not_mem_of_ending_none {stop : UInt8} {limit : Nat} {buffer : List UInt8}
    (h : ending stop limit buffer = none) : stop ∉ buffer := by
  unfold ending at h
  split at h
  · cases h
  case isFalse hstop =>
    split at h
    · cases h
    case isFalse hlimit =>
      rwa [List.take_of_length_le (Nat.le_of_lt (Nat.lt_of_not_le hlimit))] at hstop

theorem not_mem_dropLast_append {stop : UInt8} {line more : List UInt8} (hline : stop ∉ line)
    (hmore : stop ∉ more.dropLast) : stop ∉ (line ++ more).dropLast := by
  rw [List.dropLast_append]
  split
  · exact fun h => hline (List.mem_of_mem_dropLast h)
  · simp only [List.mem_append, not_or]
    exact ⟨hline, hmore⟩

theorem GotLine.buffered {stop : UInt8} {n : Nat} {line : List UInt8} {c : Channel}
    (reads : List (Answer (List UInt8))) (hline : stop ∉ line)
    (hn : stop ∉ (c.buffer.take n).dropLast) :
    GotLine stop line c
      (.ok (line ++ c.buffer.take n), { c with reads := reads, buffer := c.buffer.drop n }) := by
  refine ⟨[], (List.append_nil _).symm, ?_⟩
  rintro got ⟨⟩
  refine ⟨?_, not_mem_dropLast_append hline hn⟩
  rw [List.flatten_nil, List.append_nil, List.append_assoc, List.take_append_drop]

theorem GotLine.more {stop : UInt8} {line bytes : List UInt8} {c : Channel}
    {r : Except Stop (List UInt8) × Channel}
    (h : GotLine stop (line ++ c.buffer)
      { c with buffer := bytes, log := c.log ++ [.read bytes] } r) : GotLine stop line c r := by
  obtain ⟨chunks, hlog, hgot⟩ := h
  refine ⟨bytes :: chunks, ?_, fun got hr => ?_⟩
  · rw [hlog, List.map_cons, List.append_assoc, List.singleton_append]
  · obtain ⟨heq, hstop⟩ := hgot got hr
    rw [List.flatten_cons, ← List.append_assoc]
    exact ⟨heq, hstop⟩

theorem readUntil_spec {stop : UInt8} {line : List UInt8} (limit : Nat) (c : Channel)
    (reads : List (Answer (List UInt8))) (hline : stop ∉ line) :
    GotLine stop line c (c.readUntil stop limit line reads) := by
  induction reads generalizing limit line c with
  | nil =>
      unfold readUntil
      split
      case h_1 hn => exact .buffered _ hline (ending_spec hn)
      case h_2 => exact .stopped
  | cons answer reads ih =>
      unfold readUntil
      split
      case h_1 hn => exact .buffered _ hline (ending_spec hn)
      case h_2 hnone =>
        have hbuffer := not_mem_of_ending_none hnone
        cases answer with
        | timedOut => exact .stopped
        | failed e => exact .stopped
        | ok bytes =>
            cases bytes with
            | nil =>
                have h := GotLine.buffered (n := c.buffer.length) reads hline fun h =>
                  hbuffer (List.mem_of_mem_take (List.mem_of_mem_dropLast h))
                rwa [List.take_length, List.drop_length] at h
            | cons b bytes =>
                refine .more (ih _ _ fun h => ?_)
                exact (List.mem_append.mp h).elim hline hbuffer

end Channel

/-! ### The conversation -/

theorem written_entry {log front back : List Io} {bytes : List UInt8}
    (h : log = front ++ .wrote bytes :: back) : written front ++ bytes <+: written log := by
  refine ⟨written back, ?_⟩
  rw [h, written_append, List.append_assoc]
  rfl

namespace Dialogue

variable {α : Type*} {d : Dialogue α} {id : Nat} {a : α} {as : List α} {c : Channel}

/-- What a conversation leaves. A byte of a later request goes out only when all before it
are answered. -/
structure Conversed (d : Dialogue α) (id : Nat) (as : List α) (c : Channel)
    (r : Except Stop Unit × Channel) (more : List Io) : Prop where
  log : r.2.log = c.log ++ more
  out : written more <+: d.requests id as
  all : r.1 = .ok () → written more = d.requests id as
  answered : r.1 = .ok () → d.Answered id as (c.buffer ++ received more)
  waits : ∀ first rest, as = first ++ rest →
    ∀ front bytes back, more = front ++ .wrote bytes :: back →
      written front ++ bytes <+: d.requests id first ∨
        d.Answered id first (c.buffer ++ received front)

theorem Conversed.done : d.Conversed id [] c (.ok (), c) [] where
  log := (List.append_nil _).symm
  out := List.prefix_refl _
  all _ := rfl
  answered _ := trivial
  waits front rest h := by
    obtain ⟨rfl, -⟩ := List.append_eq_nil_iff.mp h.symm
    exact fun _ _ _ _ => .inr trivial

theorem Conversed.nothing {e : Stop} : d.Conversed id as c (.error e, c) [] where
  log := (List.append_nil _).symm
  out := List.nil_prefix
  all := nofun
  answered := nofun
  waits _ _ _ _ _ _ h := absurd h.symm (List.append_ne_nil_of_right_ne_nil _ (List.cons_ne_nil _ _))

theorem Conversed.cut {r : Except Stop Unit × Channel} {more : List Io}
    (hlog : r.2.log = c.log ++ more) (hr : r.1 ≠ .ok ()) (hout : written more <+: d.request id a) :
    d.Conversed id (a :: as) c r more where
  log := hlog
  out := hout.trans (List.prefix_append _ _)
  all h := absurd h hr
  answered h := absurd h hr
  waits first rest hfirst front bytes back hmore := by
    cases first with
    | nil => exact .inr trivial
    | cons b first =>
        obtain ⟨rfl, -⟩ := List.cons.inj hfirst
        exact .inl (((written_entry hmore).trans hout).trans (List.prefix_append _ _))

theorem Conversed.cons {c' : Channel} {r : Except Stop Unit × Channel} {line : List UInt8}
    {here more : List Io} (h : d.Conversed (id + 1) as c' r more) (hlog : c'.log = c.log ++ here)
    (hout : written here = d.request id a) (hline : c.buffer ++ received here = line ++ c'.buffer)
    (hend : newline ∉ line.dropLast) (haccept : d.accept id a line = .ok ()) :
    d.Conversed id (a :: as) c r (here ++ more) := by
  have hstream (log : List Io) :
      c.buffer ++ received (here ++ log) = line ++ (c'.buffer ++ received log) := by
    rw [received_append, ← List.append_assoc, hline, List.append_assoc]
  refine ⟨?_, ?_, fun hr => ?_, fun hr => ?_, ?_⟩
  · rw [h.log, hlog, List.append_assoc]
  · rw [written_append, hout]
    exact (List.prefix_append_right_inj _).mpr h.out
  · rw [written_append, hout, h.all hr, requests]
  · exact ⟨line, _, hstream more, hend, haccept, h.answered hr⟩
  · intro first rest hfirst front bytes back hmore
    cases first with
    | nil => exact .inr trivial
    | cons b first =>
        obtain ⟨rfl, hrest⟩ := List.cons.inj hfirst
        have hcases : (∃ tail, here = front ++ .wrote bytes :: tail) ∨
            ∃ late, front = here ++ late ∧ more = late ++ .wrote bytes :: back := by
          obtain ⟨late, hfront, hlate⟩ | ⟨tail, hhere, htail⟩ := List.append_eq_append_iff.mp hmore
          · exact .inr ⟨late, hfront, hlate⟩
          · cases tail with
            | nil => exact .inr ⟨[], by simpa using hhere.symm, by simpa using htail.symm⟩
            | cons x tail =>
                obtain ⟨rfl, -⟩ := List.cons.inj htail
                exact .inl ⟨tail, hhere⟩
        obtain ⟨tail, hhere⟩ | ⟨late, rfl, hlate⟩ := hcases
        · exact .inl (((written_entry hhere).trans (hout ▸ List.prefix_refl _)).trans
            (List.prefix_append _ _))
        · refine (h.waits first rest hrest late bytes back hlate).imp
            (fun hpre => ?_) fun hans => ?_
          · rw [written_append, hout, List.append_assoc]
            exact (List.prefix_append_right_inj _).mpr hpre
          · exact ⟨line, _, hstream late, hend, haccept, hans⟩

theorem converse_spec (id : Nat) (as : List α) (c : Channel) :
    ∃ more, d.Conversed id as c (d.converse id as c) more := by
  induction as generalizing id c with
  | nil => exact ⟨[], .done⟩
  | cons a as ih =>
      unfold converse
      obtain ⟨pieces, hwlog, hbuffer, hprefix, hall⟩ := c.writeAll_spec (d.request id a) c.writes
      generalize c.writeAll (d.request id a) c.writes = w at *
      obtain ⟨wr, cw⟩ := w
      cases wr with
      | error e =>
          exact ⟨pieces.map .wrote, .cut hwlog nofun (by simpa using hprefix)⟩
      | ok u =>
          dsimp only at hwlog hbuffer ⊢
          obtain ⟨chunks, hrlog, hgot⟩ :=
            cw.readUntil_spec d.limit cw.reads (List.not_mem_nil (a := newline))
          generalize cw.readUntil newline d.limit [] cw.reads = g at *
          obtain ⟨gr, cr⟩ := g
          have hout : written (pieces.map Io.wrote ++ chunks.map Io.read) = d.request id a := by
            simpa using hall rfl
          have hlog : cr.log = c.log ++ (pieces.map Io.wrote ++ chunks.map Io.read) := by
            rw [← List.append_assoc, ← hwlog]
            exact hrlog
          cases gr with
          | error e => exact ⟨_, .cut hlog nofun (hout ▸ List.prefix_refl _)⟩
          | ok line =>
              obtain ⟨hline, hend⟩ := hgot line rfl
              dsimp only at hline ⊢
              cases haccept : d.accept id a line with
              | error e =>
                  exact ⟨_, .cut hlog nofun (hout ▸ List.prefix_refl _)⟩
              | ok v =>
                  obtain ⟨more, hmore⟩ := ih (id + 1) cr
                  refine ⟨_, hmore.cons hlog hout ?_ hend haccept⟩
                  simpa [hbuffer] using hline

end Dialogue

end Talk
