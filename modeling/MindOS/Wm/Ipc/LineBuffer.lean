import MindOS.Text.Lines
import MindOS.Text.Utf8

/-!
# The requests of a client

A client of the shell IPC sends its requests as lines. What has arrived is kept until the
line ends; a line that grows too long while it is kept is an error, and the client is
dropped.
-/

namespace MindOS.Ipc

open Lines

def maxLine : Nat := 64 * 1024

def newline : UInt8 := 10

structure LineBuffer where
  buf : List UInt8 := []

/-- The request in a line, if the line is not blank. -/
def request (line : List UInt8) : Option Text :=
  let text := Text.trim (Text.fromUtf8Lossy line)
  if text.isEmpty then none else some text

/-- Take what has arrived; the requests in the lines that are complete now. -/
def LineBuffer.push (b : LineBuffer) (bytes : List UInt8) : Except Text (LineBuffer × List Text) :=
  let buf := b.buf ++ bytes
  let left := unfinished newline buf
  if maxLine < left.length then .error "request line longer than 65536 bytes".toList
  else .ok ({ buf := left }, (completed newline buf).filterMap request)

/-- What a read of the socket answers. -/
inductive Read where
  | data (bytes : List UInt8)
  | closed
  | wouldBlock
  | interrupted
  | failed

inductive ReadError where
  | unexpectedEof
  | invalidData (e : Text)
  | other
  | brokenPipe

/-- Read everything the client has sent, with the requests so far; `flushed` says whether
what an earlier write could not push out went out now. -/
def readClient (flushed : Bool) (b : LineBuffer) (requests : List Text) :
    List Read → Except ReadError (LineBuffer × List Text)
  | [] | .wouldBlock :: _ => if flushed then .ok (b, requests) else .error .brokenPipe
  | .data bytes :: reads =>
      match b.push bytes with
      | .ok (b, new) => readClient flushed b (requests ++ new) reads
      | .error e => .error (.invalidData e)
  | .interrupted :: reads => readClient flushed b requests reads
  | .closed :: _ => .error .unexpectedEof
  | .failed :: _ => .error .other

/-- Everything a client sends, cut into what is there each time it is read and that into
reads: the requests that come out, and whether it ends with an error. -/
def serve (b : LineBuffer) : List (List (List UInt8)) → List Text × Bool
  | [] => ([], false)
  | chunks :: turns =>
      match readClient true b [] (chunks.map Read.data ++ [.wouldBlock]) with
      | .error _ => ([], true)
      | .ok (b, requests) =>
          let (more, failed) := serve b turns
          (requests ++ more, failed)

/-! ### What should come out -/

def sent (turns : List (List (List UInt8))) : List UInt8 := turns.flatten.flatten

/-- A line of the stream, complete or not, is too long. -/
def TooLong (stream : List UInt8) : Prop := ∃ l ∈ stream.splitOn newline, maxLine < l.length

/-- The complete lines before the first that is too long. -/
def front (stream : List UInt8) : List (List UInt8) :=
  (completed newline stream).takeWhile fun l => l.length ≤ maxLine

/-- The requests before the line that is too long come out, and an error if there is one. -/
structure Framed (turns : List (List (List UInt8))) : Prop where
  requests : (serve {} turns).1 = (front (sent turns)).filterMap request
  error : (serve {} turns).2 = true ↔ TooLong (sent turns)

/-! ### When it does -/

/-- Some read leaves more of a line than there may be. -/
def overflows (before : List UInt8) : List (List UInt8) → Bool
  | [] => false
  | bytes :: chunks =>
      maxLine < (unfinished newline (before ++ bytes)).length || overflows (before ++ bytes) chunks

/-- What arrived before the turn in which too much is left of a line, and whether there is
such a turn. -/
def reached (before : List UInt8) : List (List (List UInt8)) → List UInt8 × Bool
  | [] => (before, false)
  | chunks :: turns =>
      if overflows before chunks then (before, true) else reached (before ++ chunks.flatten) turns

/-- A line that is too long is noticed while it is kept, and between the turns before that
and the first such line, whichever comes first, there are only blank lines. -/
structure Noticed (turns : List (List (List UInt8))) : Prop where
  kept : TooLong (sent turns) → (reached [] turns).2 = true
  blank : ∀ l ∈ (front (sent turns)).drop (completed newline (reached [] turns).1).length ++
    (completed newline (reached [] turns).1).drop (front (sent turns)).length, request l = none

/-! ### What the buffer holds -/

variable {before : List UInt8}

theorem push_unfinished (before bytes : List UInt8) :
    LineBuffer.push ⟨unfinished newline before⟩ bytes =
      if maxLine < (unfinished newline (before ++ bytes)).length then
        .error "request line longer than 65536 bytes".toList
      else .ok (⟨unfinished newline (before ++ bytes)⟩,
        (completed newline (unfinished newline before ++ bytes)).filterMap request) := by
  rw [LineBuffer.push, (completed_append newline before bytes).2]

theorem requests_append (before bytes : List UInt8) :
    (completed newline (before ++ bytes)).filterMap request =
      (completed newline before).filterMap request ++
        (completed newline (unfinished newline before ++ bytes)).filterMap request := by
  rw [(completed_append newline before bytes).1, List.filterMap_append]

theorem readClient_data (before : List UInt8) (requests : List Text) (chunks : List (List UInt8)) :
    (overflows before chunks = true ∧ ∃ e, readClient true ⟨unfinished newline before⟩ requests
        (chunks.map Read.data ++ [.wouldBlock]) = .error e) ∨
      overflows before chunks = false ∧ ∃ new,
        readClient true ⟨unfinished newline before⟩ requests
          (chunks.map Read.data ++ [.wouldBlock]) =
            .ok (⟨unfinished newline (before ++ chunks.flatten)⟩, requests ++ new) ∧
        (completed newline (before ++ chunks.flatten)).filterMap request =
          (completed newline before).filterMap request ++ new := by
  induction chunks generalizing before requests with
  | nil => exact .inr ⟨rfl, [], by simp [readClient], by simp⟩
  | cons bytes chunks ih =>
      rw [List.map_cons, List.cons_append, readClient, push_unfinished, overflows]
      by_cases hlong : maxLine < (unfinished newline (before ++ bytes)).length
      · rw [if_pos hlong]
        exact .inl ⟨by simp [hlong], _, rfl⟩
      · rw [if_neg hlong]
        simp only [hlong, decide_false, Bool.false_or]
        obtain ⟨hover, herror⟩ | ⟨hover, new, hok, hnew⟩ := ih (before ++ bytes)
          (requests ++ (completed newline (unfinished newline before ++ bytes)).filterMap request)
        · exact .inl ⟨hover, herror⟩
        · refine .inr ⟨hover, (completed newline (unfinished newline before ++ bytes)).filterMap
            request ++ new, ?_, ?_⟩
          · rw [hok, List.flatten_cons, List.append_assoc, List.append_assoc]
          · rw [List.flatten_cons, ← List.append_assoc, hnew, requests_append, List.append_assoc]

theorem serve_eq (before : List UInt8) (turns : List (List (List UInt8))) :
    (completed newline before).filterMap request ++
        (serve ⟨unfinished newline before⟩ turns).1 =
      (completed newline (reached before turns).1).filterMap request ∧
    (serve ⟨unfinished newline before⟩ turns).2 = (reached before turns).2 := by
  induction turns generalizing before with
  | nil => simp [serve, reached]
  | cons chunks turns ih =>
      rw [serve, reached]
      obtain ⟨hover, e, herror⟩ | ⟨hover, new, hok, hnew⟩ := readClient_data before [] chunks
      · rw [hover, if_pos rfl, herror]
        simp
      · rw [hover, if_neg Bool.false_ne_true, hok, List.nil_append]
        obtain ⟨hrequests, hfailed⟩ := ih (before ++ chunks.flatten)
        exact ⟨by rw [← hrequests, hnew, List.append_assoc], hfailed⟩

/-! ### What is reached -/

theorem completed_prefix {xs ys : List UInt8} (h : xs <+: ys) :
    completed newline xs <+: completed newline ys := by
  obtain ⟨zs, rfl⟩ := h
  rw [(completed_append newline xs zs).1]
  exact List.prefix_append _ _

theorem tooLong_of_unfinished {xs ys : List UInt8} (h : xs <+: ys)
    (hlong : maxLine < (unfinished newline xs).length) : TooLong ys := by
  obtain ⟨zs, rfl⟩ := h
  have hu : newline ∉ unfinished newline xs :=
    not_mem_of_mem_splitOn (List.getLast_mem (List.splitOn_ne_nil newline xs))
  have hpieces : (unfinished newline xs ++ zs).splitOn newline =
      Text.glue [unfinished newline xs] (zs.splitOn newline) := by
    rw [← List.splitOn_eq_singleton hu]
    exact Text.splitOnP_append _ _ _
  rw [Text.glue_singleton_left] at hpieces
  refine ⟨unfinished newline xs ++ (zs.splitOn newline).headD [], ?_, ?_⟩
  · rw [splitOn_append, hpieces]
    exact List.mem_append_right _ List.mem_cons_self
  · rw [List.length_append]
    exact Nat.lt_add_right _ hlong

theorem tooLong_of_overflows {before : List UInt8} {chunks : List (List UInt8)}
    (h : overflows before chunks = true) (more : List UInt8) :
    TooLong (before ++ chunks.flatten ++ more) := by
  induction chunks generalizing before with
  | nil => cases h
  | cons bytes chunks ih =>
      rw [overflows, Bool.or_eq_true, decide_eq_true_eq] at h
      rw [List.flatten_cons, ← List.append_assoc]
      obtain hlong | hrest := h
      · refine tooLong_of_unfinished ?_ hlong
        rw [List.append_assoc]
        exact List.prefix_append _ _
      · exact ih hrest

theorem reached_spec (before : List UInt8) (turns : List (List (List UInt8))) :
    (reached before turns).1 <+: before ++ sent turns ∧
      ((reached before turns).2 = true → TooLong (before ++ sent turns)) ∧
      ((reached before turns).2 = false → (reached before turns).1 = before ++ sent turns) := by
  induction turns generalizing before with
  | nil => simp [reached, sent]
  | cons chunks turns ih =>
      have hsent : before ++ sent (chunks :: turns) = before ++ chunks.flatten ++ sent turns := by
        rw [sent, List.flatten_cons, List.flatten_append, List.append_assoc, sent]
      rw [reached, hsent]
      cases hover : overflows before chunks with
      | true =>
          refine ⟨?_, fun _ => tooLong_of_overflows hover _, nofun⟩
          rw [List.append_assoc]
          exact List.prefix_append _ _
      | false => exact ih (before ++ chunks.flatten)

theorem filterMap_eq_of_prefix {α β : Type*} {f : α → Option β} {l l' : List α} (h : l <+: l') :
    l.filterMap f = l'.filterMap f ↔ ∀ a ∈ l'.drop l.length, f a = none := by
  obtain ⟨m, rfl⟩ := h
  rw [List.filterMap_append, List.drop_left, List.self_eq_append_right, List.filterMap_eq_nil_iff]

theorem filterMap_eq_iff {α β : Type*} {f : α → Option β} {l m n : List α} (hl : l <+: n)
    (hm : m <+: n) : l.filterMap f = m.filterMap f ↔
      ∀ a ∈ m.drop l.length ++ l.drop m.length, f a = none := by
  obtain h | h := List.prefix_or_prefix_of_prefix hl hm
  · rw [ filterMap_eq_of_prefix h, List.drop_of_length_le h.length_le, List.append_nil]
  · rw [eq_comm, filterMap_eq_of_prefix h, List.drop_of_length_le h.length_le, List.nil_append]

/-- The requests of what was reached are those that should come out exactly when what is
between the two is blank. -/
theorem requests_iff (turns : List (List (List UInt8))) :
    (serve {} turns).1 = (front (sent turns)).filterMap request ↔
      ∀ l ∈ (front (sent turns)).drop (completed newline (reached [] turns).1).length ++
        (completed newline (reached [] turns).1).drop (front (sent turns)).length,
        request l = none := by
  have hrequests : (serve {} turns).1 =
      (completed newline (reached [] turns).1).filterMap request := (serve_eq [] turns).1
  have hfront : front (sent turns) <+: completed newline (sent turns) := List.takeWhile_prefix _
  rw [hrequests]
  exact filterMap_eq_iff ( completed_prefix (reached_spec [] turns).1) hfront

theorem failed_eq (turns : List (List (List UInt8))) :
    (serve {} turns).2 = (reached [] turns).2 := (serve_eq [] turns).2

theorem Framed.noticed {turns : List (List (List UInt8))} (h : Framed turns) : Noticed turns :=
  ⟨fun hlong => (failed_eq turns).symm.trans (h.error.mpr hlong),
    (requests_iff turns).mp h.requests⟩

theorem Noticed.framed {turns : List (List (List UInt8))} (h : Noticed turns) : Framed turns := by
  refine ⟨(requests_iff turns).mpr h.blank, fun herror => ?_, fun hlong => ?_⟩
  · exact (reached_spec [] turns).2.1 ((failed_eq turns).symm.trans herror)
  · exact (failed_eq turns).trans (h.kept hlong)

theorem newline_not_mem_letters (n : Nat) : newline ∉ List.replicate n (120 : UInt8) := fun h =>
  absurd (List.eq_of_mem_replicate h) (by decide)

/-- Reads of the same letter, and at last the end of the line. -/
theorem overflows_letters (m : Nat) {k : Nat} (h : k + m * 4096 ≤ maxLine) :
    overflows (List.replicate k 120)
      (List.replicate m (List.replicate 4096 120) ++ [[120, newline]]) = false := by
  induction m generalizing k with
  | zero =>
      have hsplit : (List.replicate k 120 ++ [120, newline]).splitOn newline =
          [List.replicate (k + 1) 120, []] := by
        rw [List.append_cons, ← List.replicate_succ',
          List.splitOn_append_cons_self_of_not_mem (newline_not_mem_letters _), List.splitOn_nil]
      rw [List.replicate_zero, List.nil_append, overflows, overflows, Bool.or_false, unfinished]
      simp only [hsplit]
      rfl
  | succ m ih =>
      have hkept : (unfinished newline (List.replicate (k + 4096) 120)).length = k + 4096 := by
        simp only [unfinished, List.splitOn_eq_singleton (newline_not_mem_letters _),
          List.getLast_singleton, List.length_replicate]
      rw [List.replicate_succ, List.cons_append, overflows, ← List.replicate_add, hkept,
        ih (by omega), Bool.or_false, decide_eq_false (by omega)]

end MindOS.Ipc
