import MindOS.Transition
import MindOS.Vectors

/-!
# Pipes

## Pipes

Readers and writers of a pipe take its lock for one section at a time: a look at the room there is,
a copy into the ring, a copy out of it. A step is one section of one thread, or a look at the number
of open ends. What was written and read is kept beside it.
-/

namespace MindOS.Kernel.Fs

namespace Pipe

inductive Errno where
  | EPIPE | EAGAIN | EINTR
  deriving DecidableEq, Repr

def PIPE_BUF_SIZE : Nat := 64 * 1024

/-- Where a writer stands in its loop: before the look at the readers, before the look at the room,
before the copy, in the wait. -/
inductive WriteAt where
  | readers
  | space
  | copy
  | wait
  deriving DecidableEq

/-- Where a reader stands: before the copy, before the look at the writers, in the wait. -/
inductive ReadAt where
  | copy
  | writers
  | wait
  deriving DecidableEq

/-- What a thread is at; a write has a number. -/
inductive Point where
  | idle
  | writing (call : Nat) (data : List UInt8) (done : Nat) (place : WriteAt)
  | reading (n : Nat) (place : ReadAt)
  deriving DecidableEq

inductive Act (T : Type) where
  | write (t : T) (data : List UInt8)
  | read (t : T) (n : Nat)
  /-- The next section of a thread, which finds its file non-blocking or not. -/
  | go (t : T) (nonblock : Bool)
  /-- A signal ends a wait. -/
  | interrupt (t : T)
  | setReaders (n : Nat)
  | setWriters (n : Nat)

/-- `if buf.len() <= 4096 { buf.len() } else { 1 }` -/
def need (data : List UInt8) : Nat := if data.length ≤ 4096 then data.length else 1

end Pipe

open Pipe

/-- A pipe, its threads, and its history: the data of the writes by their numbers, every byte
written with the number of its write, what the reads gave, and what the writes answered. -/
structure Pipe (T : Type) where
  buf : RingQueue UInt8 PIPE_BUF_SIZE
  readers : Nat
  writers : Nat
  point : T → Point
  begun : List (List UInt8)
  written : List (Nat × UInt8)
  given : List (List UInt8)
  answers : List (Nat × Except Pipe.Errno Nat)

namespace Pipe

variable {T : Type} [DecidableEq T]

def goTo (s : Pipe T) (t : T) (p : Point) : Pipe T :=
  { s with point := Function.update s.point t p }

def answer (s : Pipe T) (t : T) (call : Nat) (res : Except Errno Nat) : Pipe T :=
  { s.goTo t .idle with answers := s.answers ++ [(call, res)] }

/-- What a write answers that stops early. -/
def orDone (e : Errno) (done : Nat) : Except Errno Nat := if 0 < done then .ok done else .error e

/-- `write_some` -/
def writeSome (s : Pipe T) (call : Nat) (data : List UInt8) : Pipe T :=
  { s with
    buf := s.buf.write data
    written := s.written ++ (data.take s.buf.space).map (Prod.mk call) }

/-- `read_some` -/
def readSome (s : Pipe T) (n : Nat) : Pipe T :=
  { s with buf := s.buf.dropFront n, given := s.given ++ [s.buf.front n] }

def goWrite (s : Pipe T) (t : T) (nonblock : Bool) (call : Nat) (data : List UInt8) (done : Nat) :
    WriteAt → Option (Pipe T)
  | .readers =>
      if s.readers = 0 then some (s.answer t call (orDone .EPIPE done))
      else some (s.goTo t (.writing call data done .space))
  | .space =>
      if need data ≤ s.buf.space then some (s.goTo t (.writing call data done .copy))
      else if nonblock then some (s.answer t call (orDone .EAGAIN done))
      else some (s.goTo t (.writing call data done .wait))
  | .copy =>
      let copied := done + min s.buf.space (data.drop done).length
      let s := s.writeSome call (data.drop done)
      if copied < data.length then some (s.goTo t (.writing call data copied .readers))
      else some (s.answer t call (.ok copied))
  | .wait =>
      if need data ≤ s.buf.space ∨ s.readers = 0 then
        some (s.goTo t (.writing call data done .readers))
      else none

def goRead (s : Pipe T) (t : T) (nonblock : Bool) (n : Nat) : ReadAt → Option (Pipe T)
  | .copy =>
      if 0 < (s.buf.front n).length then some ((s.readSome n).goTo t .idle)
      else some (s.goTo t (.reading n .writers))
  | .writers =>
      if s.writers = 0 ∨ nonblock then some (s.goTo t .idle)
      else some (s.goTo t (.reading n .wait))
  | .wait =>
      if 0 < s.buf.len ∨ s.writers = 0 then some (s.goTo t (.reading n .copy)) else none

def step (s : Pipe T) : Act T → Option (Pipe T)
  | .write t data =>
      if s.point t = .idle then
        let call := s.begun.length
        let s := { s with begun := s.begun ++ [data] }
        if data = [] then some (s.answer t call (.ok 0))
        else some (s.goTo t (.writing call data 0 .readers))
      else none
  | .read t n =>
      if s.point t = .idle then
        if n = 0 then some s else some (s.goTo t (.reading n .copy))
      else none
  | .go t nonblock =>
      match s.point t with
      | .idle => none
      | .writing call data done place => s.goWrite t nonblock call data done place
      | .reading n place => s.goRead t nonblock n place
  | .interrupt t =>
      match s.point t with
      | .writing call _ done .wait => some (s.answer t call (orDone .EINTR done))
      | .reading _ .wait => some (s.goTo t .idle)
      | _ => none
  | .setReaders n => some { s with readers := n }
  | .setWriters n => some { s with writers := n }

/-- A pipe into which nothing was written. -/
def empty : Pipe T where
  buf := ⟨fun _ => 0, 0, 0, Nat.zero_le _⟩
  readers := 1
  writers := 1
  point _ := .idle
  begun := []
  written := []
  given := []
  answers := []

end Pipe

end MindOS.Kernel.Fs

/-!
## What goes through a pipe

What is read is what was written, in its order, however the sections of readers and writers follow
each other. A small write stays in one piece if there is room for all of it when it is copied, which
the look at the room before does not ensure.
-/

namespace MindOS.Kernel.Fs.Pipe

open Transition

variable {T : Type} [DecidableEq T] {s s' : Pipe T} {t : T} {a : Act T} {k n : Nat}
  {data : List UInt8}

/-- The bytes of a write that are in the pipe or were read. -/
def sent (s : Pipe T) (k : Nat) : List UInt8 := (s.written.filter (·.1 = k)).map Prod.snd

/-- What was read and what is in the pipe are the bytes written, in their order; of each write they
are the first bytes in their order, as many as it answered. -/
structure Fifo (s : Pipe T) : Prop where
  order : s.written.map Prod.snd = s.given.flatten ++ s.buf.contents
  sent : ∀ k data, s.begun[k]? = some data → s.sent k <+: data
  answered : ∀ k res, (k, res) ∈ s.answers → ∃ data, s.begun[k]? = some data ∧
    match res with
    | .ok n => s.sent k = data.take n ∧ n ≤ data.length
    | .error _ => s.sent k = []

/-- The bytes of a small write stand together. -/
def Atomic (s : Pipe T) : Prop :=
  ∀ k data, s.begun[k]? = some data → data.length ≤ 4096 →
    ∃ front back, s.written = front ++ (s.sent k).map (Prod.mk k) ++ back

/-- A small write is copied only where there is room for all that is left of it. -/
def Sound (s : Pipe T) (a : Act T) : Prop :=
  ∀ t nonblock k data done, a = .go t nonblock → s.point t = .writing k data done .copy →
    data.length ≤ 4096 → data.length - done ≤ s.buf.space

/-! ### What a step does -/

/-- The number of bytes of a write that are copied after the next copy. -/
def copied (s : Pipe T) (data : List UInt8) (done : Nat) : Nat :=
  done + min s.buf.space (data.drop done).length

/-- A step moves a thread without more, ends a write, copies for a write or for a read, begins a
write, or opens and closes ends. -/
inductive Happens (s : Pipe T) (a : Act T) : Pipe T → Prop
  | moves : ∀ t p, (∀ k data done q, p = .writing k data done q →
      ∃ q', s.point t = .writing k data done q') → Happens s a (s.goTo t p)
  | answers : ∀ t k data done q e, s.point t = .writing k data done q →
      Happens s a (s.answer t k (orDone e done))
  | copies : ∀ t nonblock k data done, a = .go t nonblock →
      s.point t = .writing k data done .copy → copied s data done < data.length →
      Happens s a ((s.writeSome k (data.drop done)).goTo t
        (.writing k data (copied s data done) .readers))
  | completes : ∀ t nonblock k data done, a = .go t nonblock →
      s.point t = .writing k data done .copy →
      Happens s a ((s.writeSome k (data.drop done)).answer t k (.ok (copied s data done)))
  | gives : ∀ t n, Happens s a ((s.readSome n).goTo t .idle)
  | begins : ∀ t data, Happens s a
      (goTo { s with begun := s.begun ++ [data] } t (.writing s.begun.length data 0 .readers))
  | beginsEmpty : ∀ t, Happens s a
      (answer { s with begun := s.begun ++ [[]] } t s.begun.length (.ok 0))
  | ends : ∀ r w, Happens s a { s with readers := r, writers := w }

theorem happens_goWrite {nonblock : Bool} {done : Nat} {place : WriteAt}
    (hp : s.point t = .writing k data done place) (ha : a = .go t nonblock)
    (h : s.goWrite t nonblock k data done place = some s') : Happens s a s' := by
  have hstay : ∀ q, Happens s a (s.goTo t (.writing k data done q)) := fun q =>
    .moves t _ fun k' data' done' q' heq => by
      cases heq
      exact ⟨_, hp⟩
  cases place with
  | readers =>
      rw [goWrite] at h
      split at h
      · cases h
        exact .answers t k data done _ _ hp
      · cases h
        exact hstay _
  | space =>
      rw [goWrite] at h
      split at h
      · cases h
        exact hstay _
      split at h
      · cases h
        exact .answers t k data done _ _ hp
      · cases h
        exact hstay _
  | copy =>
      rw [goWrite] at h
      split at h
      · rename_i hmore
        cases h
        exact .copies t nonblock k data done ha hp hmore
      · cases h
        exact .completes t nonblock k data done ha hp
  | wait =>
      rw [goWrite] at h
      split at h
      · cases h
        exact hstay _
      · cases h

theorem happens_goRead {nonblock : Bool} {place : ReadAt}
    (h : s.goRead t nonblock n place = some s') : Happens s a s' := by
  have hmove : ∀ p, (∀ k data done q, p ≠ .writing k data done q) → Happens s a (s.goTo t p) :=
    fun p hp => .moves t p fun k data done q heq => absurd heq (hp k data done q)
  cases place with
  | copy =>
      rw [goRead] at h
      split at h
      · cases h
        exact .gives t n
      · cases h
        exact hmove _ fun _ _ _ _ => Point.noConfusion
  | writers =>
      rw [goRead] at h
      split at h
      · cases h
        exact hmove _ fun _ _ _ _ => Point.noConfusion
      · cases h
        exact hmove _ fun _ _ _ _ => Point.noConfusion
  | wait =>
      rw [goRead] at h
      split at h
      · cases h
        exact hmove _ fun _ _ _ _ => Point.noConfusion
      · cases h

theorem happens_of_step (h : s.step a = some s') : Happens s a s' := by
  have hmove : ∀ t p, (∀ k data done q, p ≠ .writing k data done q) →
      Happens s a (s.goTo t p) :=
    fun t p hp => .moves t p fun k data done q heq => absurd heq (hp k data done q)
  cases a with
  | write t data =>
      rw [step] at h
      split at h
      · dsimp only at h
        split at h
        · rename_i hempty
          cases h
          rw [hempty]
          exact .beginsEmpty t
        · cases h
          exact .begins t data
      · cases h
  | read t n =>
      rw [step] at h
      split at h
      · split at h
        · cases h
          exact .ends s.readers s.writers
        · cases h
          exact hmove _ _ fun _ _ _ _ => Point.noConfusion
      · cases h
  | go t nonblock =>
      rw [step] at h
      split at h
      · cases h
      · rename_i k data done place hp
        exact happens_goWrite hp rfl h
      · exact happens_goRead h
  | interrupt t =>
      rw [step] at h
      split at h
      · rename_i hp
        cases h
        exact .answers t _ _ _ _ _ hp
      · cases h
        exact hmove _ _ fun _ _ _ _ => Point.noConfusion
      · cases h
  | setReaders n =>
      cases h
      exact .ends n s.writers
  | setWriters n =>
      cases h
      exact .ends s.readers n

/-! ### The bytes of each write -/

/-- What holds of the history of a pipe, and of the writes that go on. -/
structure Inv (s : Pipe T) : Prop extends s.Fifo where
  known : ∀ x ∈ s.written, x.1 < s.begun.length
  active : ∀ t k data done p, s.point t = .writing k data done p →
    s.begun[k]? = some data ∧ s.sent k = data.take done ∧ done ≤ data.length
  single : ∀ t t' k data data' done done' p p', s.point t = .writing k data done p →
    s.point t' = .writing k data' done' p' → t = t'
  unanswered : ∀ t k data done p, s.point t = .writing k data done p →
    ∀ res, (k, res) ∉ s.answers

theorem map_snd_mk (k : Nat) (data : List UInt8) : (data.map (Prod.mk k)).map Prod.snd = data := by
  simp [List.map_map, Function.comp_def]

omit [DecidableEq T] in
theorem sent_writeSome (s : Pipe T) (k j : Nat) (data : List UInt8) :
    (s.writeSome k data).sent j = s.sent j ++ if j = k then data.take s.buf.space else [] := by
  rw [sent, sent, writeSome, List.filter_append, List.map_append]
  congr 1
  split
  · rename_i hjk
    rw [List.filter_eq_self.mpr fun x hx => ?_, map_snd_mk]
    · obtain ⟨b, -, rfl⟩ := List.mem_map.mp hx
      exact decide_eq_true hjk.symm
  · rename_i hjk
    rw [List.filter_eq_nil_iff.mpr fun x hx => ?_]
    · rfl
    · obtain ⟨b, -, rfl⟩ := List.mem_map.mp hx
      simpa using Ne.symm hjk

theorem point_goTo {p q : Point} {t' : T} (h : (s.goTo t p).point t' = q) :
    t' = t ∧ q = p ∨ t' ≠ t ∧ s.point t' = q := by
  change Function.update s.point t p t' = q at h
  by_cases ht : t' = t
  · rw [ht, Function.update_self] at h
    exact .inl ⟨ht, h.symm⟩
  · rw [Function.update_of_ne ht] at h
    exact .inr ⟨ht, h⟩

theorem Inv.goTo (h : s.Inv) {p : Point} (hp : ∀ k data done q, p = .writing k data done q →
    ∃ q', s.point t = .writing k data done q') : (s.goTo t p).Inv := by
  have hback : ∀ {t' k data done q}, (s.goTo t p).point t' = .writing k data done q →
      ∃ q', s.point t' = .writing k data done q' := fun ht' => by
    obtain ⟨rfl, heq⟩ | ⟨-, hpt⟩ := point_goTo ht'
    · exact hp _ _ _ _ heq.symm
    · exact ⟨_, hpt⟩
  refine ⟨⟨h.order, h.sent, h.answered⟩, h.known, fun t' k data done q hq => ?_,
    fun t' u k data data' done done' q q' hq hq' => ?_, fun t' k data done q hq => ?_⟩
  · obtain ⟨q', hq'⟩ := hback hq
    exact h.active t' k data done q' hq'
  · obtain ⟨r, hr⟩ := hback hq
    obtain ⟨r', hr'⟩ := hback hq'
    exact h.single t' u k data data' done done' r r' hr hr'
  · obtain ⟨q', hq'⟩ := hback hq
    exact h.unanswered t' k data done q' hq'

theorem Inv.answer (h : s.Inv) {done : Nat} {q : WriteAt} {res : Except Errno Nat}
    (hp : s.point t = .writing k data done q)
    (hres : res = .ok done ∨ done = 0 ∧ ∃ e, res = .error e) : (s.answer t k res).Inv := by
  have hidle : (s.goTo t .idle).Inv := h.goTo fun _ _ _ _ => Point.noConfusion
  obtain ⟨hdata, hsent, hle⟩ := h.active t k data done q hp
  refine ⟨⟨h.order, h.sent, fun j r hr => ?_⟩, h.known, hidle.active, hidle.single,
    fun t' j data' done' p hp' r hr => ?_⟩
  · rcases List.mem_append.mp hr with hr | hr
    · exact h.answered j r hr
    · obtain ⟨rfl, rfl⟩ := Prod.mk.inj (List.mem_singleton.mp hr)
      refine ⟨data, hdata, ?_⟩
      obtain rfl | ⟨rfl, e, rfl⟩ := hres
      · exact ⟨hsent, hle⟩
      · exact hsent
  · rcases List.mem_append.mp hr with hr | hr
    · exact hidle.unanswered t' j data' done' p hp' r hr
    · obtain ⟨rfl, rfl⟩ := Prod.mk.inj (List.mem_singleton.mp hr)
      obtain ⟨-, hcase⟩ | ⟨hne, hpt⟩ := point_goTo hp'
      · cases hcase
      · exact hne (h.single _ _ _ _ _ _ _ _ _ hpt hp)

theorem Inv.copies (h : s.Inv) {done : Nat} (hp : s.point t = .writing k data done .copy) :
    ((s.writeSome k (data.drop done)).goTo t
      (.writing k data (copied s data done) .readers)).Inv := by
  obtain ⟨hdata, hsent, hle⟩ := h.active t k data done _ hp
  have hk : k < s.begun.length := (List.getElem?_eq_some_iff.mp hdata).1
  have hcopied : (s.writeSome k (data.drop done)).sent k = data.take (copied s data done) := by
    rw [sent_writeSome, if_pos rfl, hsent, copied, List.take_add]
    congr 1
    rw [← List.take_take, List.take_length]
  have hother : ∀ j, j ≠ k → (s.writeSome k (data.drop done)).sent j = s.sent j := fun j hj => by
    rw [sent_writeSome, if_neg hj, List.append_nil]
  have hlength : (data.drop done).length = data.length - done := List.length_drop
  have hcopied_le : copied s data done ≤ data.length := by
    rw [copied, hlength]
    omega
  have hunanswered := h.unanswered t k data done _ hp
  refine ⟨⟨?_, fun j d hd => ?_, fun j res hres => ?_⟩, fun x hx => ?_,
    fun t' j d dn q hq => ?_, fun t' u j d d' dn dn' q q' hq hq' => ?_,
    fun t' j d dn q hq => ?_⟩
  · change (s.written ++ _).map Prod.snd = s.given.flatten ++ (s.buf.write _).contents
    rw [List.map_append, h.order, RingQueue.contents_write, map_snd_mk, List.append_assoc]
  · by_cases hj : j = k
    · subst hj
      obtain rfl : data = d := Option.some.inj (hdata.symm.trans hd)
      exact hcopied ▸ List.take_prefix _ _
    · exact (hother j hj) ▸ h.sent j d hd
  · have hj : j ≠ k := fun hj => hunanswered res (hj ▸ hres)
    obtain ⟨d, hd, hr⟩ := h.answered j res hres
    refine ⟨d, hd, ?_⟩
    cases res with
    | ok n => exact ⟨(hother j hj).trans hr.1, hr.2⟩
    | error e => exact (hother j hj).trans hr
  · rcases List.mem_append.mp hx with hx | hx
    · exact h.known x hx
    · obtain ⟨b, -, rfl⟩ := List.mem_map.mp hx
      exact hk
  · obtain ⟨-, heq⟩ | ⟨hne, hpt⟩ := point_goTo hq
    · cases heq
      exact ⟨hdata, hcopied, hcopied_le⟩
    · obtain ⟨hd, hs, hl⟩ := h.active t' j d dn q hpt
      have hj : j ≠ k := fun hj => by
        subst hj
        exact hne (h.single _ _ _ _ _ _ _ _ _ hpt hp)
      exact ⟨hd, (hother j hj).trans hs, hl⟩
  · obtain ⟨rfl, heq⟩ | ⟨hne, hpt⟩ := point_goTo hq <;>
      obtain ⟨rfl, heq'⟩ | ⟨hne', hpt'⟩ := point_goTo hq'
    · rfl
    · cases heq
      exact (h.single _ _ _ _ _ _ _ _ _ hpt' hp).symm
    · cases heq'
      exact h.single _ _ _ _ _ _ _ _ _ hpt hp
    · exact h.single _ _ _ _ _ _ _ _ _ hpt hpt'
  · obtain ⟨-, heq⟩ | ⟨-, hpt⟩ := point_goTo hq
    · cases heq
      exact hunanswered
    · exact h.unanswered t' j d dn q hpt

theorem Inv.gives (h : s.Inv) (t : T) (n : Nat) : ((s.readSome n).goTo t .idle).Inv := by
  have hread : (s.readSome n).Inv := by
    refine ⟨⟨?_, h.sent, h.answered⟩, h.known, h.active, h.single, h.unanswered⟩
    change s.written.map Prod.snd = (s.given ++ [s.buf.front n]).flatten ++
      (s.buf.dropFront n).contents
    rw [h.order, List.flatten_append, List.flatten_singleton, List.append_assoc,
      RingQueue.front_append_dropFront]
  exact hread.goTo fun _ _ _ _ => Point.noConfusion

omit [DecidableEq T] in
theorem Inv.sent_eq_nil (h : s.Inv) (hk : s.begun.length ≤ k) : s.sent k = [] := by
  rw [sent, List.filter_eq_nil_iff.mpr fun x hx => ?_]
  · rfl
  · have hlt := h.known x hx
    simpa using (hlt.trans_le hk).ne

theorem Inv.begins (h : s.Inv) (t : T) (data : List UInt8) :
    (Pipe.goTo { s with begun := s.begun ++ [data] } t
      (.writing s.begun.length data 0 .readers)).Inv := by
  have hlast : (s.begun ++ [data])[s.begun.length]? = some data := by simp
  have hnone := h.sent_eq_nil (Nat.le_refl s.begun.length)
  have hold : ∀ {k d}, s.begun[k]? = some d → (s.begun ++ [data])[k]? = some d := fun hd => by
    rw [List.getElem?_append_left (List.getElem?_eq_some_iff.mp hd).1, hd]
  have hnew : ∀ {k d}, (s.begun ++ [data])[k]? = some d →
      s.begun[k]? = some d ∨ k = s.begun.length ∧ d = data := fun {k d} hd => by
    rcases Nat.lt_or_ge k s.begun.length with hk | hk
    · rw [List.getElem?_append_left hk] at hd
      exact .inl hd
    · have hlt := (List.getElem?_eq_some_iff.mp hd).1
      rw [List.length_append, List.length_singleton] at hlt
      obtain rfl : k = s.begun.length := by omega
      exact .inr ⟨rfl, Option.some.inj (hd.symm.trans hlast)⟩
  have hactive : ∀ {t' k d dn q}, s.point t' = .writing k d dn q → k < s.begun.length :=
    fun hp => (List.getElem?_eq_some_iff.mp (h.active _ _ _ _ _ hp).1).1
  refine ⟨⟨h.order, fun k d hd => ?_, fun k res hres => ?_⟩, fun x hx => ?_,
    fun t' k d dn q hq => ?_, fun t' u k d d' dn dn' q q' hq hq' => ?_,
    fun t' k d dn q hq res hres => ?_⟩
  · obtain hd | ⟨rfl, rfl⟩ := hnew hd
    · exact h.sent k d hd
    · exact hnone ▸ List.nil_prefix
  · obtain ⟨d, hd, hr⟩ := h.answered k res hres
    exact ⟨d, hold hd, hr⟩
  · have hlt := h.known x hx
    change x.1 < (s.begun ++ [data]).length
    rw [List.length_append]
    omega
  · obtain ⟨-, heq⟩ | ⟨-, hpt⟩ := point_goTo hq
    · cases heq
      exact ⟨hlast, hnone, Nat.zero_le _⟩
    · obtain ⟨hd, hs, hl⟩ := h.active t' k d dn q hpt
      exact ⟨hold hd, hs, hl⟩
  · obtain ⟨rfl, heq⟩ | ⟨-, hpt⟩ := point_goTo hq <;>
      obtain ⟨rfl, heq'⟩ | ⟨-, hpt'⟩ := point_goTo hq'
    · rfl
    · cases heq
      exact absurd (hactive hpt') (Nat.lt_irrefl _)
    · cases heq'
      exact absurd (hactive hpt) (Nat.lt_irrefl _)
    · exact h.single _ _ _ _ _ _ _ _ _ hpt hpt'
  · obtain ⟨-, heq⟩ | ⟨-, hpt⟩ := point_goTo hq
    · cases heq
      obtain ⟨d, hd, -⟩ := h.answered _ res hres
      exact absurd (List.getElem?_eq_some_iff.mp hd).1 (Nat.lt_irrefl _)
    · exact h.unanswered t' k d dn q hpt res hres

theorem answer_goTo (s : Pipe T) (t : T) (p : Point) (k : Nat) (res : Except Errno Nat) :
    (s.goTo t p).answer t k res = s.answer t k res := by
  rw [answer, answer, Pipe.goTo, Pipe.goTo, Pipe.goTo, Function.update_idem]

theorem Inv.happens (h : s.Inv) (hs : Happens s a s') : s'.Inv := by
  cases hs with
  | moves t p hp => exact h.goTo hp
  | answers t k data done q e hp =>
      refine h.answer hp ?_
      rw [orDone]
      split
      · exact .inl rfl
      · exact .inr ⟨by omega, e, rfl⟩
  | copies t nonblock k data done _ hp => exact h.copies hp
  | completes t nonblock k data done _ hp =>
      rw [← answer_goTo _ t (.writing k data (copied s data done) .readers)]
      exact (h.copies hp).answer (Function.update_self _ _ _) (.inl rfl)
  | gives t n => exact h.gives t n
  | begins t data => exact h.begins t data
  | beginsEmpty t =>
      rw [← answer_goTo _ t (.writing s.begun.length [] 0 .readers)]
      exact (h.begins t []).answer (Function.update_self _ _ _) (.inl rfl)
  | ends r w => exact ⟨⟨h.order, h.sent, h.answered⟩, h.known, h.active, h.single, h.unanswered⟩

/-! ### Small writes -/

/-- Small writes are copied at one go. -/
structure Whole (s : Pipe T) : Prop extends s.Inv where
  atomic : s.Atomic
  fresh : ∀ t k data done p, s.point t = .writing k data done p → data.length ≤ 4096 → done = 0

omit [DecidableEq T] in
theorem Atomic.congr (h : s.Atomic) (hbegun : s'.begun = s.begun)
    (hwritten : s'.written = s.written) : s'.Atomic := by
  intro k data hk hsmall
  rw [hbegun] at hk
  obtain ⟨front, back, hsplit⟩ := h k data hk hsmall
  refine ⟨front, back, ?_⟩
  rw [sent, hwritten]
  exact hsplit

omit [DecidableEq T] in
theorem Inv.atomic_begins (h : s.Inv) (hatomic : s.Atomic) (hbegun : s'.begun = s.begun ++ [data])
    (hwritten : s'.written = s.written) : s'.Atomic := by
  intro k d hk hsmall
  have hsent : s'.sent k = s.sent k := by rw [sent, sent, hwritten]
  rw [hsent, hwritten]
  rcases Nat.lt_or_ge k s.begun.length with hlt | hge
  · rw [hbegun, List.getElem?_append_left hlt] at hk
    exact hatomic k d hk hsmall
  · refine ⟨s.written, [], ?_⟩
    rw [h.sent_eq_nil hge, List.map_nil, List.append_nil, List.append_nil]

omit [DecidableEq T] in
/-- What is copied at one go stands together, and breaks nothing apart that did. -/
theorem Whole.atomic_writeSome (h : s.Whole) {done : Nat}
    (hp : s.point t = .writing k data done .copy)
    (hroom : data.length ≤ 4096 → data.length - done ≤ s.buf.space) :
    (s.writeSome k (data.drop done)).Atomic := by
  obtain ⟨hdata, hsent, -⟩ := h.active t k data done _ hp
  intro j d hj hsmall
  by_cases hjk : j = k
  · subst hjk
    obtain rfl : data = d := Option.some.inj (hdata.symm.trans hj)
    obtain rfl := h.fresh t j data done _ hp hsmall
    refine ⟨s.written, [], ?_⟩
    rw [sent_writeSome, if_pos rfl, hsent, List.take_zero, List.nil_append, List.append_nil]
    rfl
  · obtain ⟨front, back, hsplit⟩ := h.atomic j d hj hsmall
    refine ⟨front, back ++ ((data.drop done).take s.buf.space).map (Prod.mk k), ?_⟩
    rw [sent_writeSome, if_neg hjk, List.append_nil, ← List.append_assoc, ← hsplit]
    rfl

theorem Whole.happens (h : s.Whole) (hs : Happens s a s') (hsound : Sound s a) : s'.Whole := by
  have hinv := h.toInv.happens hs
  cases hs with
  | moves t p hp =>
      refine ⟨hinv, h.atomic.congr rfl rfl, fun t' k data done q hq hsmall => ?_⟩
      obtain ⟨-, heq⟩ | ⟨-, hpt⟩ := point_goTo hq
      · obtain ⟨q', hq'⟩ := hp k data done q heq.symm
        exact h.fresh t k data done q' hq' hsmall
      · exact h.fresh t' k data done q hpt hsmall
  | answers t k data done q e hp =>
      refine ⟨hinv, h.atomic.congr rfl rfl, fun t' j d dn p hp' hsmall => ?_⟩
      obtain ⟨-, heq⟩ | ⟨-, hpt⟩ := point_goTo hp'
      · cases heq
      · exact h.fresh t' j d dn p hpt hsmall
  | copies t nonblock k data done ha hp hmore =>
      have hroom := hsound t nonblock k data done ha hp
      refine ⟨hinv, (h.atomic_writeSome hp hroom).congr rfl rfl, fun t' j d dn q hq hsmall => ?_⟩
      obtain ⟨-, heq⟩ | ⟨-, hpt⟩ := point_goTo hq
      · cases heq
        have hroom := hroom hsmall
        rw [copied, List.length_drop] at hmore
        omega
      · exact h.fresh t' j d dn q hpt hsmall
  | completes t nonblock k data done ha hp =>
      refine ⟨hinv, (h.atomic_writeSome hp (hsound t nonblock k data done ha hp)).congr rfl rfl,
        fun t' j d dn q hq hsmall => ?_⟩
      obtain ⟨-, heq⟩ | ⟨-, hpt⟩ := point_goTo hq
      · cases heq
      · exact h.fresh t' j d dn q hpt hsmall
  | gives t n =>
      refine ⟨hinv, h.atomic.congr rfl rfl, fun t' j d dn q hq hsmall => ?_⟩
      obtain ⟨-, heq⟩ | ⟨-, hpt⟩ := point_goTo hq
      · cases heq
      · exact h.fresh t' j d dn q hpt hsmall
  | begins t data =>
      refine ⟨hinv, h.toInv.atomic_begins h.atomic rfl rfl, fun t' j d dn q hq hsmall => ?_⟩
      obtain ⟨-, heq⟩ | ⟨-, hpt⟩ := point_goTo hq
      · cases heq
        rfl
      · exact h.fresh t' j d dn q hpt hsmall
  | beginsEmpty t =>
      refine ⟨hinv, h.toInv.atomic_begins h.atomic rfl rfl, fun t' j d dn q hq hsmall => ?_⟩
      obtain ⟨-, heq⟩ | ⟨-, hpt⟩ := point_goTo hq
      · cases heq
      · exact h.fresh t' j d dn q hpt hsmall
  | ends r w => exact ⟨hinv, h.atomic.congr rfl rfl, h.fresh⟩

/-! ### Runs -/

omit [DecidableEq T] in
theorem empty_whole : (empty : Pipe T).Whole where
  order := rfl
  sent k data h := by cases h
  answered k res h := absurd h List.not_mem_nil
  known x h := absurd h List.not_mem_nil
  active t k data done p h := by cases h
  single t t' k data data' done done' p p' h := by cases h
  unanswered t k data done p h := by cases h
  atomic k data h := by cases h
  fresh t k data done p h := by cases h

/-- What is read is always what was written, in order; as long as small writes are copied only where
there is room for them, each of them stays in one piece. -/
theorem pipe_of_sound (acts : List (Act T)) :
    Along step (fun _ _ s => s.Fifo) empty acts ∧
      (Along step (fun s a _ => Sound s a) empty acts →
        Along step (fun _ _ s => s.Atomic) empty acts) := by
  constructor
  · exact along_of_invariant Inv (fun _ _ _ hs hstep => hs.happens (happens_of_step hstep))
      (fun _ hs => hs.toFifo) acts empty_whole.toInv
  · exact fun hsound => Along.imp Whole
      (fun _ _ _ hs hstep hsound => hs.happens (happens_of_step hstep) hsound)
      (fun _ _ _ hs hstep hsound => (hs.happens (happens_of_step hstep) hsound).atomic)
      empty_whole hsound

/-- Two small writes, whose sections take turns; both look at the room before either copies. -/
def twoWrites : List (Act Bool) :=
  [.write false [1, 2], .write true [3], .go false false, .go true false, .go false false,
    .go true false, .go true false, .go false false, .read false 4, .go false false]

omit [DecidableEq T] in
theorem sound_go {nonblock : Bool} (h : ∀ k data done, s.point t = .writing k data done .copy →
    data.length - done ≤ s.buf.space) : Sound s (.go t nonblock) := by
  rintro u nonblock k data done ⟨⟩ hp _
  exact h k data done hp

theorem pipe_of_sound_twoWrites :
    Along step (fun _ _ s => s.Fifo) empty twoWrites ∧
      Along step (fun _ _ s => s.Atomic) empty twoWrites ∧
      (exec step empty twoWrites).map given = some [[3, 1, 2]] := by
  have hother : ∀ {s : Pipe Bool} {t : Bool} {nonblock : Bool} {p : Point}, s.point t = p →
      (∀ k data done, p ≠ .writing k data done .copy) → Sound s (.go t nonblock) :=
    fun hp hne => sound_go fun k data done h => absurd (hp.symm.trans h) (hne k data done)
  obtain ⟨hfifo, hatomic⟩ := pipe_of_sound twoWrites
  refine ⟨hfifo, hatomic ?_, rfl⟩
  refine .cons rfl (nofun) <| .cons rfl (nofun) <| .cons rfl (hother rfl nofun) <|
    .cons rfl (hother rfl nofun) <| .cons rfl (hother rfl nofun) <|
    .cons rfl (hother rfl nofun) <| .cons rfl (sound_go ?_) <| .cons rfl (sound_go ?_) <|
    .cons rfl nofun <| .cons rfl (hother rfl nofun) trivial
  · rintro k data done h
    obtain ⟨rfl, rfl, rfl, -⟩ := Point.writing.inj (show Point.writing 1 [3] 0 .copy = _ from h)
    decide
  · rintro k data done h
    obtain ⟨rfl, rfl, rfl, -⟩ := Point.writing.inj (show Point.writing 0 [1, 2] 0 .copy = _ from h)
    decide

/-! ### Two writers -/

theorem exec_look (hidle : s.point t = .idle) (hreaders : s.readers ≠ 0) (hdata : data ≠ [])
    (hneed : need data ≤ s.buf.space) :
    ∃ s', exec step s [.write t data, .go t false, .go t false] = some s' ∧ s'.buf = s.buf ∧
      s'.readers = s.readers ∧ s'.begun = s.begun ++ [data] ∧ s'.written = s.written ∧
      s'.point = Function.update s.point t (.writing s.begun.length data 0 .copy) := by
  refine ⟨goTo { s with begun := s.begun ++ [data] } t (.writing s.begun.length data 0 .copy), ?_,
    rfl, rfl, rfl, rfl, rfl⟩
  simp [exec, step, hidle, hdata, goTo, goWrite, hreaders, hneed]

theorem exec_again {done : Nat} (hp : s.point t = .writing k data done .readers)
    (hreaders : s.readers ≠ 0) (hneed : need data ≤ s.buf.space) :
    ∃ s', exec step s [.go t false, .go t false] = some s' ∧ s'.buf = s.buf ∧
      s'.begun = s.begun ∧ s'.written = s.written ∧
      s'.point = Function.update s.point t (.writing k data done .copy) := by
  refine ⟨s.goTo t (.writing k data done .copy), ?_, rfl, rfl, rfl, rfl⟩
  simp [exec, step, hp, goTo, goWrite, hreaders, hneed]

theorem exec_copy {done : Nat} (hp : s.point t = .writing k data done .copy) :
    ∃ s', exec step s [.go t false] = some s' ∧ s'.buf = s.buf.write (data.drop done) ∧
      s'.readers = s.readers ∧ s'.begun = s.begun ∧
      s'.written = s.written ++ ((data.drop done).take s.buf.space).map (Prod.mk k) ∧
      s'.point = Function.update s.point t (if copied s data done < data.length then
        .writing k data (copied s data done) .readers else .idle) := by
  have hgo : exec step s [.go t false] = s.goWrite t false k data done .copy := by
    simp [exec, step, hp]
  rw [hgo, goWrite]
  by_cases hmore : copied s data done < data.length
  · refine ⟨(s.writeSome k (data.drop done)).goTo t (.writing k data (copied s data done) .readers),
      if_pos hmore, rfl, rfl, rfl, rfl, ?_⟩
    rw [if_pos hmore]
    rfl
  · refine ⟨(s.writeSome k (data.drop done)).answer t k (.ok (copied s data done)),
      if_neg hmore, rfl, rfl, rfl, rfl, ?_⟩
    rw [if_neg hmore]
    rfl

theorem exec_drain (hidle : s.point t = .idle) (hn : n ≠ 0) (hlen : 0 < min n s.buf.len) :
    ∃ s', exec step s [.read t n, .go t false] = some s' ∧ s'.buf = s.buf.dropFront n ∧
      s'.readers = s.readers ∧ s'.begun = s.begun ∧ s'.written = s.written ∧
      s'.point = Function.update s.point t .idle := by
  refine ⟨(s.readSome n).goTo t .idle, ?_, rfl, rfl, rfl, rfl, rfl⟩
  simp only [exec, step, hidle, if_pos, if_neg hn, goTo, goRead, Option.bind_some,
    Function.update_self, RingQueue.length_front, hlen, readSome, Function.update_idem]

omit [DecidableEq T] in
/-- Two bytes of one write with a byte of another between them. -/
theorem not_atomic_of_split {before : List (Nat × UInt8)} {a b c : UInt8} {j : Nat} (hjk : j ≠ k)
    (hbegun : s.begun[k]? = some [a, c]) (hbefore : ∀ x ∈ before, x.1 ≠ k)
    (hwritten : s.written = before ++ [(k, a), (j, b), (k, c)]) : ¬s.Atomic := by
  intro hatomic
  have hfilter : before.filter (·.1 = k) = [] :=
    List.filter_eq_nil_iff.mpr fun x hx => by simpa using hbefore x hx
  have hsent : s.sent k = [a, c] := by
    simp [sent, hwritten, List.filter_append, hfilter, hjk]
  obtain ⟨front, back, hsplit⟩ := hatomic k [a, c] hbegun (by simp)
  rw [hsent, hwritten] at hsplit
  have hcount := congrArg (fun l => (l.filter (·.1 = k)).length) hsplit
  simp [List.filter_append, hfilter, hjk] at hcount
  have hfront : ∀ x ∈ front, ¬x.1 = k := fun x hx => by
    have hnil : front.filter (·.1 = k) = [] := List.length_eq_zero_iff.mp (by omega)
    simpa using List.filter_eq_nil_iff.mp hnil x hx
  have hsame : before ++ (k, a) :: [(j, b), (k, c)] = front ++ (k, a) :: ((k, c) :: back) := by
    simpa using hsplit
  have hlength := first_unique (p := fun x => x.1 = k) hsame rfl rfl hbefore hfront
  have htail := (List.append_inj hsame hlength).2
  simp at htail
  exact hjk htail.1.1

theorem space_eq (r : RingQueue UInt8 PIPE_BUF_SIZE) : r.space = 65536 - r.len := rfl

/-- A ring with room for one byte more than a small write. -/
theorem exec_tight : ∃ (acts : List (Act (Fin 3))) (s : Pipe (Fin 3)),
    exec step empty acts = some s ∧ s.readers ≠ 0 ∧ (∀ t, s.point t = .idle) ∧
      s.begun.length = 1 ∧ (∀ x ∈ s.written, x.1 = 0) ∧ s.buf.space = 4097 := by
  obtain ⟨big, hbig⟩ : ∃ l : List UInt8, l.length = 61439 := ⟨_, List.length_replicate (a := 0)⟩
  have hspace₀ : (empty : Pipe (Fin 3)).buf.space = 65536 := rfl
  obtain ⟨s₁, h₁, hbuf₁, hreaders₁, hbegun₁, hwritten₁, hpoint₁⟩ := @exec_look (Fin 3) _ empty 0 big
    rfl (by decide) (List.ne_nil_of_length_pos (by omega)) (by rw [need, hbig, hspace₀]; decide)
  obtain ⟨s₂, h₂, hbuf₂, hreaders₂, hbegun₂, hwritten₂, hpoint₂⟩ := @exec_copy (Fin 3) _ s₁ 0 0
    big 0 (by rw [hpoint₁]; rfl)
  refine ⟨[.write 0 big, .go 0 false, .go 0 false] ++ [.go 0 false], s₂,
    by rw [exec_append, h₁]; exact h₂, ?_, fun t => ?_, ?_, fun x hx => ?_, ?_⟩
  · rw [hreaders₂, hreaders₁]
    decide
  · have hdone : ¬copied s₁ big 0 < big.length := by
      rw [copied, hbuf₁, hspace₀, List.drop_zero, hbig]
      decide
    rw [hpoint₂, if_neg hdone, hpoint₁, Function.update_idem]
    by_cases ht : t = 0
    · rw [ht, Function.update_self]
    · rw [Function.update_of_ne ht]
      rfl
  · rw [hbegun₂, hbegun₁]
    rfl
  · rw [hwritten₂, hwritten₁] at hx
    rcases List.mem_append.mp hx with hx | hx
    · cases hx
    · obtain ⟨b, -, rfl⟩ := List.mem_map.mp hx
      rfl
  · rw [space_eq, hbuf₂, hbuf₁, RingQueue.len_write, hspace₀, List.drop_zero, hbig]
    rfl

/-- Two writers find room for their small writes before either copies. -/
theorem writes_not_always_atomic :
    ¬∀ acts : List (Act (Fin 3)), Along step (fun _ _ s => s.Atomic) empty acts := by
  intro hall
  obtain ⟨acts, s₂, h₂, hr₂, hidle₂, hbegun₂, hwritten₂, hspace₂⟩ := exec_tight
  obtain ⟨one, hone⟩ : ∃ l : List UInt8, l.length = 4096 := ⟨_, List.length_replicate (a := 0)⟩
  -- both look, and then both copy
  obtain ⟨s₃, h₃, hbuf₃, hreaders₃, hbegun₃, hwritten₃, hpoint₃⟩ := @exec_look (Fin 3) _ s₂ 1 one
    (hidle₂ 1) hr₂ (List.ne_nil_of_length_pos (by omega)) (by rw [need, hone, hspace₂]; decide)
  obtain ⟨s₄, h₄, hbuf₄, hreaders₄, hbegun₄, hwritten₄, hpoint₄⟩ := @exec_look (Fin 3) _ s₃ 2 [1, 2]
    (by rw [hpoint₃]; exact hidle₂ 2) (hreaders₃ ▸ hr₂) (by decide)
    (by rw [hbuf₃, hspace₂]; decide)
  obtain ⟨s₅, h₅, hbuf₅, hreaders₅, hbegun₅, hwritten₅, hpoint₅⟩ := @exec_copy (Fin 3) _ s₄ 1
    s₂.begun.length one 0 (by rw [hpoint₄, hpoint₃]; rfl)
  have hspace₅ : s₅.buf.space = 1 := by
    have hspace := space_eq s₂.buf
    rw [space_eq, hbuf₅, RingQueue.len_write, hbuf₄, hbuf₃, hspace₂, List.drop_zero, hone]
    omega
  obtain ⟨s₆, h₆, hbuf₆, hreaders₆, hbegun₆, hwritten₆, hpoint₆⟩ := @exec_copy (Fin 3) _ s₅ 2
    s₃.begun.length [1, 2] 0 (by rw [hpoint₅, hpoint₄]; rfl)
  have hlen₆ : s₆.buf.len = 65536 := by
    have hspace := space_eq s₅.buf
    rw [hbuf₆, RingQueue.len_write, hspace₅, List.drop_zero]
    show s₅.buf.len + 1 = 65536
    omega
  -- the reader takes all, and a third write comes before the rest of the second
  obtain ⟨s₇, h₇, hbuf₇, hreaders₇, hbegun₇, hwritten₇, hpoint₇⟩ := @exec_drain (Fin 3) _ s₆ 0 65536
    (by rw [hpoint₆, hpoint₅, hpoint₄, hpoint₃]; exact hidle₂ 0) (by decide)
    (by rw [hlen₆]; decide)
  have hspace₇ : s₇.buf.space = 65536 := by
    rw [space_eq, hbuf₇, RingQueue.dropFront]
    dsimp only
    omega
  have hr₇ : s₇.readers ≠ 0 := by
    rwa [hreaders₇, hreaders₆, hreaders₅, hreaders₄, hreaders₃]
  obtain ⟨s₈, h₈, hbuf₈, hreaders₈, hbegun₈, hwritten₈, hpoint₈⟩ := @exec_look (Fin 3) _ s₇ 0 [3]
    (by rw [hpoint₇, Function.update_self]) hr₇ (by decide) (by rw [hspace₇]; decide)
  obtain ⟨s₉, h₉, hbuf₉, hreaders₉, hbegun₉, hwritten₉, hpoint₉⟩ := @exec_copy (Fin 3) _ s₈ 0
    s₇.begun.length [3] 0 (by rw [hpoint₈, Function.update_self])
  have hlen₉ : s₉.buf.len = 1 := by
    have hspace := space_eq s₇.buf
    rw [hbuf₉, hbuf₈, RingQueue.len_write, hspace₇, List.drop_zero]
    show s₇.buf.len + 1 = 1
    have hle := s₇.buf.len_le
    omega
  have hcopied : copied s₅ [1, 2] 0 = 1 := by
    rw [copied, hspace₅]
    rfl
  obtain ⟨s₁₀, h₁₀, hbuf₁₀, hbegun₁₀, hwritten₁₀, hpoint₁₀⟩ := @exec_again (Fin 3) _ s₉ 2
    s₃.begun.length [1, 2] 1
    (by rw [hpoint₉, hpoint₈, hpoint₇, hpoint₆, hcopied]; rfl)
    (by rwa [hreaders₉, hreaders₈]) (by rw [space_eq, hlen₉]; decide)
  obtain ⟨s₁₁, h₁₁, hbuf₁₁, hreaders₁₁, hbegun₁₁, hwritten₁₁, hpoint₁₁⟩ :=
    @exec_copy (Fin 3) _ s₁₀ 2 s₃.begun.length [1, 2] 1 (by rw [hpoint₁₀]; rfl)
  have hrun : exec step empty (acts ++ ([.write 1 one, .go 1 false, .go 1 false] ++
      ([.write 2 [1, 2], .go 2 false, .go 2 false] ++ ([.go 1 false] ++ ([.go 2 false] ++
      ([.read 0 65536, .go 0 false] ++ ([.write 0 [3], .go 0 false, .go 0 false] ++
      ([.go 0 false] ++ ([.go 2 false, .go 2 false] ++ [.go 2 false]))))))))) = some s₁₁ := by
    simp only [exec_append, h₂, h₃, h₄, h₅, h₆, h₇, h₈, h₉, h₁₀, h₁₁, Option.bind_some]
  have hatomic : s₁₁.Atomic :=
    Along.exec (R := Atomic) (fun _ _ _ h => h) empty_whole.atomic (hall _) hrun
  have hlen₃ : s₃.begun.length = 2 := by
    rw [hbegun₃, List.length_append, hbegun₂]
    rfl
  have hlen₇ : s₇.begun.length = 3 := by
    rw [hbegun₇, hbegun₆, hbegun₅, hbegun₄, List.length_append, hlen₃]
    rfl
  rw [hbegun₂] at hwritten₅
  rw [hlen₃] at hwritten₆ hwritten₁₁
  rw [hlen₇] at hwritten₉
  have hbegun : s₁₁.begun[2]? = some [1, 2] := by
    rw [hbegun₁₁, hbegun₁₀, hbegun₉, hbegun₈, hbegun₇, hbegun₆, hbegun₅, hbegun₄,
      List.getElem?_append_left (by rw [List.length_append, hlen₃]; decide),
      List.getElem?_append_right (by rw [hlen₃]), hlen₃]
    rfl
  have hbefore : ∀ x ∈ s₂.written ++ ((one.drop 0).take s₄.buf.space).map (Prod.mk 1),
      x.1 ≠ 2 := fun x hx => by
    rcases List.mem_append.mp hx with hx | hx
    · rw [hwritten₂ x hx]
      decide
    · obtain ⟨b, -, rfl⟩ := List.mem_map.mp hx
      exact (by decide : 1 ≠ 2)
  have hsplit : s₁₁.written = s₂.written ++ ((one.drop 0).take s₄.buf.space).map (Prod.mk 1) ++
      [(2, 1), (3, 3), (2, 2)] := by
    have hspace₈ : s₈.buf.space = 65536 := by rw [hbuf₈, hspace₇]
    have hspace₁₀ : s₁₀.buf.space = 65535 := by rw [hbuf₁₀, space_eq, hlen₉]
    rw [hwritten₁₁, hwritten₁₀, hwritten₉, hwritten₈, hwritten₇, hwritten₆, hwritten₅, hwritten₄,
      hwritten₃, hspace₅, hspace₈, hspace₁₀]
    simp
  exact not_atomic_of_split (by decide) hbegun hbefore hsplit hatomic

end MindOS.Kernel.Fs.Pipe
