import Mathlib.Data.BitVec

/-!
# Files that are waited for

## Event counters and pipes

Two kinds of files that can be watched. Each has one wait queue for everything; a turn of
a read or a write says whether it wakes that queue.
-/

namespace MindOS.Kernel.Poll

/-! ### Events -/

/-- The events a file has, a bit for each. -/
abbrev Mask := BitVec 32

def POLLIN : Mask := 1
def POLLOUT : Mask := 4
def POLLERR : Mask := 8
def POLLHUP : Mask := 16
def POLLNVAL : Mask := 32

/-- An event, if the file has it. -/
def event (has : Bool) (m : Mask) : Mask := if has then m else 0

/-- No event comes that was not there before. -/
def Quiet (m m' : Mask) : Prop := ∀ want, m &&& want = 0 → m' &&& want = 0

theorem Quiet.refl (m : Mask) : Quiet m m := fun _ => id

theorem quiet_zero (m : Mask) : Quiet m 0 := fun _ _ => BitVec.zero_and

theorem quiet_event {has has' : Bool} (m : Mask) (h : has' = true → has = true) :
    Quiet (event has m) (event has' m) := by
  cases has' with
  | false => exact quiet_zero _
  | true =>
      rw [h rfl]
      exact Quiet.refl _

theorem or_and_eq_zero {m n want : Mask} :
    (m ||| n) &&& want = 0 ↔ m &&& want = 0 ∧ n &&& want = 0 := by
  rw [BitVec.and_or_distrib_right]
  exact BitVec.or_eq_zero_iff

theorem Quiet.or {m m' n n' : Mask} (hm : Quiet m m') (hn : Quiet n n') :
    Quiet (m ||| n) (m' ||| n') := by
  intro want h
  obtain ⟨h₁, h₂⟩ := or_and_eq_zero.mp h
  exact or_and_eq_zero.mpr ⟨hm want h₁, hn want h₂⟩

/-! ### What a turn of a call comes to -/

inductive Errno where
  | EINVAL
  | EPIPE
  | EIO
  deriving DecidableEq

/-- A call returns, or it goes round its loop once more, at once or when it has waited. -/
inductive Outcome where
  /-- A read returns these bytes. -/
  | data (bytes : List UInt8)
  /-- A write returns the number of bytes. -/
  | wrote (n : Nat)
  | error (e : Errno)
  /-- So many bytes are written, and the loop goes on. -/
  | goesOn (done : Nat)
  /-- The call waits for the queue and tries again; on a file that does not block it
  returns what it has, or EAGAIN. -/
  | waits
  deriving DecidableEq

/-! ### eventfd -/

/-- `u64::MAX` -/
def u64Max : Nat := 2 ^ 64 - 1

/-- `u64::to_le_bytes` -/
def leBytes (v : Nat) : List UInt8 := (List.range 8).map fun i => UInt8.ofNat (v / 256 ^ i)

structure EventFd where
  count : Nat
  semaphore : Bool
  deriving DecidableEq

namespace EventFd

/-- A turn of a read; the last part says whether the queue is woken. -/
def read (e : EventFd) (len : Nat) : EventFd × Outcome × Bool :=
  if len < 8 then (e, .error .EINVAL, false)
  else if 0 < e.count then
    let v := if e.semaphore then 1 else e.count
    ({ e with count := e.count - v }, .data (leBytes v), true)
  else (e, .waits, false)

/-- A turn of a write of `v`. -/
def write (e : EventFd) (len v : Nat) : EventFd × Outcome × Bool :=
  if len < 8 then (e, .error .EINVAL, false)
  else if v = u64Max then (e, .error .EINVAL, false)
  else if v ≤ u64Max - 1 - e.count then ({ e with count := e.count + v }, .wrote 8, true)
  else (e, .waits, false)

def poll (e : EventFd) : Mask :=
  event (0 < e.count) POLLIN ||| event (e.count < u64Max - 1) POLLOUT

variable {e : EventFd} {len v : Nat}

theorem read_of_not_woken (h : (e.read len).2.2 = false) : (e.read len).1 = e := by
  rw [read] at h ⊢
  split
  case isTrue => rfl
  case isFalse hlen =>
    rw [if_neg hlen] at h
    split
    case isTrue hcount => simp [hcount] at h
    case isFalse => rfl

theorem write_of_not_woken (h : (e.write len v).2.2 = false) : (e.write len v).1 = e := by
  rw [write] at h ⊢
  split
  case isTrue => rfl
  case isFalse hlen =>
    rw [if_neg hlen] at h
    split
    case isTrue => rfl
    case isFalse hmax =>
      rw [if_neg hmax] at h
      split
      case isTrue hroom => simp [hroom] at h
      case isFalse => rfl

end EventFd

/-! ### Pipes -/

def pipeBufSize : Nat := 64 * 1024

/-- The bytes on their way, and how many files there are at each end. -/
structure Pipe where
  data : List UInt8
  readers : Nat
  writers : Nat
  deriving DecidableEq

namespace Pipe

def space (p : Pipe) : Nat := pipeBufSize - p.data.length

/-- A turn of a read. -/
def read (p : Pipe) (len : Nat) : Pipe × Outcome × Bool :=
  if len = 0 then (p, .data [], false)
  else if 0 < min len p.data.length then
    ({ p with data := p.data.drop len }, .data (p.data.take len), true)
  else if p.writers = 0 then (p, .data [], false)
  else (p, .waits, false)

/-- The room a write asks for: writes of at most 4096 bytes are atomic. -/
def need (buf : List UInt8) : Nat := if buf.length ≤ 4096 then buf.length else 1

/-- A turn of a write that has written `done` bytes. -/
def write (p : Pipe) (buf : List UInt8) (done : Nat) : Pipe × Outcome × Bool :=
  if buf.length ≤ done then (p, .wrote done, false)
  else if p.readers = 0 then
    -- with SIGPIPE for the caller
    (p, if 0 < done then .wrote done else .error .EPIPE, false)
  else if need buf ≤ p.space then
    ({ p with data := p.data ++ (buf.drop done).take p.space },
      .goesOn (done + min (buf.length - done) p.space), true)
  else (p, .waits, false)

/-- The file at an end goes. -/
def release (p : Pipe) (reader writer : Bool) : Pipe :=
  { p with
    readers := if reader then p.readers - 1 else p.readers
    writers := if writer then p.writers - 1 else p.writers }

def pollRead (p : Pipe) : Mask :=
  event (0 < p.data.length) POLLIN ||| event (p.writers = 0) POLLHUP

def pollWrite (p : Pipe) : Mask :=
  event (0 < p.space) POLLOUT ||| event (p.readers = 0) POLLERR

variable {p : Pipe} {len done : Nat} {buf : List UInt8}

theorem read_of_not_woken (h : (p.read len).2.2 = false) : (p.read len).1 = p := by
  rw [read] at h ⊢
  split
  case isTrue => rfl
  case isFalse hlen =>
    rw [if_neg hlen] at h
    split
    case isTrue hdata => rw [if_pos hdata] at h; cases h
    case isFalse =>
      split
      case isTrue => rfl
      case isFalse => rfl

theorem write_of_not_woken (h : (p.write buf done).2.2 = false) : (p.write buf done).1 = p := by
  rw [write] at h ⊢
  split
  case isTrue => rfl
  case isFalse hlen =>
    rw [if_neg hlen] at h
    split
    case isTrue => rfl
    case isFalse hreaders =>
      rw [if_neg hreaders] at h
      split
      case isTrue hroom =>
        rw [if_pos hroom] at h
        cases h
      case isFalse => rfl

end Pipe

/-!
## Terminals

The line discipline of a terminal, and the buffer behind which the master of a
pseudo-terminal sits. A terminal has three wait queues: for its readers, for its writers and
for the readers of the master. A turn of a call says which of them it wakes.
-/

/-! ### Settings -/

def ICRNL : BitVec 32 := 0o400
def IGNCR : BitVec 32 := 0o200
def INLCR : BitVec 32 := 0o100
def IXON : BitVec 32 := 0o2000
def OPOST : BitVec 32 := 0o1
def ONLCR : BitVec 32 := 0o4
def OCRNL : BitVec 32 := 0o10
def ISIG : BitVec 32 := 0o1
def ICANON : BitVec 32 := 0o2
def ECHO : BitVec 32 := 0o10
def ECHOE : BitVec 32 := 0o20
def ECHOK : BitVec 32 := 0o40
def ECHONL : BitVec 32 := 0o100
def NOFLSH : BitVec 32 := 0o200
def ECHOCTL : BitVec 32 := 0o1000
def IEXTEN : BitVec 32 := 0o100000

def VINTR : Fin 19 := 0
def VQUIT : Fin 19 := 1
def VERASE : Fin 19 := 2
def VKILL : Fin 19 := 3
def VEOF : Fin 19 := 4
def VTIME : Fin 19 := 5
def VMIN : Fin 19 := 6
def VSTART : Fin 19 := 8
def VSTOP : Fin 19 := 9
def VSUSP : Fin 19 := 10
def VEOL : Fin 19 := 11
def VREPRINT : Fin 19 := 12
def VWERASE : Fin 19 := 14
def VLNEXT : Fin 19 := 15
def VEOL2 : Fin 19 := 16

/-- A flag is set. -/
def has (flags flag : BitVec 32) : Bool := flags &&& flag != 0

structure Termios where
  iflag : BitVec 32
  oflag : BitVec 32
  lflag : BitVec 32
  cc : Fin 19 → UInt8

namespace Termios

def canon (t : Termios) : Bool := has t.lflag ICANON

/-- The byte is the control character, which is not switched off. -/
def isControl (t : Termios) (c : Fin 19) (b : UInt8) : Bool := b == t.cc c && b != 0

/-- `\r` -/
def cr : UInt8 := 13

/-- `\n` -/
def lf : UInt8 := 10

/-- The byte that comes in, if one does. -/
def translate (t : Termios) (raw : UInt8) : Option UInt8 :=
  if has t.iflag ICRNL && raw == cr then some lf
  else if has t.iflag IGNCR && raw == cr then none
  else if has t.iflag INLCR && raw == lf then some cr
  else some raw

/-- The byte is one that sends a signal. -/
def signals (t : Termios) (b : UInt8) : Bool :=
  has t.lflag ISIG && (t.isControl VINTR b || t.isControl VQUIT b || t.isControl VSUSP b)

/-- The bytes as they go out. -/
def processed (t : Termios) (data : List UInt8) : List UInt8 :=
  if has t.oflag OPOST then
    data.flatMap fun b =>
      if b == lf && has t.oflag ONLCR then [cr, lf]
      else if b == cr && has t.oflag OCRNL then [lf]
      else [b]
  else data

/-- The echo of a byte, if it has one. -/
def echoed (t : Termios) (b : UInt8) : Option (List UInt8) :=
  if !has t.lflag ECHO then
    if b == lf && has t.lflag ECHONL then some [lf] else none
  else if b < 0x20 && b != lf && b != 9 && has t.lflag ECHOCTL then some [94, b + 0x40]
  else if b == 0x7f && has t.lflag ECHOCTL then some [94, 63]
  else some [b]

end Termios

/-! ### The state of a terminal -/

structure Tty where
  termios : Termios
  /-- The line being edited. -/
  line : List UInt8
  /-- Completed lines; an empty one is the end of the file. -/
  lines : List (List UInt8)
  /-- Bytes that came in while lines are not edited. -/
  raw : List UInt8
  /-- The next byte is taken as it is. -/
  lnext : Bool
  hangup : Bool
  /-- The files that are open on the terminal. -/
  openers : Nat
  /-- What the master has not read yet; none where the sink takes everything. -/
  toMaster : Option (List UInt8)

/-- The queues that are woken. -/
structure Wakes where
  read : Bool := false
  write : Bool := false
  master : Bool := false
  deriving DecidableEq

namespace Tty

def masterSize : Nat := 65536

/-- The sink takes data, or does not; the last part says whether the master is woken. -/
def sink (t : Tty) (data : List UInt8) : Tty × Bool × Bool :=
  match t.toMaster with
  | none => (t, true, false)
  | some q =>
      if data.isEmpty then (t, decide (q.length < masterSize), false)
      else if masterSize < q.length + data.length then (t, false, false)
      else ({ t with toMaster := some (q ++ data) }, true, true)

def sinkHasRoom (t : Tty) : Bool := (t.sink []).2.1

def readableNow (t : Tty) : Bool :=
  if t.hangup then true
  else if t.termios.canon then !t.lines.isEmpty
  else
    let min := (t.termios.cc VMIN).toNat
    decide (max min 1 ≤ t.raw.length) || (min == 0 && !t.raw.isEmpty)

def poll (t : Tty) : Mask :=
  event t.readableNow POLLIN ||| event t.sinkHasRoom POLLOUT ||| event t.hangup POLLHUP

/-- The events of the master's file. -/
def masterPoll (t : Tty) : Mask :=
  POLLOUT ||| event (match t.toMaster with | some q => !q.isEmpty | none => false) POLLIN

end Tty

/-! ### Input -/

/-- A terminal while input comes in, and who is to be woken. -/
structure Feed where
  tty : Tty
  read : Bool := false
  master : Bool := false

namespace Feed

/-- Output goes to the sink, and is lost where there is no room. -/
def echo (f : Feed) (t : Termios) (data : List UInt8) : Feed :=
  let (tty, _, master) := f.tty.sink (t.processed data)
  { f with tty := tty, master := f.master || master }

def echoChar (f : Feed) (t : Termios) (b : UInt8) : Feed :=
  match t.echoed b with
  | none => f
  | some data => f.echo t data

/-- Characters are rubbed out. -/
def rubOut (f : Feed) (t : Termios) : Nat → Feed
  | 0 => f
  | n + 1 => (f.echo t [8, 32, 8]).rubOut t n

def setLine (f : Feed) (line : List UInt8) : Feed := { f with tty := { f.tty with line := line } }

/-- A line is complete. -/
def complete (f : Feed) (line : List UInt8) : Feed :=
  { f with tty := { f.tty with line := [], lines := f.tty.lines ++ [line] }, read := true }

/-- The last word of a line goes, or one blank behind it: the line backwards, and how many
characters went. -/
def eraseWord : Nat → List UInt8 → List UInt8 × Nat
  | n, [] => ([], n)
  | n, c :: cs =>
      if c == 32 then if n == 0 then (cs, n + 1) else (c :: cs, n)
      else eraseWord (n + 1) cs

/-- A byte while lines are edited. -/
def edit (f : Feed) (t : Termios) (lnext : Bool) (b : UInt8) : Feed :=
  let line := f.tty.line
  let echoes := fun flag => has t.lflag flag && has t.lflag ECHO
  if !lnext && t.isControl VERASE b then
    match line.getLast? with
    | none => f
    | some c =>
        let f := f.setLine line.dropLast
        if echoes ECHOE then
          if c < 0x20 && has t.lflag ECHOCTL then f.echo t [8, 32, 8, 8, 32, 8]
          else f.echo t [8, 32, 8]
        else f
  else if !lnext && (t.isControl VWERASE b && has t.lflag IEXTEN) then
    let (rest, n) := eraseWord 0 line.reverse
    let f := f.setLine rest.reverse
    if echoes ECHOE then f.rubOut t n else f
  else if !lnext && t.isControl VKILL b then
    let f := f.setLine []
    if echoes ECHOK then f.rubOut t line.length else f
  else if !lnext && t.isControl VEOF b then f.complete line
  else if !lnext && t.isControl VREPRINT b then (f.echo t [94, 82, 10]).echo t line
  else
    let line := line ++ [b]
    let eol := b == Termios.lf || t.isControl VEOL b || t.isControl VEOL2 b
    -- a line that is too long is complete as it is
    let f := if eol || decide (4095 ≤ line.length) then f.complete line else f.setLine line
    f.echoChar t b

/-- A byte while lines are not edited. -/
def push (f : Feed) (t : Termios) (b : UInt8) : Feed :=
  let raw := if f.tty.raw.length < 65536 then f.tty.raw ++ [b] else f.tty.raw
  ({ f with tty := { f.tty with raw := raw }, read := true } : Feed).echoChar t b

def setLnext (f : Feed) (lnext : Bool) : Feed := { f with tty := { f.tty with lnext := lnext } }

/-- A signal flushes what has not been read, completed lines apart. -/
def flushed (f : Feed) : Feed := { f with tty := { f.tty with line := [], raw := [] } }

def byte (t : Termios) (f : Feed) (raw : UInt8) : Feed :=
  match t.translate raw with
  | none => f
  | some b =>
      let lnext := f.tty.lnext
      let f := f.setLnext false
      if !lnext && t.signals b then
        let f := f.echoChar t b
        if has t.lflag NOFLSH then f else f.flushed
      else if !lnext && (has t.iflag IXON && (t.isControl VSTART b || t.isControl VSTOP b)) then
        -- flow control is ignored
        f
      else if !lnext && (has t.lflag IEXTEN && t.isControl VLNEXT b) then f.setLnext true
      else if t.canon then f.edit t lnext b
      else f.push t b

end Feed

namespace Tty

/-- Input, from a keyboard or from the master. -/
def inputBytes (t : Tty) (data : List UInt8) : Feed :=
  data.foldl (Feed.byte t.termios) { tty := t }

end Tty

/-! ### What input keeps -/

/-- Nothing to read comes without a wakeup, neither for the terminal nor for the master, and
the sink gets no room. -/
structure Feed.Keeps (f f' : Feed) : Prop where
  termios : f'.tty.termios = f.tty.termios
  hangup : f'.tty.hangup = f.tty.hangup
  read : f.read = true → f'.read = true
  lines : f'.read = false → f'.tty.lines = f.tty.lines
  raw : f'.read = false → f'.tty.raw = f.tty.raw ∨ f'.tty.raw = []
  master : f.master = true → f'.master = true
  output : f'.master = false → f'.tty.toMaster = f.tty.toMaster
  room : f'.tty.sinkHasRoom = true → f.tty.sinkHasRoom = true

namespace Feed

variable {f f' f'' : Feed} {t : Termios} {b : UInt8}

theorem Keeps.refl (f : Feed) : Keeps f f where
  termios := rfl
  hangup := rfl
  read := id
  lines _ := rfl
  raw _ := .inl rfl
  master := id
  output _ := rfl
  room := id

theorem Keeps.trans (h : Keeps f f') (h' : Keeps f' f'') : Keeps f f'' where
  termios := h'.termios.trans h.termios
  hangup := h'.hangup.trans h.hangup
  read hread := h'.read (h.read hread)
  lines hread := by
    have hread' : f'.read = false := by
      by_contra hno
      have := h'.read (by simpa using hno)
      simp [this] at hread
    exact (h'.lines hread).trans (h.lines hread')
  raw hread := by
    have hread' : f'.read = false := by
      by_contra hno
      have := h'.read (by simpa using hno)
      simp [this] at hread
    obtain hraw | hraw := h'.raw hread
    · rw [hraw]
      exact h.raw hread'
    · exact .inr hraw
  master hmaster := h'.master (h.master hmaster)
  output hmaster := by
    have hmaster' : f'.master = false := by
      by_contra hno
      have := h'.master (by simpa using hno)
      simp [this] at hmaster
    exact (h'.output hmaster).trans (h.output hmaster')
  room hroom := h.room (h'.room hroom)

end Feed

theorem Tty.sinkHasRoom_congr {t t' : Tty} (h : t'.toMaster = t.toMaster) :
    t'.sinkHasRoom = t.sinkHasRoom := by
  simp only [sinkHasRoom, sink, h]
  cases t.toMaster with
  | none => rfl
  | some q => rfl

/-- The sink takes data only with a wakeup of the master, and gets no room. -/
structure Tty.Sinks (t t' : Tty) (woken : Bool) : Prop where
  same : t' = { t with toMaster := t'.toMaster }
  output : woken = false → t'.toMaster = t.toMaster
  room : t'.sinkHasRoom = true → t.sinkHasRoom = true

theorem Tty.sinks (t : Tty) (data : List UInt8) :
    Tty.Sinks t (t.sink data).1 (t.sink data).2.2 := by
  have hself : ∀ woken, Tty.Sinks t t woken := fun _ => ⟨rfl, fun _ => rfl, id⟩
  rw [sink]
  split
  case h_1 => exact hself _
  case h_2 q hq =>
    split
    case isTrue => exact hself _
    case isFalse =>
      split
      case isTrue => exact hself _
      case isFalse hfits =>
        refine ⟨rfl, nofun, fun hroom => ?_⟩
        simp only [sinkHasRoom, sink, hq] at hroom ⊢
        simp only [List.isEmpty_nil, if_true, decide_eq_true_eq, List.length_append] at hroom ⊢
        omega

namespace Feed

variable (f : Feed) (t : Termios)

theorem keeps_echo (data : List UInt8) : Keeps f (f.echo t data) := by
  have h := f.tty.sinks (t.processed data)
  have hsame := h.same
  constructor
  · simp only [echo]
    rw [hsame]
  · simp only [echo]
    rw [hsame]
  · exact id
  · intro _
    simp only [echo]
    rw [hsame]
  · intro _
    simp only [echo]
    exact .inl (by rw [hsame])
  · intro hmaster
    simp [echo, hmaster]
  · intro hmaster
    simp only [echo, Bool.or_eq_false_iff] at hmaster
    exact h.output hmaster.2
  · exact h.room

theorem keeps_echoChar (b : UInt8) : Keeps f (f.echoChar t b) := by
  rw [echoChar]
  split
  case h_1 => exact .refl f
  case h_2 data _ => exact keeps_echo f t data

theorem keeps_rubOut (n : Nat) : Keeps f (f.rubOut t n) := by
  induction n generalizing f with
  | zero => exact .refl f
  | succ n ih => exact (keeps_echo f t [8, 32, 8]).trans (ih _)

variable {f} in
theorem keeps_of_output (termios : f'.tty.termios = f.tty.termios)
    (hangup : f'.tty.hangup = f.tty.hangup) (read : f.read = true → f'.read = true)
    (lines : f'.read = false → f'.tty.lines = f.tty.lines)
    (raw : f'.read = false → f'.tty.raw = f.tty.raw ∨ f'.tty.raw = [])
    (master : f'.master = f.master) (output : f'.tty.toMaster = f.tty.toMaster) :
    Keeps f f' :=
  ⟨termios, hangup, read, lines, raw, master.trans, fun _ => output,
    (Tty.sinkHasRoom_congr output).symm.trans⟩

theorem keeps_setLine (line : List UInt8) : Keeps f (f.setLine line) :=
  keeps_of_output rfl rfl id (fun _ => rfl) (fun _ => .inl rfl) rfl rfl

theorem keeps_setLnext (lnext : Bool) : Keeps f (f.setLnext lnext) :=
  keeps_of_output rfl rfl id (fun _ => rfl) (fun _ => .inl rfl) rfl rfl

theorem keeps_flushed : Keeps f f.flushed :=
  keeps_of_output rfl rfl id (fun _ => rfl) (fun _ => .inr rfl) rfl rfl

theorem keeps_complete (line : List UInt8) : Keeps f (f.complete line) :=
  keeps_of_output rfl rfl (fun _ => rfl) nofun nofun rfl rfl

theorem keeps_push (b : UInt8) : Keeps f (f.push t b) := by
  refine Keeps.trans ?_ (keeps_echoChar _ t b)
  exact keeps_of_output rfl rfl (fun _ => rfl) nofun nofun rfl rfl

variable {f t} in
theorem Keeps.ite {f₁ f₂ : Feed} {p : Prop} [Decidable p] (h₁ : Keeps f f₁) (h₂ : Keeps f f₂) :
    Keeps f (if p then f₁ else f₂) := by
  split
  case isTrue => exact h₁
  case isFalse => exact h₂

theorem keeps_edit (lnext : Bool) (b : UInt8) : Keeps f (f.edit t lnext b) := by
  have hline := fun line => keeps_setLine f line
  have hdone := fun line => keeps_complete f line
  rw [edit]
  refine .ite ?_ (.ite ?_ (.ite ?_ (.ite (hdone _) (.ite ?_ ?_))))
  · split
    case h_1 => exact .refl f
    case h_2 c _ =>
      refine (hline _).trans (.ite (.ite ?_ ?_) (.refl _))
      · exact keeps_echo _ t _
      · exact keeps_echo _ t _
  · exact (hline _).trans (.ite (keeps_rubOut _ t _) (.refl _))
  · exact (hline []).trans (.ite (keeps_rubOut _ t _) (.refl _))
  · exact (keeps_echo f t _).trans (keeps_echo _ t _)
  · exact Keeps.trans (.ite (hdone _) (hline _)) (keeps_echoChar _ t b)

theorem keeps_byte (raw : UInt8) : Keeps f (byte t f raw) := by
  rw [byte]
  split
  case h_1 => exact .refl f
  case h_2 b _ =>
    refine (keeps_setLnext f false).trans (.ite ?_ (.ite (.refl _) (.ite ?_ (.ite ?_ ?_))))
    · exact (keeps_echoChar _ t b).trans (.ite (.refl _) (keeps_flushed _))
    · exact keeps_setLnext _ true
    · exact keeps_edit _ t _ b
    · exact keeps_push _ t b

end Feed

theorem Tty.keeps_inputBytes (t : Tty) (data : List UInt8) :
    Feed.Keeps { tty := t } (t.inputBytes data) := by
  rw [inputBytes]
  generalize ({ tty := t } : Feed) = f
  induction data generalizing f with
  | nil => exact .refl f
  | cons b data ih => exact (Feed.keeps_byte f t.termios b).trans (ih _)

/-! ### Turns of the calls -/

namespace Tty

/-- A turn of a read. -/
def read (t : Tty) (len : Nat) : Tty × Outcome × Wakes :=
  if len = 0 then (t, .data [], {})
  else if t.hangup then (t, .data [], {})
  else if t.termios.canon then
    match t.lines with
    | line :: lines =>
        ({ t with lines := if len < line.length then line.drop len :: lines else lines },
          .data (line.take len), {})
    | [] => (t, .waits, {})
  else
    let min := (t.termios.cc VMIN).toNat
    if !t.raw.isEmpty && (decide (min ≤ t.raw.length) || min == 0) then
      ({ t with raw := t.raw.drop len }, .data (t.raw.take len), {})
    else if min == 0 && t.termios.cc VTIME == 0 then (t, .data [], {})
    else (t, .waits, {})

/-- A turn of a write that has written `off` bytes: the next 4096 bytes. -/
def write (t : Tty) (buf : List UInt8) (off : Nat) : Tty × Outcome × Wakes :=
  if t.hangup then (t, .error Errno.EIO, {})
  else if buf.length ≤ off then (t, .wrote buf.length, {})
  else
    let (t, taken, master) := t.sink (t.termios.processed ((buf.drop off).take 4096))
    (t, if taken then .goesOn (min (off + 4096) buf.length) else .waits, { master := master })

/-- TCSETS, TCSETSW and TCSETSF, the last of which flushes. -/
def setTermios (t : Tty) (termios : Termios) (flush : Bool) : Tty × Wakes :=
  let set := { t with termios := termios }
  (if flush then { set with line := [], lines := [], raw := [] }
    else if t.termios.canon && !termios.canon then
      { set with line := [], lines := [], raw := t.raw ++ t.lines.flatten ++ t.line }
    else set, { read := true })

/-- TCFLSH -/
def flushInput (t : Tty) : Tty := { t with line := [], lines := [], raw := [] }

def doHangup (t : Tty) : Tty × Wakes := ({ t with hangup := true }, { read := true, write := true })

/-- A turn of a read of the master. -/
def masterRead (t : Tty) (len : Nat) : Tty × Outcome × Wakes :=
  match t.toMaster with
  | some (b :: q) =>
      ({ t with toMaster := some ((b :: q).drop len) }, .data ((b :: q).take len),
        { write := true })
  | _ => (t, if t.openers = 0 ∧ t.hangup then .error Errno.EIO else .waits, {})

/-- A file on the terminal goes. -/
def release (t : Tty) : Tty := { t with openers := t.openers - 1 }

/-- The master goes: the terminal hangs up, and its sink takes everything. -/
def masterRelease (t : Tty) : Tty × Wakes :=
  let (t, wakes) := t.doHangup
  ({ t with toMaster := none }, wakes)

/-! ### Which turns wake nobody -/

variable {t t' : Tty}

theorem quiet_poll (readable : t'.readableNow = true → t.readableNow = true)
    (room : t'.sinkHasRoom = true → t.sinkHasRoom = true)
    (hangup : t'.hangup = true → t.hangup = true) : Quiet t.poll t'.poll :=
  ((quiet_event _ readable).or (quiet_event _ room)).or (quiet_event _ hangup)

theorem quiet_masterPoll (h : ∀ q, t'.toMaster = some q → q ≠ [] →
    ∃ p, t.toMaster = some p ∧ p ≠ []) : Quiet t.masterPoll t'.masterPoll := by
  apply (Quiet.refl _).or
  apply quiet_event
  intro hq
  split at hq
  case h_1 q hsome =>
    obtain ⟨p, hp, hne⟩ := h q hsome (by simpa using hq)
    rw [hp]
    simpa using hne
  case h_2 => cases hq

theorem masterPoll_congr (h : t'.toMaster = t.toMaster) : t'.masterPoll = t.masterPoll := by
  rw [masterPoll, masterPoll, h]

theorem readableNow_of_less (hangup : t'.hangup = t.hangup) (termios : t'.termios = t.termios)
    (lines : t'.lines ≠ [] → t.lines ≠ []) (raw : ∃ n, t'.raw = t.raw.drop n)
    (h : t'.readableNow = true) : t.readableNow = true := by
  obtain ⟨n, hraw⟩ := raw
  simp only [readableNow, hangup, termios, hraw] at h ⊢
  split
  case isTrue => rfl
  case isFalse hhangup =>
    rw [if_neg hhangup] at h
    split
    case isTrue hcanon =>
      rw [if_pos hcanon] at h
      simp only [Bool.not_eq_true', List.isEmpty_eq_false_iff] at h ⊢
      exact lines h
    case isFalse hcanon =>
      rw [if_neg hcanon] at h
      simp only [Bool.or_eq_true, Bool.and_eq_true, decide_eq_true_eq, List.length_drop,
        Bool.not_eq_true', List.isEmpty_eq_false_iff, beq_iff_eq] at h ⊢
      obtain h | ⟨hmin, hleft⟩ := h
      · exact .inl (by omega)
      · refine .inr ⟨hmin, ?_⟩
        intro hnil
        exact hleft (by rw [hnil, List.drop_nil])

theorem inputBytes_quiet (data : List UInt8) (h : (t.inputBytes data).read = false) :
    Quiet t.poll (t.inputBytes data).tty.poll := by
  have hkeeps := t.keeps_inputBytes data
  have hlines := hkeeps.lines h
  refine quiet_poll (readableNow_of_less hkeeps.hangup hkeeps.termios ?_ ?_) hkeeps.room ?_
  · rw [hlines]
    exact id
  · obtain hraw | hraw := hkeeps.raw h
    · exact ⟨0, hraw⟩
    · exact ⟨t.raw.length, by rw [hraw, List.drop_length]⟩
  · rw [hkeeps.hangup]
    exact id

theorem read_quiet (len : Nat) : Quiet t.poll (t.read len).1.poll := by
  have hless : ∀ lines raw, (lines ≠ [] → t.lines ≠ []) → (∃ n, raw = t.raw.drop n) →
      Quiet t.poll { t with lines := lines, raw := raw }.poll := by
    intro lines raw hlines hraw
    have hroom : { t with lines := lines, raw := raw }.sinkHasRoom = t.sinkHasRoom :=
      sinkHasRoom_congr rfl
    exact quiet_poll (readableNow_of_less rfl rfl hlines hraw) hroom.symm.trans id
  have hself : Quiet t.poll t.poll := .refl _
  rw [read]
  split
  · exact hself
  split
  · exact hself
  split
  · split
    case h_1 line lines hcons => exact hless _ t.raw (by simp [hcons]) ⟨0, rfl⟩
    case h_2 => exact hself
  · dsimp only
    split
    · exact hless t.lines _ id ⟨len, rfl⟩
    split
    · exact hself
    · exact hself

theorem read_toMaster (len : Nat) : (t.read len).1.toMaster = t.toMaster := by
  rw [read]
  split
  · rfl
  split
  · rfl
  split
  · split <;> rfl
  · dsimp only
    split
    · rfl
    split <;> rfl

theorem Sinks.quiet {woken : Bool} (h : Sinks t t' woken) : Quiet t.poll t'.poll := by
  have hhangup : t'.hangup = t.hangup := by rw [h.same]
  have hlines : t'.lines = t.lines := by rw [h.same]
  have htermios : t'.termios = t.termios := by rw [h.same]
  have hraw : t'.raw = t.raw.drop 0 := by rw [h.same]; rfl
  refine quiet_poll (readableNow_of_less hhangup htermios ?_ ⟨0, hraw⟩) h.room ?_
  · rw [hlines]
    exact id
  · rw [hhangup]
    exact id

theorem write_sinks (buf : List UInt8) (off : Nat) :
    Sinks t (t.write buf off).1 (t.write buf off).2.2.master := by
  have hself : Sinks t t false := ⟨rfl, fun _ => rfl, id⟩
  rw [write]
  split
  · exact hself
  split
  · exact hself
  exact t.sinks _

theorem flushInput_quiet : Quiet t.poll t.flushInput.poll := by
  have hroom : t.flushInput.sinkHasRoom = t.sinkHasRoom := sinkHasRoom_congr rfl
  refine quiet_poll (readableNow_of_less rfl rfl ?_ ⟨t.raw.length, ?_⟩) hroom.symm.trans id
  · exact fun h => absurd rfl h
  · exact List.drop_length.symm

theorem masterRead_toMaster (len : Nat) :
    Quiet t.masterPoll (t.masterRead len).1.masterPoll := by
  rw [masterRead]
  split
  case h_1 b q hsome =>
    apply quiet_masterPoll
    intro p hp _
    exact ⟨b :: q, hsome, List.cons_ne_nil _ _⟩
  case h_2 => exact .refl _

/-- A read of the master makes room where there was none. -/
def makesRoom (t : Tty) (len : Nat) : Bool :=
  !t.sinkHasRoom && (t.masterRead len).1.sinkHasRoom

theorem masterRead_poll {len : Nat} {want : Mask}
    (hroom : t.makesRoom len = true → POLLOUT &&& want = 0) (h : t.poll &&& want = 0) :
    (t.masterRead len).1.poll &&& want = 0 := by
  have hreadable : (t.masterRead len).1.readableNow = t.readableNow := by
    rw [masterRead]
    split <;> rfl
  have hhangup : (t.masterRead len).1.hangup = t.hangup := by
    rw [masterRead]
    split <;> rfl
  rw [poll, or_and_eq_zero, or_and_eq_zero] at h ⊢
  obtain ⟨⟨hin, hout⟩, hhup⟩ := h
  refine ⟨⟨hreadable ▸ hin, ?_⟩, hhangup ▸ hhup⟩
  cases hafter : (t.masterRead len).1.sinkHasRoom with
  | false => exact BitVec.zero_and
  | true =>
      cases hbefore : t.sinkHasRoom with
      | true => rwa [hbefore] at hout
      | false => exact hroom (by rw [makesRoom, hafter, hbefore]; rfl)

end Tty

end MindOS.Kernel.Poll
