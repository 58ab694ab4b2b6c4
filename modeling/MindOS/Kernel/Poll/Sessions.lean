import MindOS.Kernel.Poll.Discipline
import MindOS.Chunks
import MindOS.Transition
import Mathlib.Logic.Function.Basic

/-!
# Reads of a terminal

A terminal, the threads that read it, and the changes of its settings, which take two sections: one
that sets them, and one that flushes what was not read, or moves it to the bytes that are read
without lines. A read that asks for nothing but waits for a time goes round its loop when its time
has passed, and there waits for as long again.
-/

namespace MindOS.Kernel.Poll

open Transition Records

/-- Where a thread stands in a read: before a turn of its loop, or waiting, until its time has
passed if it has one. -/
inductive Reading where
  | idle
  | turn (size : Nat) (due : Option Nat)
  | wait (size : Nat) (due : Option Nat)

/-- What the second section of a change of settings does. -/
inductive Settling where
  | flush | move | nothing
  deriving DecidableEq

/-- The last four are the history: the terminal when its settings or its queues were last set, what
was typed and read since, and all that ever came in. -/
structure Session (K : Type) where
  tty : Tty
  now : Nat
  reading : K → Reading
  settling : Option Settling
  base : Tty
  typed : List UInt8
  answers : List (Nat × List UInt8)
  came : List UInt8

namespace Session

inductive Act (K : Type) where
  | type (data : List UInt8)
  | set (termios : Termios) (flush : Bool)
  | settle
  | flush
  | read (k : K) (size : Nat)
  | go (k : K) (nonblock : Bool)
  | wake (k : K)
  | expire (k : K)
  | interrupt (k : K)
  | pass (ns : Nat)

variable {K : Type} [DecidableEq K]

def goTo (s : Session K) (k : K) (r : Reading) : Session K :=
  { s with reading := Function.update s.reading k r }

/-- The settings ask for no byte, but for a time. -/
def timed (t : Termios) : Bool := !t.canon && t.cc VMIN == 0 && t.cc VTIME != 0

/-- The time of a read that begins to wait now. -/
def due (s : Session K) : Nat := s.now + (s.tty.termios.cc VTIME).toNat * 100000000

/-- A turn of the loop of a read. -/
def turn (s : Session K) (k : K) (size : Nat) (nonblock : Bool) : Session K :=
  match s.tty.read size with
  | (tty, .data data, _) =>
      { s.goTo k .idle with tty := tty, answers := s.answers ++ [(size, data)] }
  | _ =>
      if timed s.tty.termios then s.goTo k (.wait size (some s.due))
      else if nonblock then s.goTo k .idle
      else s.goTo k (.wait size none)

/-- What a read that waits waits for. -/
def ready (t : Tty) (due : Option Nat) : Bool := t.readableNow || due.isSome && !t.raw.isEmpty

/-- The second section of a change of settings. -/
def settled (t : Tty) : Settling → Tty
  | .flush => t.flushInput
  | .move => { t with line := [], lines := [], raw := t.raw ++ t.lines.flatten ++ t.line }
  | .nothing => t

/-- From now on the history is that of this terminal. -/
def rebase (s : Session K) (tty : Tty) : Session K :=
  { s with tty := tty, base := tty, typed := [], answers := [] }

def step (s : Session K) : Act K → Option (Session K)
  | .type data => some
      { s with
        tty := (s.tty.inputBytes data).tty
        typed := s.typed ++ data
        came := s.came ++ data.filterMap s.tty.termios.translate }
  | .set termios flush =>
      if s.settling.isSome then none
      else some
        { s with
          tty := { s.tty with termios := termios }
          settling := some (if flush then .flush
            else if s.tty.termios.canon && !termios.canon then .move else .nothing) }
  | .settle => s.settling.map fun after => { s.rebase (settled s.tty after) with settling := none }
  | .flush => some (s.rebase s.tty.flushInput)
  | .read k size =>
      match s.reading k with
      | .idle => some (if size = 0 then s else s.goTo k (.turn size none))
      | _ => none
  | .go k nonblock =>
      match s.reading k with
      | .turn size _ => some (s.turn k size nonblock)
      | _ => none
  | .wake k =>
      match s.reading k with
      | .wait size due => if ready s.tty due then some (s.goTo k (.turn size due)) else none
      | _ => none
  | .expire k =>
      match s.reading k with
      | .wait size (some due) =>
          if due ≤ s.now then some (s.goTo k (.turn size (some due))) else none
      | _ => none
  | .interrupt k =>
      match s.reading k with
      | .wait _ _ => some (s.goTo k .idle)
      | _ => none
  | .pass ns => some { s with now := s.now + ns }

/-! ### What should hold -/

/-- The lines typed since the settings were set, as they should be. -/
def draft (s : Session K) : Draft := s.typed.foldl (Draft.typed s.tty.termios) s.base.draft

/-- What the reads gave since. -/
def given (s : Session K) : List (List UInt8) := s.answers.map Prod.snd

/-- While lines are edited, reads give the complete lines as they should be, in order, and none
waits if there is one. A change to reading without lines puts all that was not read, in the order
in which it came, where reads take it from. A read that waits for no more than a time returns when
that has passed, and does not wait longer. -/
structure Lawful (s : Session K) (a : Act K) (t : Session K) : Prop where
  lines : t.settling = none → t.tty.termios.canon = true →
    Served t.draft.done t.given t.tty.lines ∧ t.tty.line = t.draft.line
  fits : ∀ x ∈ t.answers, x.2.length ≤ x.1
  returns : ∀ k nonblock, a = .go k nonblock → s.tty.termios.canon = true → s.tty.lines ≠ [] →
    t.reading k = .idle
  moved : a = .settle → s.settling = some .move → t.tty.raw = s.tty.unread
  queue : t.settling = none → t.tty.termios.canon = false →
    (t.tty.lines = [] ∧ t.tty.line = []) ∧
      ((∀ b ∈ t.typed, ∀ c, t.tty.termios.translate b = some c →
        t.tty.termios.flushes c = false) → t.base.raw <+: t.given.flatten ++ t.tty.raw)
  order : t.settling ≠ some .flush → t.tty.unread.Sublist t.came
  time : ∀ k nonblock size due, a = .go k nonblock → s.reading k = .turn size due →
    timed s.tty.termios = true → t.reading k = .idle ∨
      s.now < due.getD s.due ∧ t.reading k = .wait size (some (due.getD s.due))

/-- Bytes are keys and plain data as they should be, none comes in between the sections of a change
to reading without lines, and a read that goes on after its time finds a byte. -/
def Sound (s : Session K) : Act K → Prop
  | .type data => s.settling ≠ some .move ∧
      (s.settling = none → s.tty.termios.canon = true →
        Draft.AllPlain s.tty.termios s.tty.draft data)
  | .go k _ => ∀ size d, s.reading k = .turn size (some d) → timed s.tty.termios = true →
      s.tty.raw = [] → d = s.due
  | _ => True

/-- Nothing was typed or asked for yet. -/
structure Fresh (s : Session K) : Prop where
  hangup : s.tty.hangup = false
  unread : s.tty.raw = [] ∧ s.tty.lines = [] ∧ s.tty.line = []
  reading : ∀ k, s.reading k = .idle
  settling : s.settling = none
  history : s.base = s.tty ∧ s.typed = [] ∧ s.answers = []

/-! ### A turn of a read -/

/-- What a read does to the terminal: it takes of a line, or of the bytes without lines, or
waits. -/
inductive Takes (t : Tty) (size : Nat) : Tty × Outcome × Wakes → Prop
  | line : ∀ line lines, t.termios.canon = true → t.lines = line :: lines →
      Takes t size
        ({ t with lines := if size < line.length then line.drop size :: lines else lines },
          .data (line.take size), {})
  | bytes : t.termios.canon = false →
      Takes t size ({ t with raw := t.raw.drop size }, .data (t.raw.take size), {})
  | waits : (t.termios.canon = true → t.lines = []) →
      (t.termios.canon = false → t.termios.cc VMIN = 0 → t.raw = []) →
      Takes t size (t, .waits, {})

theorem takes_read {t : Tty} {size : Nat} (hsize : 0 < size) (hhangup : t.hangup = false) :
    Takes t size (t.read size) := by
  rw [Tty.read, if_neg (Nat.ne_of_gt hsize), if_neg (by rw [hhangup]; exact Bool.false_ne_true)]
  split
  · rename_i hcanon
    split
    · rename_i line lines hlines
      exact .line line lines hcanon hlines
    · rename_i hlines
      exact .waits (fun _ => hlines) fun hno => by
        rw [hcanon] at hno
        cases hno
  · rename_i hcanon
    rw [Bool.not_eq_true] at hcanon
    dsimp only
    split
    · exact .bytes hcanon
    rename_i hfew
    have hraw : t.termios.cc VMIN = 0 → t.raw = [] := fun hmin => by
      rw [hmin] at hfew
      simpa using hfew
    split
    · rename_i hpoll
      have hmin := hraw (UInt8.toNat_inj.mp (beq_iff_eq.mp (Bool.and_eq_true_iff.mp hpoll).1))
      have ht : ({ t with raw := [] } : Tty) = t := by rw [← hmin]
      have hbytes := @Takes.bytes t size hcanon
      rwa [hmin, List.drop_nil, List.take_nil, ht] at hbytes
    · exact .waits (fun hno => by rw [hcanon] at hno; cases hno) fun _ => hraw

variable {s t : Session K} {k : K} {size : Nat} {nonblock : Bool}

/-- A turn answers with what it took, or ends or waits with the terminal as it was. -/
inductive Turns (s : Session K) (k : K) (size : Nat) : Session K → Prop
  | line : ∀ line lines, s.tty.termios.canon = true → s.tty.lines = line :: lines →
      Turns s k size
        { s.goTo k .idle with
          tty := { s.tty with
            lines := if size < line.length then line.drop size :: lines else lines }
          answers := s.answers ++ [(size, line.take size)] }
  | bytes : s.tty.termios.canon = false →
      Turns s k size
        { s.goTo k .idle with
          tty := { s.tty with raw := s.tty.raw.drop size }
          answers := s.answers ++ [(size, s.tty.raw.take size)] }
  | waits : ∀ r, (s.tty.termios.canon = true → s.tty.lines = []) →
      (timed s.tty.termios = true → s.tty.raw = [] ∧ r = .wait size (some s.due)) →
      (∀ n due, r ≠ .turn n due) → (∀ n due, r = .wait n due → n = size) →
      Turns s k size (s.goTo k r)

theorem turns (hsize : 0 < size) (hhangup : s.tty.hangup = false) :
    Turns s k size (s.turn k size nonblock) := by
  rw [turn]
  have htakes := takes_read hsize hhangup
  generalize s.tty.read size = taken at htakes
  cases htakes with
  | line line lines hcanon hlines => exact .line line lines hcanon hlines
  | bytes hcanon => exact .bytes hcanon
  | waits hlines hraw =>
      have hempty : timed s.tty.termios = true → s.tty.raw = [] := fun h => by
        rw [timed, Bool.and_eq_true, Bool.and_eq_true, Bool.not_eq_true'] at h
        exact hraw h.1.1 (beq_iff_eq.mp h.1.2)
      dsimp only
      split
      · exact .waits _ hlines (fun h => ⟨hempty h, rfl⟩) nofun fun _ _ h => by cases h; rfl
      rename_i htimed
      split
      · exact .waits _ hlines (fun h => absurd h htimed) nofun nofun
      · exact .waits _ hlines (fun h => absurd h htimed) nofun fun _ _ h => by cases h; rfl

@[simp] theorem goTo_reading (s : Session K) (k : K) (r : Reading) :
    (s.goTo k r).reading k = r := by
  rw [goTo]
  exact Function.update_self ..

theorem goTo_reading_of_ne {q : K} {r : Reading} (h : q ≠ k) :
    (s.goTo k r).reading q = s.reading q := by
  rw [goTo]
  exact Function.update_of_ne h ..

/-! ### What steps keep -/

/-- The terminal has the lines that it should have, and what is read without lines is in front. -/
structure Inv (s : Session K) : Prop where
  hangup : s.tty.hangup = false
  size : ∀ k n due, s.reading k = .turn n due ∨ s.reading k = .wait n due → 0 < n
  fits : ∀ x ∈ s.answers, x.2.length ≤ x.1
  served : s.settling = none → s.tty.termios.canon = true →
    Served s.draft.done s.given s.tty.lines
  draft : s.settling = none → s.tty.termios.canon = true →
    s.tty.line = s.draft.line ∧ s.tty.lnext = s.draft.literal
  empty : s.settling = none ∨ s.settling = some .nothing → s.tty.termios.canon = false →
    s.tty.lines = [] ∧ s.tty.line = []
  front : s.settling = none → s.tty.termios.canon = false →
    (∀ b ∈ s.typed, ∀ c, s.tty.termios.translate b = some c → s.tty.termios.flushes c = false) →
    s.base.raw <+: s.given.flatten ++ s.tty.raw
  order : s.settling ≠ some .flush → s.tty.unread.Sublist s.came

omit [DecidableEq K] in
theorem Fresh.inv (h : s.Fresh) : s.Inv := by
  obtain ⟨hbase, htyped, hanswers⟩ := h.history
  obtain ⟨hraw, hlines, hline⟩ := h.unread
  have hdraft : s.draft = s.tty.draft := by rw [draft, htyped, hbase, List.foldl_nil]
  have hgiven : s.given = [] := by rw [given, hanswers, List.map_nil]
  refine ⟨h.hangup, fun k n due hk => ?_, ?_, fun _ _ => ?_, fun _ _ => ?_,
    fun _ _ => ⟨hlines, hline⟩, fun _ _ _ => ?_, fun _ => ?_⟩
  · rw [h.reading k] at hk
    obtain hk | hk := hk
    · cases hk
    · cases hk
  · rw [hanswers]
    exact fun x hx => nomatch hx
  · rw [hdraft, hgiven]
    exact served_nil
  · rw [hdraft]
    exact ⟨rfl, rfl⟩
  · rw [hbase, hgiven]
    exact List.prefix_rfl
  · rw [Tty.unread, hraw, hlines, hline]
    exact List.nil_sublist _

/-- Where threads stand does not matter to the terminal. -/
theorem Inv.goTo (h : s.Inv) {r : Reading}
    (hr : ∀ n due, r = .turn n due ∨ r = .wait n due → 0 < n) : (s.goTo k r).Inv := by
  refine ⟨h.hangup, fun q n due hq => ?_, h.fits, h.served, h.draft, h.empty, h.front, h.order⟩
  by_cases hqk : q = k
  · subst hqk
    rw [goTo_reading] at hq
    exact hr n due hq
  · rw [goTo_reading_of_ne hqk] at hq
    exact h.size q n due hq

omit [DecidableEq K] in
theorem Inv.rebase (h : s.Inv) {tty : Tty} {after : Option Settling} (hhangup : tty.hangup = false)
    (hempty : tty.termios.canon = false → tty.lines = [] ∧ tty.line = [])
    (horder : after ≠ some .flush → tty.unread.Sublist s.came) :
    ({ s.rebase tty with settling := after } : Session K).Inv :=
  ⟨hhangup, h.size, fun _ hx => (nomatch hx), fun _ _ => served_nil, fun _ _ => ⟨rfl, rfl⟩,
    fun _ => hempty, fun _ _ _ => List.prefix_rfl, horder⟩

omit [DecidableEq K] in
theorem draft_type {data : List UInt8} (h : s.Inv) (hnone : s.settling = none)
    (hcanon : s.tty.termios.canon = true)
    (hplain : Draft.AllPlain s.tty.termios s.tty.draft data) :
    ∃ new : Draft, (s.tty.inputBytes data).tty.draft = new.after s.tty.lines ∧
      data.foldl (Draft.typed s.tty.termios) s.draft = new.after s.draft.done := by
  obtain ⟨hline, hliteral⟩ := h.draft hnone hcanon
  refine ⟨data.foldl (Draft.typed s.tty.termios) ⟨[], s.tty.line, s.tty.lnext⟩, ?_, ?_⟩
  · rw [← Draft.foldl_typed_after, Tty.draft_inputBytes hcanon hplain]
    simp only [Draft.after, List.append_nil, Tty.draft]
  · rw [← Draft.foldl_typed_after, hline, hliteral]
    simp only [Draft.after, List.append_nil]

theorem Inv.type {data : List UInt8} (h : s.Inv) (hsound : s.Sound (.type data))
    (ht : s.step (.type data) = some t) : t.Inv := by
  obtain ⟨hmove, hplain⟩ := hsound
  have hkeeps := s.tty.keeps_inputBytes data
  have htermios : (s.tty.inputBytes data).tty.termios = s.tty.termios := hkeeps.termios
  have hdraft : t.draft = data.foldl (Draft.typed s.tty.termios) s.draft := by
    cases ht
    rw [Session.draft, htermios, List.foldl_append]
    rfl
  cases ht
  refine ⟨hkeeps.hangup.trans h.hangup, h.size, h.fits, fun hnone hcanon => ?_,
    fun hnone hcanon => ?_, fun hs hcanon => ?_, fun hnone hcanon hflush => ?_, fun hs => ?_⟩
  · rw [htermios] at hcanon
    obtain ⟨new, hnew, hall⟩ := draft_type h hnone hcanon (hplain hnone hcanon)
    rw [hdraft, hall]
    have hlines : (s.tty.inputBytes data).tty.lines = s.tty.lines ++ new.done :=
      congrArg Draft.done hnew
    change Served (s.draft.done ++ new.done) s.given (s.tty.inputBytes data).tty.lines
    rw [hlines]
    exact (h.served hnone hcanon).append
  · rw [htermios] at hcanon
    obtain ⟨new, hnew, hall⟩ := draft_type h hnone hcanon (hplain hnone hcanon)
    rw [hdraft, hall]
    exact ⟨congrArg Draft.line hnew, congrArg Draft.literal hnew⟩
  · rw [htermios] at hcanon
    exact (Tty.queue_inputBytes hcanon (h.empty hs hcanon)).1
  · rw [htermios] at hcanon hflush
    have hdata := (@Tty.queue_inputBytes s.tty data hcanon (h.empty (.inl hnone) hcanon)).2
      fun b hb => hflush b (List.mem_append_right _ hb)
    refine (h.front hnone hcanon fun b hb => hflush b (List.mem_append_left _ hb)).trans ?_
    exact List.prefix_append_right_inj _ |>.mpr hdata
  · have hempty : s.tty.termios.canon = false → s.tty.lines = [] ∧ s.tty.line = [] := by
      refine h.empty ?_
      cases hsettling : s.settling with
      | none => exact .inl rfl
      | some after =>
          cases after with
          | flush => exact absurd hsettling hs
          | move => exact absurd hsettling hmove
          | nothing => exact .inr rfl
    exact (Tty.unread_inputBytes hempty).trans ((h.order hs).append (List.Sublist.refl _))

theorem Inv.turn (h : s.Inv) (hsize : 0 < size) : (s.turn k size nonblock).Inv := by
  have hturns := @turns K _ s k size nonblock hsize h.hangup
  generalize s.turn k size nonblock = t at hturns
  have hidle : (s.goTo k .idle).Inv := h.goTo fun n due hr => by
    obtain hr | hr := hr
    · cases hr
    · cases hr
  cases hturns with
  | line line lines hcanon hlines =>
      refine ⟨h.hangup, hidle.size, ?_, fun hnone _ => ?_, h.draft, ?_, ?_, fun hs => ?_⟩
      · intro x hx
        obtain hx | hx := List.mem_append.mp hx
        · exact h.fits x hx
        · obtain rfl := List.mem_singleton.mp hx
          exact List.length_take_le _ _
      · have hserved := h.served hnone hcanon
        rw [hlines] at hserved
        rw [given, List.map_append]
        change Served s.draft.done (s.given ++ [line.take size]) (if _ then _ else _)
        split
        · rename_i hlt
          exact hserved.part hsize hlt
        · rename_i hlt
          rw [List.take_of_length_le (Nat.not_lt.mp hlt)]
          exact hserved.whole
      · exact fun _ hno => Bool.noConfusion (hcanon.symm.trans hno)
      · exact fun _ hno => Bool.noConfusion (hcanon.symm.trans hno)
      · refine List.Sublist.trans ?_ (h.order hs)
        refine ((List.Sublist.refl _).append ?_).append (List.Sublist.refl _)
        rw [hlines]
        dsimp only
        split
        · exact (List.drop_sublist size line).append (List.Sublist.refl _)
        · exact List.sublist_append_right line _
  | bytes hcanon =>
      refine ⟨h.hangup, hidle.size, ?_, ?_, ?_, h.empty, fun hnone hc hflush => ?_, fun hs => ?_⟩
      · intro x hx
        obtain hx | hx := List.mem_append.mp hx
        · exact h.fits x hx
        · obtain rfl := List.mem_singleton.mp hx
          exact List.length_take_le _ _
      · exact fun _ hno => Bool.noConfusion (hcanon.symm.trans hno)
      · exact fun _ hno => Bool.noConfusion (hcanon.symm.trans hno)
      · have hfront := h.front hnone hc hflush
        rw [given, List.map_append]
        change s.base.raw <+: (s.given ++ [s.tty.raw.take size]).flatten ++ s.tty.raw.drop size
        rwa [List.flatten_append, List.flatten_singleton, List.append_assoc,
          List.take_append_drop]
      · refine List.Sublist.trans ?_ (h.order hs)
        exact ((List.drop_sublist size _).append (List.Sublist.refl _)).append (List.Sublist.refl _)
  | waits r hlines htimed hturn hwait =>
      refine h.goTo fun n due hr => ?_
      obtain hr | hr := hr
      · exact absurd hr (hturn n due)
      · rwa [hwait n due hr]

theorem inv_of_step {a : Act K} (h : s.Inv) (hsound : s.Sound a) (ht : s.step a = some t) :
    t.Inv := by
  have hidle : ∀ q, (s.goTo q .idle).Inv := fun q => h.goTo fun n due hr => by
    obtain hr | hr := hr
    · cases hr
    · cases hr
  have hturn : ∀ q n due, 0 < n → (s.goTo q (.turn n due)).Inv := fun q n due hn =>
    h.goTo fun n' due' hr => by
      obtain hr | hr := hr
      · cases hr
        exact hn
      · cases hr
  cases a with
  | type data => exact h.type hsound ht
  | set termios flush =>
      rw [step] at ht
      split at ht
      · cases ht
      rename_i hnone
      rw [Bool.not_eq_true, Option.isSome_eq_false_iff, Option.isNone_iff_eq_none] at hnone
      cases ht
      refine ⟨h.hangup, h.size, h.fits, fun hs => (by cases hs), fun hs => (by cases hs),
        fun hs hcanon => ?_, fun hs => (by cases hs), fun _ => ?_⟩
      · refine h.empty (.inl hnone) ?_
        -- the change would move what is not read
        by_contra hold
        rw [Bool.not_eq_false] at hold
        obtain hs | hs := hs
        · cases hs
        · cases flush with
          | true => cases hs
          | false =>
              dsimp only at hs hcanon
              rw [hold, hcanon] at hs
              cases hs
      · exact h.order (by simp [hnone])
  | settle =>
      obtain ⟨after, hafter, rfl⟩ := Option.map_eq_some_iff.mp ht
      refine h.rebase ?_ (fun hcanon => ?_) fun _ => ?_
      · cases after with
        | flush => exact h.hangup
        | move => exact h.hangup
        | nothing => exact h.hangup
      · cases after with
        | flush => exact ⟨rfl, rfl⟩
        | move => exact ⟨rfl, rfl⟩
        | nothing => exact h.empty (.inr hafter) hcanon
      · cases after with
        | flush => exact List.nil_sublist _
        | move =>
            have horder := h.order (by simp [hafter])
            simpa [settled, Tty.unread] using horder
        | nothing => exact h.order (by simp [hafter])
  | flush =>
      cases ht
      exact h.rebase h.hangup (fun _ => ⟨rfl, rfl⟩) fun _ => List.nil_sublist _
  | read k n =>
      rw [step] at ht
      split at ht
      · cases ht
        split
        · exact h
        · rename_i hn
          exact hturn k n none (Nat.pos_of_ne_zero hn)
      · cases ht
  | go k nonblock =>
      rw [step] at ht
      split at ht
      · rename_i n due hk
        cases ht
        exact h.turn (h.size k n due (.inl hk))
      · cases ht
  | wake k =>
      rw [step] at ht
      split at ht
      · rename_i n due hk
        split at ht
        · cases ht
          exact hturn k n due (h.size k n due (.inr hk))
        · cases ht
      · cases ht
  | expire k =>
      rw [step] at ht
      split at ht
      · rename_i n due hk
        split at ht
        · cases ht
          exact hturn k n (some due) (h.size k n (some due) (.inr hk))
        · cases ht
      · cases ht
  | interrupt k =>
      rw [step] at ht
      split at ht
      · cases ht
        exact hidle k
      · cases ht
  | pass ns =>
      cases ht
      exact ⟨h.hangup, h.size, h.fits, h.served, h.draft, h.empty, h.front, h.order⟩

theorem turn_returns (hsize : 0 < size) (hhangup : s.tty.hangup = false)
    (hcanon : s.tty.termios.canon = true) (hlines : s.tty.lines ≠ []) :
    (s.turn k size nonblock).reading k = .idle := by
  have hturns := @turns K _ s k size nonblock hsize hhangup
  generalize s.turn k size nonblock = t at hturns
  cases hturns with
  | line => exact goTo_reading s k .idle
  | bytes => exact goTo_reading s k .idle
  | waits r hnone => exact absurd (hnone hcanon) hlines

omit [DecidableEq K] in
theorem lt_due (h : 0 < (s.tty.termios.cc VTIME).toNat) : s.now < s.due := by
  rw [Session.due]
  exact Nat.lt_add_of_pos_right (Nat.mul_pos h (by decide))

/-- A turn of a read that waits for a time does not wait longer, if it finds a byte where that has
begun. -/
theorem turn_time {last : Option Nat} (hsize : 0 < size) (hhangup : s.tty.hangup = false)
    (htimed : timed s.tty.termios = true)
    (hbyte : ∀ d, last = some d → s.tty.raw = [] → d = s.due) :
    (s.turn k size nonblock).reading k = .idle ∨ s.now < last.getD s.due ∧
      (s.turn k size nonblock).reading k = .wait size (some (last.getD s.due)) := by
  have hturns := @turns K _ s k size nonblock hsize hhangup
  generalize s.turn k size nonblock = t at hturns
  cases hturns with
  | line => exact .inl (goTo_reading s k .idle)
  | bytes => exact .inl (goTo_reading s k .idle)
  | waits r _ hwaits =>
      obtain ⟨hraw, rfl⟩ := hwaits htimed
      have hdue : last.getD s.due = s.due := by
        cases last with
        | none => exact Option.getD_none
        | some d => exact Option.getD_some.trans (hbyte d rfl hraw)
      have hlt : s.now < s.due := by
        rw [timed, Bool.and_eq_true, bne_iff_ne] at htimed
        have hpos : 0 < (s.tty.termios.cc VTIME).toNat :=
          Nat.pos_of_ne_zero fun h0 => htimed.2 (UInt8.toNat_inj.mp h0)
        exact lt_due hpos
      rw [hdue]
      exact .inr ⟨hlt, goTo_reading s k _⟩

theorem lawful_of_step {a : Act K} (h : s.Inv) (hsound : s.Sound a) (ht : s.step a = some t) :
    s.Lawful a t := by
  have hinv := inv_of_step h hsound ht
  refine ⟨fun hnone hcanon => ⟨hinv.served hnone hcanon, (hinv.draft hnone hcanon).1⟩, hinv.fits,
    ?_, ?_, fun hnone hcanon => ⟨hinv.empty (.inl hnone) hcanon, hinv.front hnone hcanon⟩,
    hinv.order, ?_⟩
  · rintro k nonblock rfl hcanon hlines
    rw [step] at ht
    split at ht
    · rename_i n due hk
      cases ht
      exact turn_returns (h.size k n due (.inl hk)) h.hangup hcanon hlines
    · cases ht
  · rintro rfl hmove
    rw [step, hmove] at ht
    cases ht
    rfl
  · rintro k nonblock n due rfl hk htimed
    rw [step, hk] at ht
    cases ht
    exact turn_time (h.size k n due (.inl hk)) h.hangup htimed fun d hd =>
      hsound n d (hd ▸ hk) htimed

/-- As long as words and plain data are typed where the code takes them as such, nothing is typed in
the middle of a change to reading without lines, and reads that wait for a time find a byte, the
terminal does what it should. -/
theorem lawful_of_sound (s : Session K) (acts : List (Act K)) (h : s.Fresh)
    (hsound : Along step (fun s a _ => s.Sound a) s acts) : Along step Lawful s acts := by
  refine Along.imp Inv ?_ ?_ h.inv hsound
  · exact fun s a t h ht ha => inv_of_step h ha ht
  · exact fun s a t h ht ha => lawful_of_step h ha ht

/-- A terminal with the settings that it begins with, and one thread. -/
def opened : Session Unit where
  tty := ⟨.defaultTty, [], [], [], false, false, 1, none⟩
  now := 0
  reading _ := .idle
  settling := none
  base := ⟨.defaultTty, [], [], [], false, false, 1, none⟩
  typed := []
  answers := []
  came := []

theorem opened_fresh : opened.Fresh := ⟨rfl, ⟨rfl, rfl, rfl⟩, fun _ => rfl, rfl, rfl, rfl, rfl⟩

theorem lawful_of_sound_word : Along step Lawful opened
    [.type [102, 23, 10], .read () 5, .go () false] := by
  refine lawful_of_sound opened _ opened_fresh fun t ht => ⟨⟨nofun, fun _ _ => ?_⟩, ?_⟩
  · refine ⟨fun b hb hkey _ => ?_, fun b _ _ hlast => ?_, fun b hb hkey _ => ?_, trivial⟩
    · obtain rfl : 102 = b := Option.some.inj hb
      exact absurd hkey (by decide)
    · exact absurd hlast (by decide)
    · obtain rfl : 10 = b := Option.some.inj hb
      exact absurd hkey (by decide)
  · cases ht
    intro t ht
    cases ht
    refine ⟨trivial, fun t ht => ?_⟩
    cases ht
    exact ⟨fun _ _ hk => (nomatch hk), trivial⟩

/-- The word stays that is erased with two blanks behind it. -/
theorem reads_not_always_lawful : ¬∀ (s : Session Unit) (acts : List (Act Unit)), s.Fresh →
    Along step Lawful s acts := by
  intro hall
  have hrun := hall opened [.type [102, 32, 32, 23]] opened_fresh
  have hline := ((hrun _ rfl).1.lines rfl (by decide)).2
  revert hline
  decide

end Session

end MindOS.Kernel.Poll
