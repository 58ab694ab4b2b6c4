import Mathlib.Data.Fin.VecNotation
import Mathlib.Data.List.DropRight
import MindOS.Kernel.Poll.Ttys

/-!
# The line discipline

What a terminal should make of the bytes that come in while lines are edited: each is a key, which
edits the unfinished line, completes it, or is added to it, and the byte after the one that asks for
it is plain data. The code does the same except where the last word goes from a line with blanks at
its end, and where a byte that was to be plain data is translated or ends a line.
-/

namespace MindOS.Kernel.Poll

open List (Sublist)

/-! ### Keys -/

/-- What a byte does to the unfinished line. -/
inductive Key where
  | signal | flow | literalNext | erase | eraseWord | kill | endOfFile | reprint | plain
  deriving DecidableEq

namespace Termios

def key (t : Termios) (b : UInt8) : Key :=
  if t.signals b then .signal
  else if has t.iflag IXON && (t.isControl VSTART b || t.isControl VSTOP b) then .flow
  else if has t.lflag IEXTEN && t.isControl VLNEXT b then .literalNext
  else if t.isControl VERASE b then .erase
  else if t.isControl VWERASE b && has t.lflag IEXTEN then .eraseWord
  else if t.isControl VKILL b then .kill
  else if t.isControl VEOF b then .endOfFile
  else if t.isControl VREPRINT b then .reprint
  else .plain

/-- `default_tty` -/
def defaultTty : Termios where
  iflag := ICRNL ||| IXON ||| 0o2
  oflag := OPOST ||| ONLCR
  lflag := ISIG ||| ICANON ||| ECHO ||| ECHOE ||| ECHOK ||| ECHOCTL ||| IEXTEN
  cc := ![3, 28, 127, 21, 4, 0, 1, 0, 17, 19, 26, 0, 18, 0, 23, 22, 0, 0, 0]

/-- The byte is the last of its line. -/
def endsLine (t : Termios) (b : UInt8) : Bool :=
  b == lf || t.isControl VEOL b || t.isControl VEOL2 b

/-- The byte drops what was typed and not read. -/
def flushes (t : Termios) (b : UInt8) : Bool := t.key b == .signal && !has t.lflag NOFLSH

end Termios

/-! ### The unfinished line -/

/-- The lines that are complete, the one that is not, and whether the next byte is plain data. -/
structure Draft where
  done : List (List UInt8)
  line : List UInt8
  literal : Bool

def blank : UInt8 := 32

/-- The line without the blanks at its end and the word before them. -/
def withoutWord (line : List UInt8) : List UInt8 :=
  (line.rdropWhile (· == blank)).rdropWhile (· != blank)

namespace Draft

variable {t : Termios} {d : Draft} {b : UInt8}

def finish (d : Draft) (line : List UInt8) : Draft := ⟨d.done ++ [line], [], false⟩

def setLine (d : Draft) (line : List UInt8) : Draft := ⟨d.done, line, false⟩

/-- A byte is added, and may be the last; so is the one with which the line is full. -/
def add (d : Draft) (b : UInt8) (last : Bool) : Draft :=
  if last || decide (4095 ≤ (d.line ++ [b]).length) then d.finish (d.line ++ [b])
  else d.setLine (d.line ++ [b])

/-- What a key makes of the line. -/
def press (t : Termios) (d : Draft) (b : UInt8) : Key → Draft
  | .signal => if has t.lflag NOFLSH then d else d.setLine []
  | .flow => d
  | .literalNext => { d with literal := true }
  | .erase => d.setLine d.line.dropLast
  | .eraseWord => d.setLine (withoutWord d.line)
  | .kill => d.setLine []
  | .endOfFile => d.finish d.line
  | .reprint => d
  | .plain => d.add b (t.endsLine b)

/-- What a byte makes of the line; one that was asked to be plain data is added as it is. -/
def typed (t : Termios) (d : Draft) (raw : UInt8) : Draft :=
  if d.literal then d.add raw false
  else
    match t.translate raw with
    | none => d
    | some b => d.press t b (t.key b)

/-- The last word goes from a line with no blanks behind it, and a byte that is plain data is one
that is not translated and does not end a line. -/
def Plain (t : Termios) (d : Draft) (raw : UInt8) : Prop :=
  if d.literal then t.translate raw = some raw ∧ t.endsLine raw = false
  else ∀ b, t.translate raw = some b → t.key b = .eraseWord →
    d.line.getLast? = some blank → d.line = [blank]

/-- Every byte of some meets `Plain` where it is typed. -/
def AllPlain (t : Termios) : Draft → List UInt8 → Prop
  | _, [] => True
  | d, b :: data => d.Plain t b ∧ AllPlain t (d.typed t b) data

/-- With more lines before those that are complete. -/
def after (d : Draft) (lines : List (List UInt8)) : Draft := { d with done := lines ++ d.done }

theorem typed_after (lines : List (List UInt8)) :
    (d.after lines).typed t b = (d.typed t b).after lines := by
  have hfinish : ∀ line, (d.after lines).finish line = (d.finish line).after lines := fun line => by
    simp only [finish, after, List.append_assoc]
  have hadd : ∀ b last, (d.after lines).add b last = (d.add b last).after lines := fun b last => by
    simp only [add]
    rw [apply_ite (fun d : Draft => d.after lines), ← hfinish]
    rfl
  simp only [typed]
  change (if d.literal then _ else _) = _
  split
  · exact hadd b false
  split
  · rfl
  rename_i c _
  cases t.key c with
  | signal =>
      simp only [press]
      rw [apply_ite (fun d : Draft => d.after lines)]
      rfl
  | endOfFile => exact hfinish _
  | plain => exact hadd _ _
  | flow => rfl
  | literalNext => rfl
  | erase => rfl
  | eraseWord => rfl
  | kill => rfl
  | reprint => rfl

theorem foldl_typed_after (data : List UInt8) (lines : List (List UInt8)) :
    data.foldl (typed t) (d.after lines) = (data.foldl (typed t) d).after lines := by
  induction data generalizing d with
  | nil => rfl
  | cons b data ih => rw [List.foldl_cons, typed_after, ih, List.foldl_cons]

end Draft

/-! ### What the code does with the line -/

/-- The line that the terminal has. -/
def Tty.draft (t : Tty) : Draft := ⟨t.lines, t.line, t.lnext⟩

/-- Only what the master has not read differs. -/
def Tty.Same (t t' : Tty) : Prop := t' = { t with toMaster := t'.toMaster }

theorem Tty.Same.trans {t t' t'' : Tty} (h : t.Same t') (h' : t'.Same t'') : t.Same t'' := by
  rw [Same, h', h]

theorem Tty.Same.draft {t t' : Tty} (h : t.Same t') : t'.draft = t.draft := by
  rw [h]
  rfl

namespace Feed

variable {f : Feed} {t : Termios} {b raw : UInt8}

theorem same_echo (data : List UInt8) : f.tty.Same (f.echo t data).tty :=
  (f.tty.sinks (t.processed data)).same

theorem same_echoChar : f.tty.Same (f.echoChar t b).tty := by
  rw [echoChar]
  split
  · rfl
  · exact same_echo _

theorem same_rubOut (n : Nat) : f.tty.Same (f.rubOut t n).tty := by
  induction n generalizing f with
  | zero => rfl
  | succ n ih => exact (same_echo [8, 32, 8]).trans ih

theorem eraseWord_succ (n : Nat) (cs : List UInt8) :
    (eraseWord (n + 1) cs).1 = cs.dropWhile (· != blank) := by
  induction cs generalizing n with
  | nil => rfl
  | cons c cs ih =>
      rw [eraseWord]
      by_cases hc : c = blank
      · rw [if_pos (by simpa [blank] using hc), if_neg (by simp),
          List.dropWhile_cons_of_neg (by simpa using hc)]
      · rw [if_neg (by simpa [blank] using hc), ih, List.dropWhile_cons_of_pos (by simpa using hc)]

theorem eraseWord_sublist (line : List UInt8) :
    (eraseWord 0 line.reverse).1.reverse.Sublist line := by
  have hsuffix : ∀ (cs : List UInt8) n, (eraseWord n cs).1.Sublist cs := by
    intro cs
    induction cs with
    | nil => exact fun n => .refl _
    | cons c cs ih =>
        intro n
        rw [eraseWord]
        split
        · split
          · exact List.sublist_cons_self c cs
          · exact .refl _
        · exact (ih _).trans (List.sublist_cons_self c cs)
  rw [← List.reverse_sublist, List.reverse_reverse]
  exact hsuffix _ _

theorem eraseWord_eq {line : List UInt8} (h : line.getLast? = some blank → line = [blank]) :
    (eraseWord 0 line.reverse).1.reverse = withoutWord line := by
  rcases List.eq_nil_or_concat' line with rfl | ⟨front, c, rfl⟩
  · rfl
  rw [List.getLast?_concat, Option.some.injEq] at h
  by_cases hc : c = blank
  · rw [h hc]
    rfl
  · rw [List.reverse_concat, eraseWord, withoutWord, if_neg (by simpa [blank] using hc),
      eraseWord_succ, List.rdropWhile_concat_neg _ _ _ (by simpa using hc),
      List.rdropWhile_concat_pos _ _ _ (by simpa using hc)]
    rfl

variable (hlnext : f.tty.lnext = false)
include hlnext

theorem draft_setLine (line : List UInt8) :
    (f.setLine line).tty.draft = f.tty.draft.setLine line := by
  simp only [Tty.draft, setLine, Draft.setLine, hlnext]

theorem draft_complete (line : List UInt8) :
    (f.complete line).tty.draft = f.tty.draft.finish line := by
  simp only [Tty.draft, complete, Draft.finish, hlnext]

theorem draft_flushed : f.flushed.tty.draft = f.tty.draft.setLine [] := by
  simp only [Tty.draft, flushed, Draft.setLine, hlnext]

theorem draft_add (last : Bool) :
    (if last || decide (4095 ≤ (f.tty.line ++ [b]).length) then f.complete (f.tty.line ++ [b])
      else f.setLine (f.tty.line ++ [b])).tty.draft = f.tty.draft.add b last := by
  rw [Draft.add, apply_ite Feed.tty, apply_ite Tty.draft, draft_setLine hlnext,
    draft_complete hlnext]
  rfl

theorem draft_edit_literal (hends : t.endsLine b = false) :
    (f.edit t true b).tty.draft = f.tty.draft.add b false := by
  have hadd := draft_add (b := b) hlnext false
  rw [Termios.endsLine] at hends
  simp only [edit, Bool.not_true, Bool.false_and, Bool.false_eq_true, if_false, hends]
  rw [Tty.Same.draft same_echoChar]
  exact hadd

theorem draft_edit (hsignal : t.signals b = false)
    (hflow : (has t.iflag IXON && (t.isControl VSTART b || t.isControl VSTOP b)) = false)
    (hnext : (has t.lflag IEXTEN && t.isControl VLNEXT b) = false)
    (hplain : t.key b = .eraseWord → f.tty.line.getLast? = some blank → f.tty.line = [blank]) :
    (f.edit t false b).tty.draft = f.tty.draft.press t b (t.key b) := by
  have hself : f.tty.draft.setLine f.tty.line = f.tty.draft := by
    rw [Draft.setLine, Tty.draft, hlnext]
  have hline := fun line => draft_setLine hlnext line
  rw [Termios.key, hsignal, hflow, hnext] at hplain ⊢
  simp only [Bool.false_eq_true, if_false] at hplain ⊢
  simp only [edit, Bool.not_false, Bool.true_and]
  split
  · -- erase
    split
    · rename_i hlast
      rw [List.getLast?_eq_none_iff] at hlast
      rw [Draft.press, ← hself, hlast]
      rfl
    · rw [apply_ite Feed.tty, apply_ite Tty.draft, apply_ite Feed.tty, apply_ite Tty.draft,
        (same_echo _).draft, (same_echo _).draft, hline]
      simp only [ite_self]
      rfl
  rename_i herase
  rw [if_neg herase] at hplain
  split
  · -- the last word
    rename_i hword
    rw [if_pos hword] at hplain
    rw [apply_ite Feed.tty, apply_ite Tty.draft, (same_rubOut _).draft, hline, ite_self,
      eraseWord_eq (hplain rfl)]
    rfl
  split
  · -- the whole line
    rw [apply_ite Feed.tty, apply_ite Tty.draft, (same_rubOut _).draft, hline, ite_self]
    rfl
  split
  · exact draft_complete hlnext _
  split
  · rw [(same_echo _).draft, (same_echo _).draft]
    rfl
  · rw [Tty.Same.draft same_echoChar]
    exact draft_add hlnext _

omit hlnext in
theorem draft_byte (hcanon : t.canon = true) (hplain : f.tty.draft.Plain t raw) :
    (byte t f raw).tty.draft = f.tty.draft.typed t raw := by
  have hset : (f.setLnext false).tty.lnext = false := rfl
  rw [Draft.Plain] at hplain
  rw [Draft.typed]
  cases hlnext : f.tty.lnext with
  | true =>
      have hliteral : f.tty.draft.literal = true := hlnext
      rw [if_pos hliteral] at hplain ⊢
      rw [byte, hplain.1]
      simp only [hlnext, Bool.not_true, Bool.false_and, Bool.false_eq_true, if_false, hcanon,
        if_true]
      rw [draft_edit_literal hset hplain.2]
      rfl
  | false =>
      have hliteral : f.tty.draft.literal ≠ true := by
        rw [Ne, Bool.not_eq_true]
        exact hlnext
      have hsame : (f.setLnext false).tty.draft = f.tty.draft := by
        rw [Tty.draft, Tty.draft, hlnext]
        rfl
      rw [if_neg hliteral] at hplain ⊢
      rw [byte]
      cases hraw : t.translate raw with
      | none => rfl
      | some b =>
          simp only [hlnext, Bool.not_false, Bool.true_and, hcanon, if_true]
          split
          · rename_i hsignal
            rw [Termios.key, if_pos hsignal, Draft.press, apply_ite Feed.tty, apply_ite Tty.draft,
              Tty.Same.draft same_echoChar, hsame]
            have hecho := (@same_echoChar (f.setLnext false) t b).draft
            rw [draft_flushed (congrArg Draft.literal hecho), hecho, hsame]
          rename_i hsignal
          split
          · rename_i hflow
            rw [Termios.key, if_neg hsignal, if_pos hflow]
            exact hsame
          rename_i hflow
          split
          · rename_i hnext
            rw [Termios.key, if_neg hsignal, if_neg hflow, if_pos hnext]
            rfl
          rename_i hnext
          rw [Bool.not_eq_true] at hsignal hflow hnext
          rw [draft_edit hset hsignal hflow hnext fun hkey => hplain b hraw hkey, hsame]

end Feed

theorem Tty.draft_inputBytes {t : Tty} {data : List UInt8} (hcanon : t.termios.canon = true)
    (hplain : Draft.AllPlain t.termios t.draft data) :
    (t.inputBytes data).tty.draft = data.foldl (Draft.typed t.termios) t.draft := by
  rw [inputBytes]
  have hfold : ∀ (data : List UInt8) (f : Feed), Draft.AllPlain t.termios f.tty.draft data →
      (data.foldl (Feed.byte t.termios) f).tty.draft =
        data.foldl (Draft.typed t.termios) f.tty.draft := by
    intro data
    induction data with
    | nil => exact fun f _ => rfl
    | cons b data ih =>
        intro f hplain
        have hbyte := Feed.draft_byte hcanon hplain.1
        rw [List.foldl_cons, List.foldl_cons, ← hbyte]
        apply ih
        rw [hbyte]
        exact hplain.2
  exact hfold data _ hplain

/-! ### The order of the bytes -/

/-- The bytes that were not read, as they stand. -/
def Tty.unread (t : Tty) : List UInt8 := t.raw ++ t.lines.flatten ++ t.line

theorem Tty.Same.queues {t t' : Tty} (h : t.Same t') :
    t'.lines = t.lines ∧ t'.line = t.line ∧ t'.raw = t.raw := by
  rw [h]
  exact ⟨rfl, rfl, rfl⟩

theorem Tty.Same.unread {t t' : Tty} (h : t.Same t') : t'.unread = t.unread := by
  rw [h]
  rfl

namespace Feed

variable {f : Feed} {t : Termios} {b raw : UInt8} {line : List UInt8}

theorem unread_setLine (h : line.Sublist (f.tty.line ++ [b])) :
    (f.setLine line).tty.unread.Sublist (f.tty.unread ++ [b]) := by
  rw [Tty.unread, Tty.unread, List.append_assoc _ f.tty.line]
  exact (List.Sublist.refl _).append h

theorem unread_complete (h : line.Sublist (f.tty.line ++ [b])) :
    (f.complete line).tty.unread.Sublist (f.tty.unread ++ [b]) := by
  have hunread : (f.complete line).tty.unread = f.tty.raw ++ f.tty.lines.flatten ++ line := by
    simp [Tty.unread, complete]
  rw [hunread, Tty.unread, List.append_assoc _ f.tty.line]
  exact (List.Sublist.refl _).append h

theorem unread_edit (lnext : Bool) :
    (f.edit t lnext b).tty.unread.Sublist (f.tty.unread ++ [b]) := by
  have hself : f.tty.unread.Sublist (f.tty.unread ++ [b]) := List.sublist_append_left _ _
  have hadded : ∀ {p : Prop} [Decidable p] {g h : Feed},
      g.tty.unread.Sublist (f.tty.unread ++ [b]) → h.tty.unread.Sublist (f.tty.unread ++ [b]) →
      (if p then g else h).tty.unread.Sublist (f.tty.unread ++ [b]) := fun {p} _ g h hg hh => by
    split
    · exact hg
    · exact hh
  have hline := List.sublist_append_left f.tty.line [b]
  rw [edit]
  refine hadded ?_ (hadded ?_ (hadded ?_ (hadded ?_ (hadded ?_ ?_))))
  · split
    · exact hself
    · have hset := unread_setLine (f := f) (b := b) ((List.dropLast_sublist _).trans hline)
      refine hadded (hadded ?_ ?_) hset
      · rwa [(same_echo _).unread]
      · rwa [(same_echo _).unread]
  · have hset := unread_setLine (f := f) (b := b) ((eraseWord_sublist f.tty.line).trans hline)
    refine hadded ?_ hset
    rwa [(same_rubOut _).unread]
  · have hset := unread_setLine (f := f) (b := b) (List.nil_sublist _)
    refine hadded ?_ hset
    rwa [(same_rubOut _).unread]
  · exact unread_complete hline
  · rwa [(same_echo _).unread, (same_echo _).unread]
  · rw [Tty.Same.unread same_echoChar]
    exact hadded (unread_complete (List.Sublist.refl _)) (unread_setLine (List.Sublist.refl _))

theorem unread_flushed : f.flushed.tty.unread.Sublist f.tty.unread := by
  have hunread : f.flushed.tty.unread = f.tty.lines.flatten := by
    simp [Tty.unread, flushed]
  rw [hunread, Tty.unread, List.append_assoc]
  exact (List.sublist_append_left _ _).trans (List.sublist_append_right _ _)

theorem unread_push (hline : f.tty.lines = [] ∧ f.tty.line = []) :
    (f.push t b).tty.unread.Sublist (f.tty.unread ++ [b]) := by
  rw [push, Tty.Same.unread same_echoChar]
  simp only [Tty.unread, hline.1, hline.2, List.flatten_nil, List.append_nil]
  split
  · exact .refl _
  · exact List.sublist_append_left _ _

theorem unread_byte (hline : t.canon = false → f.tty.lines = [] ∧ f.tty.line = []) :
    (byte t f raw).tty.unread.Sublist (f.tty.unread ++ (t.translate raw).toList) := by
  rw [byte]
  cases t.translate raw with
  | none => exact List.sublist_append_left _ _
  | some b =>
      have hself : f.tty.unread.Sublist (f.tty.unread ++ [b]) := List.sublist_append_left _ _
      have hset : ∀ l, (f.setLnext l).tty.unread = f.tty.unread := fun l => rfl
      change (Feed.tty _).unread.Sublist (f.tty.unread ++ [b])
      dsimp only
      split
      · split
        · rwa [Tty.Same.unread same_echoChar]
        · refine List.Sublist.trans unread_flushed ?_
          rwa [Tty.Same.unread same_echoChar]
      split
      · exact hself
      split
      · exact hself
      split
      · exact unread_edit (f := f.setLnext false) _
      · rename_i hcanon
        rw [Bool.not_eq_true] at hcanon
        exact unread_push (f := f.setLnext false) (hline hcanon)

theorem queue_push (hline : f.tty.lines = [] ∧ f.tty.line = []) :
    ((f.push t b).tty.lines = [] ∧ (f.push t b).tty.line = []) ∧
      f.tty.raw <+: (f.push t b).tty.raw := by
  rw [push]
  obtain ⟨hlines, hl, hraw⟩ := (@same_echoChar _ t b).queues
  rw [hlines, hl, hraw]
  refine ⟨hline, ?_⟩
  dsimp only
  split
  · exact List.prefix_append _ _
  · exact List.prefix_rfl

/-- While lines are not edited there are none, and what is not read stays in front, if it is not
flushed. -/
theorem queue_byte (hcanon : t.canon = false) (hline : f.tty.lines = [] ∧ f.tty.line = []) :
    ((byte t f raw).tty.lines = [] ∧ (byte t f raw).tty.line = []) ∧
      ((∀ b, t.translate raw = some b → t.flushes b = false) →
        f.tty.raw <+: (byte t f raw).tty.raw) := by
  rw [byte]
  cases t.translate raw with
  | none => exact ⟨hline, fun _ => List.prefix_rfl⟩
  | some b =>
      have hecho := (@same_echoChar (f.setLnext false) t b).queues
      have hlines := hecho.1.trans hline.1
      dsimp only
      split
      · rename_i hsignal
        split
        · exact ⟨⟨hlines, hecho.2.1.trans hline.2⟩, fun _ => hecho.2.2 ▸ List.prefix_rfl⟩
        · rename_i hflush
          refine ⟨⟨hlines, rfl⟩, fun hkept => ?_⟩
          have hkept := hkept b rfl
          rw [Termios.flushes, Termios.key, if_pos (Bool.and_eq_true_iff.mp hsignal).2] at hkept
          simp [hflush] at hkept
      split
      · exact ⟨hline, fun _ => List.prefix_rfl⟩
      split
      · exact ⟨hline, fun _ => List.prefix_rfl⟩
      rw [if_neg (by rw [hcanon]; exact Bool.false_ne_true)]
      have hpush := @queue_push (f.setLnext false) t b hline
      exact ⟨hpush.1, fun _ => hpush.2⟩

end Feed

namespace Tty

variable {t : Tty} {data : List UInt8}

theorem queue_inputBytes (hcanon : t.termios.canon = false) (hline : t.lines = [] ∧ t.line = []) :
    ((t.inputBytes data).tty.lines = [] ∧ (t.inputBytes data).tty.line = []) ∧
      ((∀ b ∈ data, ∀ c, t.termios.translate b = some c → t.termios.flushes c = false) →
        t.raw <+: (t.inputBytes data).tty.raw) := by
  have hfold : ∀ (data : List UInt8) (f : Feed), f.tty.lines = [] ∧ f.tty.line = [] →
      ((data.foldl (Feed.byte t.termios) f).tty.lines = [] ∧
        (data.foldl (Feed.byte t.termios) f).tty.line = []) ∧
      ((∀ b ∈ data, ∀ c, t.termios.translate b = some c → t.termios.flushes c = false) →
        f.tty.raw <+: (data.foldl (Feed.byte t.termios) f).tty.raw) := by
    intro data
    induction data with
    | nil => exact fun f h => ⟨h, fun _ => List.prefix_rfl⟩
    | cons b data ih =>
        intro f h
        obtain ⟨hempty, hbyte⟩ := @Feed.queue_byte f t.termios b hcanon h
        obtain ⟨hrest, hdata⟩ := ih (Feed.byte t.termios f b) hempty
        exact ⟨hrest, fun hkept => (hbyte (hkept b List.mem_cons_self)).trans
          (hdata fun c hc => hkept c (List.mem_cons_of_mem b hc))⟩
  exact hfold data _ hline

theorem unread_inputBytes
    (hline : t.termios.canon = false → t.lines = [] ∧ t.line = []) :
    (t.inputBytes data).tty.unread.Sublist (t.unread ++ data.filterMap t.termios.translate) := by
  have hfold : ∀ (data : List UInt8) (f : Feed),
      (t.termios.canon = false → f.tty.lines = [] ∧ f.tty.line = []) →
      (data.foldl (Feed.byte t.termios) f).tty.unread.Sublist
        (f.tty.unread ++ data.filterMap t.termios.translate) := by
    intro data
    induction data with
    | nil => exact fun f _ => List.sublist_append_left _ _
    | cons b data ih =>
        intro f hf
        have hbyte := @Feed.unread_byte f t.termios b hf
        have hrest := ih (Feed.byte t.termios f b) fun hcanon =>
          (@Feed.queue_byte f t.termios b hcanon (hf hcanon)).1
        refine hrest.trans ?_
        have hmap : (b :: data).filterMap t.termios.translate =
            (t.termios.translate b).toList ++ data.filterMap t.termios.translate := by
          rw [List.filterMap_cons]
          cases t.termios.translate b with
          | none => rfl
          | some c => rfl
        rw [hmap, ← List.append_assoc]
        exact hbyte.append (List.Sublist.refl _)
  exact hfold data _ hline

end Tty

end MindOS.Kernel.Poll
