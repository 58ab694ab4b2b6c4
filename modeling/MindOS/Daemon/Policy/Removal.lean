import MindOS.Daemon.Policy.Basic
import MindOS.Text.Ends
import MindOS.Text.Paths
import MindOS.Text.Tokens

/-!
# Removing what must survive

`rm` on an undeletable path is forbidden where the text spells it out: no option stands
between the wrappers and `rm`, and the path is a word of its own, with nothing but quotes
around it and slashes behind it. The shell takes many more spellings for the same call.
-/

namespace MindOS.Policy

open Text

/-! ### What the shell runs -/

/-- The programs that run another one with privileges. -/
def privileged : List Text := ["sudo", "doas"]

/-- Their short options that take a value. -/
def valueLetters : List Char := "aCDghpRrtTuU".toList

/-- Their long options that take a value. -/
def valueOptions : List Text := [
  "--close-from", "--chdir", "--group", "--host", "--prompt", "--chroot", "--role", "--type",
  "--command-timeout", "--other-user", "--user"]

/-- The value of the option is the next word: none is attached to it. -/
def takesNextWord (w : Text) : Bool :=
  if w.startsWith "--" then valueOptions.contains w
  else ((w.drop 1).dropWhile fun c => !valueLetters.contains c).length == 1

/-- What the next word of a command can be. -/
inductive Expected where
  | program
  | option
  | value
  deriving DecidableEq

/-- The arguments of an `rm`, run directly or behind `sudo` and `doas` with their options. -/
def removalArgs : Expected → List Text → Option (List Text)
  | _, [] => none
  | .value, _ :: ws => removalArgs .option ws
  | e, w :: ws =>
      if e = .option ∧ w = "--".toList then removalArgs .program ws
      else if e = .option ∧ w.startsWith "-" ∧ w ≠ "-".toList then
        removalArgs (if takesNextWord w then .value else .option) ws
      -- A variable for the program that is run.
      else if e = .option ∧ w.contains "=" then removalArgs .option ws
      else if programName w = "rm".toList then some ws
      else if privileged.contains (programName w) then removalArgs .option ws
      else none

/-- A path without repeated slashes, `.` components, trailing slashes and a trailing `/*`. -/
def normalPath (p : Text) : Text :=
  let rooted := p.startsWith "/"
  let names := (components p).filter fun c => c != [] && c != "."
  let starred := names.getLast? = some "*".toList ∧ (rooted ∨ 1 < names.length)
  (if rooted then "/" else "").toList ++ join "/" (if starred then names.dropLast else names)

/-- The path is in the list, where `$home` stands for the variable in lower case. -/
def namesUndeletable (p : Text) : Bool := undeletable.contains p || p == "$HOME"

/-- The command removes an undeletable path. -/
def removesUndeletable (argv : List Text) : Bool :=
  ((removalArgs .program argv).getD []).any fun w => namesUndeletable (normalPath w)

/-! ### What the policy sees -/

def quoteMark (c : Char) : Bool := c == '"' || c == '\''

/-- A path of the list, or none at all, with slashes behind it and quotes around it. -/
def SpelledOut (w : Text) : Prop :=
  ∃ front p n back, w = front ++ (p ++ List.replicate n '/') ++ back ∧
    (∀ c ∈ front, quoteMark c = true) ∧ (∀ c ∈ back, quoteMark c = true) ∧
    (p = [] ∨ p ∈ undeletable)

/-- Words between blanks that begin, behind wrappers alone, with `rm`, and have an operand
that is spelled out. -/
def SpellsRemoval (ws : List Text) : Prop :=
  ∃ wrappers prog operands, ws = wrappers ++ prog :: operands ∧
    (∀ v ∈ wrappers, v ∈ deleteWrappers) ∧
    (prog = "rm".toList ∨ ∃ dir, prog = dir ++ '/' :: "rm".toList) ∧
    ∃ w ∈ operands, Text.startsWith w "-" = false ∧ SpelledOut w

theorem undeletable_rdropWhile : ∀ p ∈ [] :: undeletable,
    let target := p.rdropWhile (· == '/')
    (target = [] ∨ target ∈ undeletable) ∧ ∀ c ∈ p, quoteMark c = false := by decide

theorem deletesTarget_iff (w : Text) : deletesTarget w = true ↔ SpelledOut w := by
  have hroot : "/".toList ∈ undeletable := by decide
  have htarget : deletesTarget w = true ↔
      (w.trimMatches quoteMark).rdropWhile (· == '/') = [] ∨
        (w.trimMatches quoteMark).rdropWhile (· == '/') ∈ undeletable := by
    have hcontains : ∀ target : Text,
        undeletable.contains (if target.isEmpty then "/".toList else target) = true ↔
          target = [] ∨ target ∈ undeletable := by
      intro target
      cases target with
      | nil => exact iff_of_true (List.contains_iff_mem.mpr hroot) (.inl rfl)
      | cons c t => simp
    exact hcontains _
  rw [htarget]
  constructor
  · intro h
    obtain ⟨front, back, hw, hfront, hback⟩ := exists_bounded_trimMatches quoteMark w
    obtain ⟨slashes, hslashes, hall⟩ := exists_append_rdropWhile (· == '/')
      (w.trimMatches quoteMark)
    refine ⟨front, _, slashes.length, back, ?_, hfront, hback, h⟩
    rw [← List.eq_replicate_of_mem fun c hc => by simpa using hall c hc, ← hslashes]
    exact hw
  · rintro ⟨front, p, n, back, rfl, hfront, hback, hp⟩
    obtain ⟨hkept, hplain⟩ := undeletable_rdropWhile p (List.mem_cons.mpr hp)
    have hslashes : ∀ c ∈ List.replicate n '/', c = '/' := fun c hc => List.eq_of_mem_replicate hc
    rw [trimMatches_of_bounded hfront ?_ hback, rdropWhile_append _ fun c hc => by
      rw [hslashes c hc]; rfl]
    · exact hkept
    · intro c hc
      obtain hc | hc := List.mem_append.mp hc
      · exact hplain c hc
      · rw [hslashes c hc]
        rfl

theorem deleteWrappers_programName : ∀ v ∈ deleteWrappers, programName v ≠ "rm".toList := by
  decide

theorem stageDeletes_iff (ws : List Text) : stageDeletes ws = true ↔ SpellsRemoval ws := by
  have hprogram : ∀ prog, programName prog = "rm".toList ↔
      prog = "rm".toList ∨ ∃ dir, prog = dir ++ '/' :: "rm".toList :=
    fun prog => afterLast_eq_iff (by decide)
  have hstage : ∀ (prog : Text) (operands : List Text),
      (programName prog == "rm" && operands.any fun w => !w.startsWith "-" && deletesTarget w) =
          true ↔ programName prog = "rm".toList ∧
        ∃ w ∈ operands, w.startsWith "-" = false ∧ SpelledOut w := by
    intro prog operands
    simp only [Bool.and_eq_true, beq_iff_eq, List.any_eq_true, Bool.not_eq_true',
      deletesTarget_iff]
  constructor
  · intro h
    unfold stageDeletes at h
    split at h
    case h_1 => cases h
    case h_2 prog operands hdrop =>
      obtain ⟨hrm, hoperand⟩ := (hstage prog operands).mp h
      refine ⟨ws.takeWhile deleteWrappers.contains, prog, operands, ?_, ?_,
        (hprogram prog).mp hrm, hoperand⟩
      · rw [← hdrop, List.takeWhile_append_dropWhile]
      · exact fun v hv => List.contains_iff_mem.mp (List.mem_takeWhile_imp hv)
  · rintro ⟨wrappers, prog, operands, rfl, hwrappers, hprog, hoperand⟩
    have hrm := (hprogram prog).mpr hprog
    have hnot : ¬deleteWrappers.contains prog = true := fun h =>
      deleteWrappers_programName prog (List.contains_iff_mem.mp h) hrm
    rw [stageDeletes, List.dropWhile_append_of_pos
      (fun v hv => List.contains_iff_mem.mpr (hwrappers v hv)), List.dropWhile_cons_of_neg hnot]
    exact (hstage prog operands).mpr ⟨hrm, hoperand⟩

/-- The shell finds a command in the text that removes an undeletable path. -/
def RunsRemoval (cmd : Text) : Prop := ∃ argv ∈ readCommands cmd, removesUndeletable argv = true

instance (cmd : Text) : Decidable (RunsRemoval cmd) :=
  inferInstanceAs (Decidable (∃ argv ∈ readCommands cmd, removesUndeletable argv = true))

end MindOS.Policy
