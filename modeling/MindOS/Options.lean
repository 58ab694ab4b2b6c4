import MindOS.Text.Basic

/-!
# Command lines with options

A word of a command line is an operand, a long option behind `--`, or a bundle of letters
behind `-`. An option that takes a value takes what is left of its word, or else the next
word.
-/

namespace Options

variable {α : Type*}

/-- Whether an option takes a value; an optional one is never the next word. -/
inductive Arity where
  | flag
  | optional
  | value
  deriving DecidableEq

/-- What letters and long names stand for, and whether `--name=value` is understood. -/
structure Grammar (α : Type*) where
  short : Char → Option (α × Arity)
  long : Text → Option (α × Arity)
  equals : Bool

/-- An option with its value. -/
structure Use (α : Type*) where
  option : α
  value : Option Text

namespace Grammar

/-- The letters of a bundle; the last option may still want a value. -/
def bundle (g : Grammar α) : Text → Option (List (Use α) × Option (Use α))
  | [] => some ([], none)
  | c :: rest =>
      match g.short c with
      | none => none
      | some (o, a) =>
          if a = .flag then (g.bundle rest).map fun r => (⟨o, none⟩ :: r.1, r.2)
          else if rest ≠ [] then some ([⟨o, some rest⟩], none)
          else if a = .optional then some ([⟨o, none⟩], none)
          else some ([], some ⟨o, none⟩)

/-- The name of a long option, without a value behind `=`. -/
def longName (g : Grammar α) (w : Text) : Text :=
  if g.equals then (w.drop 2).takeWhile (· != '=') else w.drop 2

/-- The value behind `=`. -/
def attachedValue (g : Grammar α) (w : Text) : Option Text :=
  if g.equals ∧ '=' ∈ w then some ((w.dropWhile (· != '=')).drop 1) else none

/-- A long option. -/
def longWord (g : Grammar α) (w : Text) : Option (List (Use α) × Option (Use α)) :=
  match g.long (g.longName w) with
  | none => none
  | some (o, a) =>
      let u : Use α := ⟨o, g.attachedValue w⟩
      if a = .value ∧ u.value = none then some ([], some u)
      else if a = .flag ∧ u.value ≠ none then none
      else some ([u], none)

def optionWord (g : Grammar α) (w : Text) : Option (List (Use α) × Option (Use α)) :=
  if w.startsWith "--" then g.longWord w else g.bundle (w.drop 1)

/-- The options and operands of a command line, unless the program refuses it. The first
argument is an option that waits for its value. -/
def parse (g : Grammar α) : Option (Use α) → List Text → Option (List (Use α) × List Text)
  | none, [] => some ([], [])
  | some _, [] => none
  | some u, w :: ws => (g.parse none ws).map fun r => ({ u with value := some w } :: r.1, r.2)
  | none, w :: ws =>
      if w = "--".toList then some ([], ws)
      else if w.startsWith "-" ∧ w ≠ "-".toList then
        match g.optionWord w with
        | none => none
        | some (us, pending) => (g.parse pending ws).map fun r => (us ++ r.1, r.2)
      else (g.parse none ws).map fun r => (r.1, w :: r.2)

end Grammar

end Options
