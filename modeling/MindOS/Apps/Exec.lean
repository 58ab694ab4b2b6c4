import Mathlib.Data.List.Forall2
import MindOS.Apps.Entry
import MindOS.Text.Tokens

/-!
# The arguments of a command line

What the Desktop Entry specification reads in the value of `Exec`, and what the shell reads
in what `clean_exec` makes of it. Arguments are quoted in whole or not at all. The function
takes the value as the file spells it, takes the field codes away and squeezes the rest
without regard to quotes. So the two readings part where the file has an escape, where an
argument has whitespace that is squeezed, and where the shell reads more into an unquoted word
than the specification does.
-/

namespace MindOS.Apps

open Text

/-! ## The specification -/

/-- What a letter behind a backslash stands for in a string of a key file. -/
def stringEscapes : List (Char × Char) :=
  [('s', ' '), ('n', '\n'), ('t', '\t'), ('r', '\r'), ('\\', '\\')]

/-- The string that is spelled in a key file. -/
def unescape : Text → Option Text
  | [] => some []
  | ['\\'] => none
  | '\\' :: c :: t => (stringEscapes.lookup c).bind fun d => (unescape t).map (d :: ·)
  | c :: t => (unescape t).map (c :: ·)

theorem unescape_of_not_mem {t : Text} (h : '\\' ∉ t) : unescape t = some t := by
  induction t with
  | nil => rfl
  | cons c t ih =>
      simp only [List.mem_cons, not_or] at h
      rw [unescape, ih h.2]
      · rfl
      · exact fun hback => absurd hback.symm h.1
      · exact fun d u hback => absurd hback.symm h.1

/-- Characters that an argument holds only in quotes. -/
def reserved : Text := " \t\n\"'\\><~|&;$*?#()`".toList

/-- What stands between arguments. -/
def isGap (c : Char) : Bool := " \t\n".toList.contains c

/-- What stands behind a backslash in quotes, and only there. -/
def escapes : Text := "\"`$\\".toList

/-- The letters of the field codes, with those of the deprecated ones. -/
def codes : Text := "fFuUickdDnNvm".toList

/-- An argument as the program gets it, and whether it was quoted. -/
structure Argument where
  quoted : Bool
  value : Text
  deriving DecidableEq

/-- Where the reading stands, with what it has of an argument. -/
inductive Spot where
  | gap
  | bare (value : Text)
  | bareSign (value : Text)
  | quoted (value : Text)
  | quotedEscape (value : Text)
  | quotedSign (value : Text)
  | closed (value : Text)

namespace Spot

/-- The arguments that end here. One that is nothing but field codes is none. -/
def finish : Spot → Option (List Argument)
  | gap => some []
  | bare value => some (if value = [] then [] else [⟨false, value⟩])
  | closed value => some [⟨true, value⟩]
  | _ => none

def bareNext (value : Text) (c : Char) : Option Spot :=
  if c = '%' then some (bareSign value)
  else if c ∈ reserved then none
  else some (bare (value ++ [c]))

/-- A character that ends no argument. -/
def next : Spot → Char → Option Spot
  | gap, c => if c = '"' then some (quoted []) else bareNext [] c
  | bare value, c => bareNext value c
  | bareSign value, c =>
      if c = '%' then some (bare (value ++ ['%']))
      else if c ∈ codes then some (bare value)
      else none
  | quoted value, c =>
      if c = '"' then some (closed value)
      else if c = '\\' then some (quotedEscape value)
      else if c = '%' then some (quotedSign value)
      else if c ∈ escapes then none
      else some (quoted (value ++ [c]))
  | quotedEscape value, c => if c ∈ escapes then some (quoted (value ++ [c])) else none
  -- A field code in quotes has no meaning.
  | quotedSign value, c => if c = '%' then some (quoted (value ++ ['%'])) else none
  | closed _, _ => none

end Spot

def arguments : Spot → Text → Option (List Argument)
  | spot, [] => spot.finish
  | spot, c :: t =>
      match if isGap c then spot.finish else none with
      | some done => (arguments .gap t).map (done ++ ·)
      | none => (spot.next c).bind (arguments · t)

/-- What the specification reads in the value of `Exec`, where all field codes expand to nothing.
The escapes of a string are undone before the quotes. The name of the program has no sign `=`
in it. -/
def specified (exec : Text) : Option (List Argument) :=
  ((unescape exec).bind (arguments .gap)).filter fun args =>
    args.head?.all fun a => decide ('=' ∉ a.value)

example : (specified "app %f --name=\"x\"".toList).isNone := by decide

example : specified "app%i\\s\"100%% of \\\\\"it\\\\\"\" %U".toList =
    some [⟨false, "app".toList⟩, ⟨true, "100% of \"it\"".toList⟩] := by decide

/-- An unquoted argument has a character, and none that must be quoted. -/
def Argument.Lawful (a : Argument) : Prop :=
  a.quoted = false → a.value ≠ [] ∧ ∀ c ∈ a.value, c ∉ reserved

def Spot.Lawful : Spot → Prop
  | .bare value | .bareSign value => ∀ c ∈ value, c ∉ reserved
  | _ => True

theorem Spot.lawful_bareNext {value : Text} {c : Char} {spot : Spot}
    (h : bareNext value c = some spot) (hv : ∀ d ∈ value, d ∉ reserved) : spot.Lawful := by
  unfold bareNext at h
  split at h
  · obtain rfl := Option.some.inj h
    exact hv
  · split at h
    · cases h
    · obtain rfl := Option.some.inj h
      intro d hd
      obtain hd | hd := List.mem_append.mp hd
      · exact hv d hd
      · obtain rfl := List.mem_singleton.mp hd
        assumption

theorem Spot.lawful_next {spot spot' : Spot} {c : Char} (h : spot.next c = some spot')
    (hs : spot.Lawful) : spot'.Lawful := by
  cases spot with
  | gap =>
      simp only [next] at h
      split at h
      · obtain rfl := Option.some.inj h
        trivial
      · exact lawful_bareNext h (by simp)
  | bare value => exact lawful_bareNext h hs
  | bareSign value =>
      simp only [next] at h
      split at h
      · obtain rfl := Option.some.inj h
        intro d hd
        obtain hd | hd := List.mem_append.mp hd
        · exact hs d hd
        · obtain rfl := List.mem_singleton.mp hd
          decide
      · split at h
        · obtain rfl := Option.some.inj h
          exact hs
        · cases h
  | quoted value =>
      simp only [next] at h
      repeat' split at h
      all_goals first | cases h; done | (obtain rfl := Option.some.inj h; trivial)
  | quotedEscape value =>
      simp only [next] at h
      split at h
      · obtain rfl := Option.some.inj h
        trivial
      · cases h
  | quotedSign value =>
      simp only [next] at h
      split at h
      · obtain rfl := Option.some.inj h
        trivial
      · cases h
  | closed value => cases h

theorem Spot.lawful_finish {spot : Spot} {done : List Argument} (h : spot.finish = some done)
    (hs : spot.Lawful) : ∀ a ∈ done, a.Lawful := by
  cases spot with
  | gap =>
      obtain rfl := Option.some.inj h
      simp
  | bare value =>
      obtain rfl := Option.some.inj h
      by_cases hv : value = []
      · simp [hv]
      · rw [if_neg hv]
        intro a ha _
        obtain rfl := List.mem_singleton.mp ha
        exact ⟨hv, hs⟩
  | closed value =>
      obtain rfl := Option.some.inj h
      intro a ha hq
      obtain rfl := List.mem_singleton.mp ha
      cases hq
  | _ => cases h

theorem arguments_cons {spot : Spot} {c : Char} {t : Text} {args : List Argument}
    (h : arguments spot (c :: t) = some args) :
    (∃ done rest, isGap c = true ∧ spot.finish = some done ∧ arguments .gap t = some rest ∧
        args = done ++ rest) ∨
      ∃ spot', spot.next c = some spot' ∧ arguments spot' t = some args := by
  rw [arguments] at h
  split at h
  case h_1 done hdone =>
    left
    obtain ⟨rest, hrest, rfl⟩ := Option.map_eq_some_iff.mp h
    split at hdone
    case isTrue hgap => exact ⟨done, rest, hgap, hdone, hrest, rfl⟩
    case isFalse => cases hdone
  case h_2 =>
    right
    exact Option.bind_eq_some_iff.mp h

theorem lawful_of_arguments {spot : Spot} {t : Text} {args : List Argument}
    (h : arguments spot t = some args) (hs : spot.Lawful) : ∀ a ∈ args, a.Lawful := by
  induction t generalizing spot args with
  | nil => exact Spot.lawful_finish h hs
  | cons c t ih =>
      obtain ⟨done, rest, -, hdone, hrest, rfl⟩ | ⟨spot', hnext, hrest⟩ := arguments_cons h
      · intro a ha
        obtain ha | ha := List.mem_append.mp ha
        · exact Spot.lawful_finish hdone hs a ha
        · exact ih hrest trivial a ha
      · exact ih hrest (Spot.lawful_next hnext hs)

/-! ## What is left of the command line -/

/-- A quoted argument as it is written. -/
def escaped (value : Text) : Text :=
  value.flatMap fun c => if c ∈ escapes then ['\\', c] else [c]

def inQuotes (value : Text) : Text := '"' :: (escaped value ++ ['"'])

def Argument.text (a : Argument) : Text := if a.quoted then inQuotes a.value else a.value

/-- What is left of the argument so far. -/
def Spot.text : Spot → Text
  | .gap => []
  | .bare value | .bareSign value => value
  | .quoted value | .quotedSign value => '"' :: escaped value
  | .quotedEscape value => '"' :: (escaped value ++ ['\\'])
  | .closed value => inQuotes value

/-- The sign that the next character decides about. -/
def Spot.sign : Spot → Text
  | .bareSign _ | .quotedSign _ => ['%']
  | _ => []

theorem fieldCodes_cons {c : Char} (hc : c ≠ '%') (t : Text) :
    fieldCodes (c :: t) = c :: fieldCodes t := by
  rw [fieldCodes] <;> simp [hc]

theorem fieldCodes_code {c : Char} (hc : c ≠ '%') (t : Text) :
    fieldCodes ('%' :: c :: t) = fieldCodes t := by
  rw [fieldCodes]
  simpa using hc

@[simp] theorem escaped_append (u v : Text) : escaped (u ++ v) = escaped u ++ escaped v :=
  List.flatMap_append

theorem escaped_singleton (c : Char) :
    escaped [c] = if c ∈ escapes then ['\\', c] else [c] := by
  simp [escaped]

theorem Spot.text_bareNext {value : Text} {c : Char} {spot : Spot}
    (h : bareNext value c = some spot) (t : Text) :
    value ++ fieldCodes (c :: t) = spot.text ++ fieldCodes (spot.sign ++ t) := by
  unfold bareNext at h
  split at h
  case isTrue hc =>
    obtain rfl := Option.some.inj h
    rw [hc]
    rfl
  case isFalse hc =>
    split at h
    · cases h
    · obtain rfl := Option.some.inj h
      simp [text, sign, fieldCodes_cons hc]

theorem Spot.text_next {spot spot' : Spot} {c : Char} (h : spot.next c = some spot') (t : Text) :
    spot.text ++ fieldCodes (spot.sign ++ c :: t) =
      spot'.text ++ fieldCodes (spot'.sign ++ t) := by
  cases spot with
  | gap =>
      simp only [next] at h
      split at h
      case isTrue hc =>
        obtain rfl := Option.some.inj h
        subst hc
        exact fieldCodes_cons (by decide) t
      case isFalse => exact text_bareNext h t
  | bare value => exact text_bareNext h t
  | bareSign value =>
      simp only [next] at h
      split at h
      case isTrue hc =>
        obtain rfl := Option.some.inj h
        subst hc
        change value ++ '%' :: fieldCodes t = (value ++ ['%']) ++ fieldCodes t
        simp
      case isFalse hc =>
        split at h
        · obtain rfl := Option.some.inj h
          exact congrArg (value ++ ·) (fieldCodes_code hc t)
        · cases h
  | quoted value =>
      simp only [next] at h
      split at h
      case isTrue hc =>
        obtain rfl := Option.some.inj h
        subst hc
        simp [text, sign, inQuotes, fieldCodes_cons]
      case isFalse hquote =>
        split at h
        case isTrue hc =>
          obtain rfl := Option.some.inj h
          subst hc
          simp [text, sign, fieldCodes_cons]
        case isFalse =>
          split at h
          case isTrue hc =>
            obtain rfl := Option.some.inj h
            subst hc
            rfl
          case isFalse hc =>
            split at h
            · cases h
            · next hescape =>
              obtain rfl := Option.some.inj h
              simp [text, sign, fieldCodes_cons hc, escaped_singleton, hescape]
  | quotedEscape value =>
      simp only [next] at h
      split at h
      case isTrue hc =>
        obtain rfl := Option.some.inj h
        have hsign : c ≠ '%' := fun hc' => absurd (hc' ▸ hc) (by decide)
        simp [text, sign, fieldCodes_cons hsign, escaped_singleton, hc]
      case isFalse => cases h
  | quotedSign value =>
      simp only [next] at h
      split at h
      case isTrue hc =>
        obtain rfl := Option.some.inj h
        subst hc
        have hsign : escaped ['%'] = ['%'] := by decide
        change '"' :: escaped value ++ '%' :: fieldCodes t =
          '"' :: escaped (value ++ ['%']) ++ fieldCodes t
        simp [hsign]
      case isFalse => cases h
  | closed value => cases h

theorem Spot.words_finish {spot : Spot} {done : List Argument} (h : spot.finish = some done) :
    spot.sign = [] ∧ words spot.text = done.flatMap fun a => words a.text := by
  cases spot with
  | gap =>
      obtain rfl := Option.some.inj h
      exact ⟨rfl, words_nil⟩
  | bare value =>
      obtain rfl := Option.some.inj h
      refine ⟨rfl, ?_⟩
      by_cases hv : value = []
      · simp [text, hv]
      · simp [text, Argument.text, hv]
  | closed value =>
      obtain rfl := Option.some.inj h
      exact ⟨rfl, by simp [text, Argument.text]⟩
  | _ => cases h

theorem words_of_arguments {spot : Spot} {t : Text} {args : List Argument}
    (h : arguments spot t = some args) :
    words (spot.text ++ fieldCodes (spot.sign ++ t)) = args.flatMap fun a => words a.text := by
  induction t generalizing spot args with
  | nil =>
      obtain ⟨hsign, hwords⟩ := Spot.words_finish h
      rw [hsign, ← hwords]
      simp [fieldCodes]
  | cons c t ih =>
      obtain ⟨done, rest, hgap, hdone, hrest, rfl⟩ | ⟨spot', hnext, hrest⟩ := arguments_cons h
      · obtain ⟨hsign, hwords⟩ := Spot.words_finish hdone
        have hc : c ≠ '%' ∧ isWhitespace c = true := by
          have hmem : c ∈ " \t\n".toList := List.contains_iff_mem.mp hgap
          have hall : ∀ c ∈ " \t\n".toList, c ≠ '%' ∧ isWhitespace c = true := by decide
          exact hall c hmem
        have hlater : words (fieldCodes t) = rest.flatMap fun a => words a.text := ih hrest
        rw [hsign, List.nil_append, fieldCodes_cons hc.1, words_append_cons _ _ hc.2, hwords,
          hlater, List.flatMap_append]
      · rw [Spot.text_next hnext, ih hrest]

/-! ## What the shell reads -/

/-- The words of the shell that are left of an argument. Quotes keep one together. -/
def Argument.pieces (a : Argument) : List Text :=
  if a.quoted then [inQuotes (collapse false a.value)] else words a.value

def Argument.marks (a : Argument) : List (List Mark) :=
  if a.quoted then [literal (collapse false a.value)] else (words a.value).map Text.bare

theorem escaped_cons (c : Char) (value : Text) :
    escaped (c :: value) = (if c ∈ escapes then ['\\', c] else [c]) ++ escaped value := by
  rw [← escaped_singleton]
  exact escaped_append [c] value

theorem collapse_escaped (after : Bool) (value : Text) :
    collapse after (escaped value) = escaped (collapse after value) := by
  induction value generalizing after with
  | nil => rfl
  | cons c value ih =>
      cases hws : isWhitespace c with
      | true =>
          have hc : c ∉ escapes := by
            have hall : ∀ d ∈ escapes, isWhitespace d = false := by decide
            intro hmem
            rw [hall c hmem] at hws
            cases hws
          have hspace : ∀ v, escaped (' ' :: v) = ' ' :: escaped v := fun v => rfl
          rw [escaped_cons, if_neg hc, List.singleton_append]
          cases after <;> simp [collapse, hws, ih, hspace]
      | false =>
          have hback : isWhitespace '\\' = false := by decide
          have hafter : collapse after (c :: value) = c :: collapse false value := by
            simp [collapse, hws]
          rw [hafter, escaped_cons, escaped_cons, ← ih]
          split <;> simp [collapse, hws, hback]

theorem squeeze_inQuotes (value : Text) :
    squeeze (inQuotes value) = inQuotes (collapse false value) := by
  rw [inQuotes, squeeze_between (by decide) (by decide), collapse_escaped]
  rfl

theorem unwords_flatMap_words {texts : List Text}
    (h : ∀ t ∈ texts, words t ≠ [] ∧ squeeze t = t) :
    unwords (texts.flatMap words) = unwords texts := by
  induction texts with
  | nil => rfl
  | cons t texts ih =>
      obtain ⟨hne, hsq⟩ := h t List.mem_cons_self
      have hrest := ih fun u hu => h u (List.mem_cons_of_mem t hu)
      rw [List.flatMap_cons]
      cases texts with
      | nil => simpa [squeeze] using hsq
      | cons u texts =>
          have hnil : (u :: texts).flatMap words ≠ [] := by
            rw [List.flatMap_cons]
            exact List.append_ne_nil_of_left_ne_nil (h u (by simp)).1 _
          rw [unwords_append hne hnil, hrest, ← squeeze, hsq,
            unwords_cons (List.cons_ne_nil u texts)]

theorem Argument.words_pieces (a : Argument) :
    a.pieces.flatMap words = words a.text ∧ ∀ p ∈ a.pieces, words p ≠ [] ∧ squeeze p = p := by
  unfold pieces text
  cases a.quoted with
  | true =>
      have hsq := squeeze_inQuotes a.value
      have hne : words (inQuotes a.value) ≠ [] := by
        obtain ⟨w, hw, -⟩ := exists_mem_words (t := inQuotes a.value) List.mem_cons_self (by decide)
        exact List.ne_nil_of_mem hw
      rw [if_pos rfl, if_pos rfl, ← hsq]
      refine ⟨by simp, fun p hp => ?_⟩
      obtain rfl := List.mem_singleton.mp hp
      rw [words_squeeze]
      exact ⟨hne, by rw [squeeze, words_squeeze]; rfl⟩
  | false =>
      have hone : ∀ w ∈ words a.value, words w = [w] :=
        fun w hw => words_of_isWord (isWord_of_mem_words hw)
      simp only [Bool.false_eq_true, if_false]
      constructor
      · rw [List.flatMap_congr hone]
        simp
      · intro p hp
        rw [squeeze, hone p hp]
        simp

theorem cleanExec_eq {exec : Text} {args : List Argument} (h : arguments .gap exec = some args) :
    cleanExec exec = unwords (args.flatMap Argument.pieces) := by
  have hwords : words (fieldCodes exec) = args.flatMap fun a => words a.text :=
    words_of_arguments h
  have hpieces : (args.flatMap Argument.pieces).flatMap words = words (fieldCodes exec) := by
    rw [hwords, List.flatMap_assoc]
    exact List.flatMap_congr fun a _ => a.words_pieces.1
  rw [cleanExec, squeeze, ← hpieces]
  apply unwords_flatMap_words
  intro p hp
  obtain ⟨a, -, hpa⟩ := List.mem_flatMap.mp hp
  exact a.words_pieces.2 p hpa

theorem scan_escaped (value : Text) (ts : List Token) (marks : List Mark) :
    (escaped value).foldl Scanner.scan { quoting := .double, tokens := ts, word := some marks } =
      { quoting := .double, tokens := ts, word := some (marks ++ literal value) } := by
  induction value generalizing marks with
  | nil => simp [escaped, literal]
  | cons c value ih =>
      have hone : (escaped [c]).foldl Scanner.scan
          { quoting := .double, tokens := ts, word := some marks } =
            { quoting := .double, tokens := ts, word := some (marks ++ [⟨c, true⟩]) } := by
        rw [escaped_singleton]
        split
        case isTrue hc =>
          have hall : ∀ d ∈ escapes,
              Scanner.scan (Scanner.scan { quoting := .double, tokens := ts, word := some marks }
                '\\') d =
                { quoting := .double, tokens := ts, word := some (marks ++ [⟨d, true⟩]) } := by
            simp [escapes, Scanner.scan, Scanner.quote, Scanner.put]
          exact hall c hc
        case isFalse hc =>
          have hne : ∀ d ∈ escapes, c ≠ d := fun d hd h => hc (h ▸ hd)
          simp [Scanner.scan, Scanner.put, hne '"' (by decide), hne '\\' (by decide),
            hne '$' (by decide), hne '`' (by decide)]
      rw [show escaped (c :: value) = escaped [c] ++ escaped value from escaped_append [c] value,
        List.foldl_append, hone, ih]
      simp [literal]

theorem scans_inQuotes (value : Text) : Scans (inQuotes value) (literal value) := by
  intro ts
  have hbody := scan_escaped value ts []
  rw [inQuotes, List.foldl_cons, List.foldl_append]
  change ([_].foldl Scanner.scan ((escaped value).foldl Scanner.scan
    { quoting := .double, tokens := ts, word := some [] })) = _
  rw [hbody]
  rfl

theorem special_subset_reserved : ∀ c ∈ special, c ∈ reserved := by decide

theorem Argument.scans_pieces {a : Argument} (h : a.Lawful) :
    List.Forall₂ Scans a.pieces a.marks := by
  unfold pieces marks
  cases hq : a.quoted with
  | true => exact .cons (scans_inQuotes _) .nil
  | false =>
      simp only [Bool.false_eq_true, if_false]
      rw [List.forall₂_map_right_iff, List.forall₂_same]
      intro w hw
      refine scans_of_not_special (isWord_of_mem_words hw).1 fun c hc hspecial => ?_
      exact (h hq).2 c ((infix_of_mem_words hw).subset hc) (special_subset_reserved c hspecial)

theorem Argument.expandable_marks {a : Argument} (h : a.Lawful) : ∀ w ∈ a.marks, Expandable w := by
  unfold marks
  cases hq : a.quoted with
  | true =>
      intro w hw m hm hbare
      obtain rfl := List.mem_singleton.mp hw
      obtain ⟨c, -, rfl⟩ := List.mem_map.mp hm
      cases hbare
  | false =>
      intro w hw m hm _
      obtain ⟨v, hv, rfl⟩ := List.mem_map.mp hw
      obtain ⟨c, hc, rfl⟩ := List.mem_map.mp hm
      have hreserved := (h hq).2 c ((infix_of_mem_words hv).subset hc)
      have hne : ∀ d ∈ reserved, c ≠ d := fun d hd heq => hreserved (heq ▸ hd)
      exact ⟨hne '$' (by decide), hne '`' (by decide), hne '~' (by decide)⟩

theorem commandWords_cleanExec (dir : Directory) {exec : Text} {args : List Argument}
    (h : arguments .gap exec = some args) :
    commandWords dir (cleanExec exec) =
      if ((args.flatMap Argument.marks).map Token.word).head?.any Token.isReserved then none
      else some (((args.flatMap Argument.marks).dropWhile
        fun w => Token.isAssignment (.word w)).flatMap dir.names) := by
  have hlawful := lawful_of_arguments h trivial
  have hscans : List.Forall₂ Scans (args.flatMap Argument.pieces)
    (args.flatMap Argument.marks) := by
    clear h
    induction args with
    | nil => exact .nil
    | cons a args ih =>
        exact List.rel_append (Argument.scans_pieces (hlawful a List.mem_cons_self))
          (ih fun b hb => hlawful b (List.mem_cons_of_mem a hb))
  rw [cleanExec_eq h]
  apply commandWords_unwords dir hscans
  intro w hw
  obtain ⟨a, ha, hwa⟩ := List.mem_flatMap.mp hw
  exact Argument.expandable_marks (hlawful a ha) w hwa

/-! ## Arguments that survive -/

/-- Quoted, its whitespace is single blanks. Unquoted, it has no whitespace, not even such as
the specification lets stand, and matches no file but one of its own name. -/
def Argument.Survives (dir : Directory) (a : Argument) : Prop :=
  if a.quoted then Spaced a.value
  else (∀ c ∈ a.value, isWhitespace c = false) ∧ dir.names (Text.bare a.value) = [a.value]

instance (dir : Directory) (a : Argument) : Decidable (a.Survives dir) :=
  inferInstanceAs (Decidable (if a.quoted = true then Spaced a.value
    else (∀ c ∈ a.value, isWhitespace c = false) ∧ dir.names (Text.bare a.value) = [a.value]))

/-- The words that the shell makes of an argument. -/
def Argument.becomes (dir : Directory) (a : Argument) : List Text := a.marks.flatMap dir.names

theorem Argument.becomes_of_survives {dir : Directory} {a : Argument} (hl : a.Lawful)
    (h : a.Survives dir) :
    a.marks = [if a.quoted then literal a.value else Text.bare a.value] ∧
      a.becomes dir = [a.value] := by
  unfold Survives at h
  cases hq : a.quoted with
  | true =>
      rw [hq, if_pos rfl] at h
      have hmarks : a.marks = [literal a.value] := by
        rw [marks, hq, if_pos rfl, (collapse_eq_self_iff a.value).mpr h]
      exact ⟨hmarks, by simp [becomes, hmarks, dir.names_literal]⟩
  | false =>
      rw [hq, if_neg (by simp)] at h
      have hmarks : a.marks = [Text.bare a.value] := by
        rw [marks, hq, if_neg (by simp), words_of_isWord ⟨(hl hq).1, h.1⟩]
        rfl
      exact ⟨hmarks, by simp [becomes, hmarks, h.2]⟩

theorem Argument.survives_of_mem {dir : Directory} {a : Argument} (hl : a.Lawful)
    (h : a.value ∈ a.becomes dir) : a.Survives dir := by
  unfold Survives
  cases hq : a.quoted with
  | true =>
      rw [becomes, marks, hq, if_pos rfl, List.flatMap_singleton, dir.names_literal] at h
      rw [if_pos rfl, ← collapse_eq_self_iff]
      exact (List.mem_singleton.mp h).symm
  | false =>
      obtain ⟨hne, hreserved⟩ := hl hq
      rw [becomes, marks, hq, if_neg (by simp), List.flatMap_map] at h
      obtain ⟨w, hw, hname⟩ := List.mem_flatMap.mp h
      have hsigns : ∀ c ∈ w, c ≠ '*' ∧ c ≠ '?' := by
        intro c hc
        have hnot := hreserved c ((infix_of_mem_words hw).subset hc)
        exact ⟨fun heq => hnot (heq ▸ by decide), fun heq => hnot (heq ▸ by decide)⟩
      -- The names are the word or shorter, and the word is shorter where there is whitespace.
      have hnames := dir.names_bare hsigns
      have hlen : a.value.length ≤ w.length := by
        obtain hone | hshorter := hnames
        · rw [hone] at hname
          rw [List.mem_singleton.mp hname]
        · exact (hshorter _ hname).le
      have hws : ∀ c ∈ a.value, isWhitespace c = false := by
        intro c hc
        by_contra hspace
        have := length_lt_of_mem_words hw hc (by simpa using hspace)
        omega
      rw [words_of_isWord ⟨hne, hws⟩] at hw
      obtain rfl := List.mem_singleton.mp hw
      obtain hone | hshorter := hnames
      · rw [if_neg (by simp)]
        exact ⟨hws, hone⟩
      · exact absurd (hshorter _ hname) (Nat.lt_irrefl _)

theorem Argument.becomes_eq_iff {dir : Directory} {a : Argument} (hl : a.Lawful) :
    a.becomes dir = [a.value] ↔ a.Survives dir :=
  ⟨fun h => survives_of_mem hl (by rw [h]; exact List.mem_cons_self),
    fun h => (becomes_of_survives hl h).2⟩

theorem mem_chars_of_isAssignment {marks : List Mark}
    (h : Token.isAssignment (.word marks) = true) :
    '=' ∈ marks.map (·.char) := by
  have hhead := (Bool.and_eq_true_iff.mp h).2
  have hmem := List.mem_of_mem_head? (beq_iff_eq.mp hhead)
  exact List.mem_map.mpr ⟨_, (List.dropWhile_suffix _).subset hmem, rfl⟩

theorem isReserved_literal (s : Text) : Token.isReserved (.word (literal s)) = false := by
  have hall : ∀ w ∈ reservedWords, w ≠ [] := by decide
  rw [Token.isReserved, ← Bool.not_eq_true, List.contains_iff_mem]
  intro hmem
  obtain ⟨w, hw, heq⟩ := List.mem_map.mp hmem
  cases w with
  | nil => exact hall [] hw rfl
  | cons c w =>
      cases s with
      | nil => cases heq
      | cons d s => exact absurd (congrArg Mark.quoted (List.cons.inj heq).1) (by simp)

theorem isReserved_bare (s : Text) :
    Token.isReserved (.word (Text.bare s)) = true ↔ s ∈ reservedWords := by
  rw [Token.isReserved, List.contains_iff_mem]
  refine ⟨fun hmem => ?_, fun hmem => List.mem_map.mpr ⟨s, hmem, rfl⟩⟩
  obtain ⟨w, hw, heq⟩ := List.mem_map.mp hmem
  have hchars := congrArg (List.map (·.char)) heq
  rw [map_char_bare, map_char_bare] at hchars
  exact hchars ▸ hw

theorem marks_of_survive {dir : Directory} {args : List Argument} (hl : ∀ a ∈ args, a.Lawful)
    (h : ∀ a ∈ args, a.Survives dir) :
    args.flatMap Argument.marks =
      args.map fun a => if a.quoted then literal a.value else Text.bare a.value := by
  rw [List.flatMap_congr fun a ha => (Argument.becomes_of_survives (hl a ha) (h a ha)).1]
  exact List.map_eq_flatMap.symm

theorem head_reserved_iff {dir : Directory} {args : List Argument} (hl : ∀ a ∈ args, a.Lawful)
    (h : ∀ a ∈ args, a.Survives dir) :
    ((args.flatMap Argument.marks).map Token.word).head?.any Token.isReserved = false ↔
      ∀ a ∈ args.head?, a.quoted = false → a.value ∉ reservedWords := by
  rw [marks_of_survive hl h]
  cases args with
  | nil => simp
  | cons a args =>
      cases hq : a.quoted with
      | true => simp [hq, isReserved_literal]
      | false => simp [hq, ← isReserved_bare]

theorem dropWhile_assignment {dir : Directory} {args : List Argument} (hl : ∀ a ∈ args, a.Lawful)
    (h : ∀ a ∈ args, a.Survives dir) (hname : ∀ a ∈ args.head?, '=' ∉ a.value) :
    (args.flatMap Argument.marks).dropWhile (fun w => Token.isAssignment (.word w)) =
      args.flatMap Argument.marks := by
  rw [marks_of_survive hl h]
  cases args with
  | nil => rfl
  | cons a args =>
      refine List.dropWhile_cons_of_neg fun hassign => hname a rfl ?_
      have hmem := mem_chars_of_isAssignment hassign
      cases hq : a.quoted <;> simpa [hq] using hmem

/-- The value has no escapes, every argument survives the squeezing and the shell's patterns,
and the program's name, unquoted, is no reserved word. -/
structure Plain (dir : Directory) (exec : Text) (args : List Argument) : Prop where
  noEscape : '\\' ∉ exec
  survive : ∀ a ∈ args, a.Survives dir
  name : ∀ a ∈ args.head?, a.quoted = false → a.value ∉ reservedWords

theorem commandWords_iff (dir : Directory) {exec : Text} {args : List Argument}
    (harguments : arguments .gap exec = some args) (hname : ∀ a ∈ args.head?, '=' ∉ a.value) :
    commandWords dir (cleanExec exec) = some (args.map Argument.value) ↔
      (∀ a ∈ args, a.Survives dir) ∧
        ∀ a ∈ args.head?, a.quoted = false → a.value ∉ reservedWords := by
  have hlawful := lawful_of_arguments harguments trivial
  have hself : ∀ a ∈ args, a.value ∈ a.becomes dir → a.becomes dir = [a.value] :=
    fun a ha hmem => (Argument.becomes_eq_iff (hlawful a ha)).mpr
      (Argument.survives_of_mem (hlawful a ha) hmem)
  have hmarks : (args.flatMap Argument.marks).flatMap dir.names = args.flatMap (·.becomes dir) :=
    List.flatMap_assoc
  have hall : args.flatMap (·.becomes dir) = args.map Argument.value ↔
      ∀ a ∈ args, a.Survives dir := by
    rw [flatMap_eq_map_iff hself]
    exact forall₂_congr fun a ha => Argument.becomes_eq_iff (hlawful a ha)
  rw [commandWords_cleanExec dir harguments]
  constructor
  · intro heq
    split at heq
    · cases heq
    · next hreserved =>
      have hwords := Option.some.inj heq
      have hsplit := List.takeWhile_append_dropWhile
        (p := fun w => Token.isAssignment (.word w)) (l := args.flatMap Argument.marks)
      generalize (args.flatMap Argument.marks).takeWhile _ = front at hsplit
      generalize (args.flatMap Argument.marks).dropWhile _ = kept at hsplit hwords
      have hboth : args.flatMap (·.becomes dir) =
          front.flatMap dir.names ++ args.map Argument.value := by
        rw [← hmarks, ← hsplit, List.flatMap_append, hwords]
      -- An assignment in front would leave a word too many behind.
      have hfront : front.flatMap dir.names = [] := by
        by_contra hne
        exact flatMap_ne_append hne hself hboth
      rw [hfront, List.nil_append] at hboth
      have hsurvive := hall.mp hboth
      exact ⟨hsurvive, (head_reserved_iff hlawful hsurvive).mp (by simpa using hreserved)⟩
  · rintro ⟨hsurvive, hhead⟩
    rw [if_neg (by simpa using (head_reserved_iff hlawful hsurvive).mpr hhead),
      dropWhile_assignment hlawful hsurvive hname, hmarks, hall.mpr hsurvive]

end MindOS.Apps
