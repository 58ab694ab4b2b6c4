import MindOS.Text.Words

/-!
# The tokens of a command line
-/

/-!
## The shell's tokens

The shell's token recognition with quote removal, where every character of a word
remembers whether it was quoted. A quoted character stands for itself: it starts no
expansion, matches no file and makes no reserved word. What an unquoted `$` or a
backquote stands for is left in the word as it is written.
-/

namespace Text

/-- What a reader is in the middle of. -/
inductive Quoting where
  | plain
  | escaped
  | single
  | double
  | doubleEscaped
  | comment
  deriving DecidableEq

/-- A character of a word. -/
structure Mark where
  char : Char
  quoted : Bool
  deriving DecidableEq

inductive Token where
  | word (marks : List Mark)
  | operator (c : Char)
  deriving DecidableEq

/-- The tokens read so far, the last one first, and the word being read. -/
structure Scanner where
  quoting : Quoting := .plain
  tokens : List Token := []
  word : Option (List Mark) := none

namespace Scanner

/-- A word begins, if none has. -/
def begin (r : Scanner) : Scanner := { r with word := some (r.word.getD []) }

def put (r : Scanner) (c : Char) (quoted : Bool) : Scanner :=
  { r with word := some (r.word.getD [] ++ [⟨c, quoted⟩]) }

def quote (r : Scanner) (q : Quoting) : Scanner := { r with quoting := q }

def endWord (r : Scanner) : Scanner :=
  { r with tokens := (r.word.map Token.word).toList ++ r.tokens, word := none }

def operator (r : Scanner) (c : Char) : Scanner :=
  { r.endWord with tokens := .operator c :: r.endWord.tokens }

def isOperator (c : Char) : Bool := "|;&()<>\n".toList.contains c

/-- One character outside of quotes. -/
def scanPlain (r : Scanner) (c : Char) : Scanner :=
  if c = '\\' then r.quote .escaped
  else if c = '\'' then r.begin.quote .single
  else if c = '"' then r.begin.quote .double
  else if c = ' ' ∨ c = '\t' then r.endWord
  else if isOperator c then r.operator c
  else if c = '#' ∧ r.word = none then r.quote .comment
  else r.put c false

def scan (r : Scanner) (c : Char) : Scanner :=
  match r.quoting with
  | .plain => r.scanPlain c
  | .escaped => if c = '\n' then r.quote .plain else (r.put c true).quote .plain
  | .single => if c = '\'' then r.quote .plain else r.put c true
  | .double =>
      if c = '"' then r.quote .plain
      else if c = '\\' then r.quote .doubleEscaped
      -- Double quotes let `$` and the backquote through.
      else r.put c (c != '$' && c != '`')
  | .doubleEscaped =>
      if c = '\n' then r.quote .double
      else if "$`\"\\".toList.contains c then (r.put c true).quote .double
      else ((r.put '\\' true).put c true).quote .double
  | .comment => if c = '\n' then (r.operator c).quote .plain else r

end Scanner

/-- The tokens of a text; none if a quote stays open. -/
def tokens (t : Text) : Option (List Token) :=
  let r := t.foldl Scanner.scan {}
  if r.quoting = .plain ∨ r.quoting = .comment then some r.endWord.tokens.reverse else none

/-- A word that is quoted as a whole. -/
def literal (s : Text) : List Mark := s.map fun c => ⟨c, true⟩

/-- A word without any quotes. -/
def bare (s : Text) : List Mark := s.map fun c => ⟨c, false⟩

/-- Characters that mean nothing to the shell even outside of quotes. -/
def ordinary (c : Char) : Bool := c.isAlphanum || "-_./,:+@%".toList.contains c

/-- The text a token stands for, if it is a word with nothing in it to expand. -/
def Token.plainWord : Token → Option Text
  | .word marks =>
      if marks.all fun m => m.quoted || ordinary m.char then some (marks.map (·.char)) else none
  | .operator _ => none

/-- The words of a text that is words alone, none of them with anything to expand. -/
def plainWords (t : Text) : Option (List Text) :=
  (tokens t).bind fun ts => ts.mapM Token.plainWord

/-! ### Words one by one -/

/-- Where a word may begin, the text is one word. -/
def Scans (t : Text) (marks : List Mark) : Prop :=
  ∀ ts, t.foldl Scanner.scan { tokens := ts } = { tokens := ts, word := some marks }

theorem foldl_scan_unwords {words : List Text} {marks : List (List Mark)}
    (h : List.Forall₂ Scans words marks) (ts : List Token) :
    ((unwords words).foldl Scanner.scan { tokens := ts }).endWord =
      { tokens := (marks.map Token.word).reverse ++ ts } := by
  induction h generalizing ts with
  | nil => rfl
  | @cons w m words marks hw hrest ih =>
      have hend : ({ tokens := ts, word := some m } : Scanner).endWord =
          { tokens := .word m :: ts } := rfl
      by_cases hnil : words = []
      · subst hnil
        cases hrest
        simpa [hw ts] using hend
      · have hblank : Scanner.scan { tokens := ts, word := some m } ' ' =
            { tokens := .word m :: ts } := rfl
        rw [unwords_cons hnil, List.foldl_append, hw ts, List.foldl_cons, hblank, ih]
        simp

theorem tokens_unwords {words : List Text} {marks : List (List Mark)}
    (h : List.Forall₂ Scans words marks) :
    tokens (unwords words) = some (marks.map Token.word) := by
  have hend := foldl_scan_unwords h []
  have hplain : ((unwords words).foldl Scanner.scan {}).quoting = .plain :=
    congrArg Scanner.quoting hend
  simp only [tokens]
  rw [if_pos (.inl hplain), hend]
  simp

@[simp] theorem map_char_literal (s : Text) : (literal s).map (·.char) = s := by
  simp [literal, Function.comp_def]

@[simp] theorem map_char_bare (s : Text) : (bare s).map (·.char) = s := by
  simp [bare, Function.comp_def]

/-- Where a word may begin, the text is the one word `w`, with nothing to expand. -/
def ReadsAs (t w : Text) : Prop :=
  ∃ marks, Scans t marks ∧ marks.map (·.char) = w ∧
    ∀ m ∈ marks, m.quoted = true ∨ ordinary m.char = true

theorem plainWords_unwords {texts words : List Text} (h : List.Forall₂ ReadsAs texts words) :
    plainWords (unwords texts) = some words := by
  have hmarks : ∃ marks, List.Forall₂ Scans texts marks ∧
      (marks.map Token.word).mapM Token.plainWord = some words := by
    induction h with
    | nil => exact ⟨[], .nil, rfl⟩
    | @cons t w texts words ht _ ih =>
        obtain ⟨m, hscan, hchars, hplain⟩ := ht
        obtain ⟨marks, hscans, hwords⟩ := ih
        have hm : Token.plainWord (.word m) = some w := by
          rw [← hchars]
          apply if_pos
          simpa using hplain
        refine ⟨m :: marks, .cons hscan hscans, ?_⟩
        rw [List.map_cons, List.mapM_cons, hm, hwords]
        rfl
  obtain ⟨marks, hscans, hwords⟩ := hmarks
  rw [plainWords, tokens_unwords hscans]
  exact hwords

/-- The characters that do more outside of quotes than go into a word. -/
def special : Text := "\\'\" \t#|;&()<>\n".toList

theorem scan_of_not_special {c : Char} (hc : c ∉ special) (ts : List Token)
    (word : Option (List Mark)) :
    Scanner.scan { tokens := ts, word := word } c =
      { tokens := ts, word := some (word.getD [] ++ [⟨c, false⟩]) } := by
  have hne : ∀ d ∈ special, c ≠ d := fun d hd => fun h => hc (h ▸ hd)
  have hoperator : Scanner.isOperator c = false := by
    have hsub : ∀ d ∈ "|;&()<>\n".toList, d ∈ special := by decide
    rw [Scanner.isOperator, ← Bool.not_eq_true, List.contains_iff_mem]
    exact fun h => hc (hsub c h)
  simp [Scanner.scan, Scanner.scanPlain, Scanner.put, hoperator, hne '\\' (by decide),
    hne '\'' (by decide), hne '"' (by decide), hne ' ' (by decide), hne '\t' (by decide),
    hne '#' (by decide)]

theorem scans_of_not_special {s : Text} (hne : s ≠ []) (hs : ∀ c ∈ s, c ∉ special) :
    Scans s (bare s) := by
  have hword : ∀ (t : Text) (marks : List Mark), (∀ c ∈ t, c ∉ special) → ∀ ts,
      t.foldl Scanner.scan { tokens := ts, word := some marks } =
        { tokens := ts, word := some (marks ++ bare t) } := by
    intro t
    induction t with
    | nil => simp [bare]
    | cons c t ih =>
        intro marks ht ts
        have hrest := ih (marks ++ [⟨c, false⟩]) (fun d hd => ht d (List.mem_cons_of_mem c hd)) ts
        rw [List.append_assoc] at hrest
        rw [List.foldl_cons, scan_of_not_special (ht c List.mem_cons_self)]
        exact hrest
  obtain ⟨c, t, rfl⟩ := List.exists_cons_of_ne_nil hne
  intro ts
  rw [List.foldl_cons, scan_of_not_special (hs c List.mem_cons_self),
    hword t _ fun d hd => hs d (List.mem_cons_of_mem c hd)]
  rfl

theorem not_special_of_ordinary {c : Char} (hc : ordinary c = true) : c ∉ special := by
  have hordinary : ∀ c, ordinary c = true → c.isAlphanum = true ∨ c ∈ "-_./,:+@%".toList :=
    fun c hc => by simpa [ordinary] using hc
  exact forall_of_ascii (P := fun c => c ∉ special) hordinary (by decide) (by decide) hc

theorem scans_bare {s : Text} (hne : s ≠ []) (hs : ∀ c ∈ s, ordinary c = true) :
    Scans s (bare s) :=
  scans_of_not_special hne fun c hc => not_special_of_ordinary (hs c hc)

theorem readsAs_bare {s : Text} (hne : s ≠ []) (hs : ∀ c ∈ s, ordinary c = true) :
    ReadsAs s s := by
  refine ⟨bare s, scans_bare hne hs, map_char_bare s, fun m hm => ?_⟩
  obtain ⟨c, hc, rfl⟩ := List.mem_map.mp hm
  exact .inr (hs c hc)

theorem Scans.readsAs {t s : Text} (h : Scans t (literal s)) : ReadsAs t s := by
  refine ⟨literal s, h, map_char_literal s, fun m hm => ?_⟩
  obtain ⟨c, -, rfl⟩ := List.mem_map.mp hm
  exact .inl rfl

example : plainWords "echo 'a b'\\''$HOME'".toList =
    some ["echo".toList, "a b'$HOME".toList] := by decide

example : plainWords "echo \"$HOME\"".toList = none := by decide

end Text

/-!
## The words of a simple command

What `sh -c` runs: the tokens of a line, without the assignments in front, each word
expanded. A word that is a pattern becomes the names that match it in the directory the
shell runs in, if any do; which those are is left to the directory. Lines that are more than
one command, or have a `$`, a backquote or a tilde to expand, have no words here.
-/

namespace Text

/-- Unquoted characters that make a pattern of a word; some shells expand braces as well. -/
def isPattern (marks : List Mark) : Bool :=
  marks.any fun m => !m.quoted && "*?[\x7b".toList.contains m.char

/-- The names that match a word, in the directory of the shell. -/
structure Directory where
  matching : List Mark → List Text
  /-- Without `*` and `?`, a word matches itself or it has a bracket expression or braces in it,
  which are longer than what they stand for. -/
  shorter : ∀ marks : List Mark, (∀ m ∈ marks, m.quoted = false → m.char ≠ '*' ∧ m.char ≠ '?') →
    matching marks = [marks.map (·.char)] ∨ ∀ name ∈ matching marks, name.length < marks.length

/-- A directory without files. -/
def Directory.empty : Directory where
  matching _ := []
  shorter _ _ := .inr fun _ h => nomatch h

/-- The files that a word names if it is a pattern that any match, or else the word. -/
def Directory.names (dir : Directory) (marks : List Mark) : List Text :=
  if isPattern marks && !(dir.matching marks).isEmpty then dir.matching marks
  else [marks.map (·.char)]

/-- Words that are no command where a command may begin. -/
def reservedWords : List Text := [
  "!".toList, "\x7b".toList, "\x7d".toList, "case".toList, "do".toList, "done".toList,
  "elif".toList,
  "else".toList, "esac".toList, "fi".toList, "for".toList, "if".toList, "in".toList,
  "then".toList, "until".toList, "while".toList]

namespace Token

/-- A reserved word, none of it quoted. -/
def isReserved : Token → Bool
  | .word marks => (reservedWords.map bare).contains marks
  | .operator _ => false

def isNameChar (m : Mark) : Bool := !m.quoted && (m.char.isAlphanum || m.char == '_')

/-- A name and the sign `=`, none of them quoted, and any value. -/
def isAssignment : Token → Bool
  | .word marks =>
      (marks.head?.any fun m => isNameChar m && !m.char.isDigit) &&
        (marks.dropWhile isNameChar).head? == some ⟨'=', false⟩
  | .operator _ => false

/-- The words that a token becomes. -/
def expand (dir : Directory) : Token → Option (List Text)
  | .operator _ => none
  | .word marks =>
      if marks.any (fun m => !m.quoted && "$`".toList.contains m.char) ||
          marks.head? == some ⟨'~', false⟩ then none
      else some (dir.names marks)

end Token

/-- The words of a line that is one simple command; none of any other line. -/
def commandWords (dir : Directory) (t : Text) : Option (List Text) :=
  (tokens t).bind fun ts =>
    if ts.head?.any Token.isReserved then none
    else ((ts.dropWhile Token.isAssignment).mapM (Token.expand dir)).map List.flatten

example : commandWords .empty "LANG=C ls -l \"a  b\" [x]".toList =
    some ["ls".toList, "-l".toList, "a  b".toList, "[x]".toList] := by decide

/-! ### Words that stand for themselves -/

variable {α β : Type*}

theorem flatMap_ne_append {f : α → List β} {g : α → β} {front : List β} (hfront : front ≠ [])
    {l : List α} (h : ∀ a ∈ l, g a ∈ f a → f a = [g a]) : l.flatMap f ≠ front ++ l.map g := by
  induction l generalizing front with
  | nil => simpa using hfront.symm
  | cons a l ih =>
      replace ih := fun front hfront => @ih front hfront fun b hb => h b (List.mem_cons_of_mem a hb)
      intro heq
      rw [List.flatMap_cons, List.map_cons] at heq
      obtain ⟨rest, hrest, htail⟩ | ⟨rest, hrest, htail⟩ := List.append_eq_append_iff.mp heq
      · -- The word is behind what `a` becomes.
        refine ih (rest ++ [g a]) (by simp) ?_
        rw [List.append_assoc, List.singleton_append]
        exact htail
      · -- The word is among what `a` becomes, but not its first.
        cases rest with
        | nil => exact ih [g a] (by simp) (by simpa using htail.symm)
        | cons b rest =>
            obtain ⟨rfl, -⟩ := List.cons.inj htail
            have hone := h a List.mem_cons_self (by rw [hrest]; simp)
            rw [hone] at hrest
            have := congrArg List.length hrest
            have hpos := List.length_pos_iff.mpr hfront
            simp at this
            omega

theorem flatMap_eq_map_iff {f : α → List β} {g : α → β} {l : List α}
    (h : ∀ a ∈ l, g a ∈ f a → f a = [g a]) : l.flatMap f = l.map g ↔ ∀ a ∈ l, f a = [g a] := by
  induction l with
  | nil => simp
  | cons a l ih =>
      have hrest : ∀ b ∈ l, g b ∈ f b → f b = [g b] := fun b hb => h b (List.mem_cons_of_mem a hb)
      rw [List.flatMap_cons, List.map_cons, List.forall_mem_cons, ← ih hrest]
      constructor
      · intro heq
        cases hfa : f a with
        | nil =>
            rw [hfa, List.nil_append] at heq
            exact absurd heq (flatMap_ne_append (List.cons_ne_nil (g a) []) hrest)
        | cons b rest =>
            rw [hfa, List.cons_append] at heq
            obtain ⟨rfl, htail⟩ := List.cons.inj heq
            have hone := h a List.mem_cons_self (by rw [hfa]; exact List.mem_cons_self)
            rw [hfa] at hone
            obtain ⟨-, rfl⟩ := List.cons.inj hone
            exact ⟨rfl, htail⟩
      · rintro ⟨hone, hrest⟩
        rw [hone, hrest]
        rfl

/-! ### What a word becomes -/

/-- Nothing that has a `$`, a backquote or a tilde to expand. -/
def Expandable (marks : List Mark) : Prop :=
  ∀ m ∈ marks, m.quoted = false → m.char ≠ '$' ∧ m.char ≠ '`' ∧ m.char ≠ '~'

theorem Token.expand_word (dir : Directory) {marks : List Mark} (h : Expandable marks) :
    Token.expand dir (.word marks) = some (dir.names marks) := by
  have hsigns : marks.any (fun m => !m.quoted && "$`".toList.contains m.char) = false := by
    rw [List.any_eq_false]
    intro m hm
    cases hq : m.quoted with
    | true => simp
    | false =>
        obtain ⟨hdollar, hback, -⟩ := h m hm hq
        simp [hdollar, hback]
  have htilde : (marks.head? == some ⟨'~', false⟩) = false := by
    rw [beq_eq_false_iff_ne]
    intro hhead
    exact (h _ (List.mem_of_mem_head? hhead) rfl).2.2 rfl
  simp only [Token.expand, hsigns, htilde, Bool.or_self, Bool.false_eq_true, if_false]

theorem mapM_expand (dir : Directory) {words : List (List Mark)} (h : ∀ w ∈ words, Expandable w) :
    (words.map Token.word).mapM (Token.expand dir) = some (words.map dir.names) := by
  induction words with
  | nil => rfl
  | cons w words ih =>
      rw [List.map_cons, List.mapM_cons, Token.expand_word dir (h w List.mem_cons_self),
        ih fun v hv => h v (List.mem_cons_of_mem w hv)]
      rfl

theorem Directory.names_literal (dir : Directory) (s : Text) : dir.names (literal s) = [s] := by
  have hpattern : isPattern (literal s) = false := by
    simp [isPattern, literal]
  simp [names, hpattern]

theorem Directory.names_bare (dir : Directory) {s : Text} (hs : ∀ c ∈ s, c ≠ '*' ∧ c ≠ '?') :
    dir.names (bare s) = [s] ∨ ∀ name ∈ dir.names (bare s), name.length < s.length := by
  have hshorter := dir.shorter (bare s) (by
    intro m hm _
    obtain ⟨c, hc, rfl⟩ := List.mem_map.mp hm
    exact hs c hc)
  rw [map_char_bare, show (bare s).length = s.length from List.length_map _] at hshorter
  unfold names
  split
  · exact hshorter
  · exact .inl (by rw [map_char_bare])

theorem commandWords_unwords (dir : Directory) {texts : List Text} {marks : List (List Mark)}
    (h : List.Forall₂ Scans texts marks) (hexp : ∀ w ∈ marks, Expandable w) :
    commandWords dir (unwords texts) =
      if (marks.map Token.word).head?.any Token.isReserved then none
      else some ((marks.dropWhile fun w => Token.isAssignment (.word w)).flatMap dir.names) := by
  have hdrop : (marks.map Token.word).dropWhile Token.isAssignment =
      (marks.dropWhile fun w => Token.isAssignment (.word w)).map Token.word := by
    rw [List.dropWhile_map]
    rfl
  have hsub : ∀ w ∈ marks.dropWhile (fun w => Token.isAssignment (.word w)), Expandable w :=
    fun w hw => hexp w ((List.dropWhile_suffix _).subset hw)
  rw [commandWords, tokens_unwords h, Option.bind_some, hdrop, mapM_expand dir hsub]
  rfl

end Text

/-!
## The commands of a line

The simple commands of a line by the shell's grammar, each by its words with the quotes taken
off. Operators, newlines and reserved words end a command or stand before it; assignments and
redirections are none of its words. Expansions are left as they are written, the commands of a
substitution outside of double quotes are read, and the lines of a here-document are read as
commands.
-/

namespace Text

/-- Where the reader is in a command. -/
inductive Place where
  | start
  | words
  /-- Behind `for`, and behind the name there. -/
  | name
  | named
  /-- The words of a loop, or what `case` looks at. -/
  | header
  deriving DecidableEq

/-- The commands and words read so far, the last ones first, and the word being read. -/
structure Reader where
  quoting : Quoting := .plain
  commands : List (List Text) := []
  words : List Text := []
  word : Option (List Mark) := none
  place : Place := .start
  /-- The next word is what a redirection goes to. -/
  target : Bool := false

namespace Reader

def begin (r : Reader) : Reader := { r with word := some (r.word.getD []) }

def put (r : Reader) (c : Char) (quoted : Bool) : Reader :=
  { r with word := some (r.word.getD [] ++ [⟨c, quoted⟩]) }

def quote (r : Reader) (q : Quoting) : Reader := { r with quoting := q }

/-- A word of a command, or of what stands around it. -/
def take (r : Reader) (marks : List Mark) : Reader :=
  let word := marks.map (·.char)
  match r.place with
  | .start =>
      if marks = bare "for".toList then { r with place := .name }
      else if marks = bare "case".toList then { r with place := .header }
      else if (Token.word marks).isReserved || (Token.word marks).isAssignment then r
      else { r with place := .words, words := [word] }
  | .words => { r with words := word :: r.words }
  | .name => { r with place := .named }
  | .named => { r with place := if marks = bare "do".toList then .start else .header }
  | .header => r

def endWord (r : Reader) : Reader :=
  match r.word with
  | none => r
  | some marks =>
      let r := { r with word := none }
      if r.target then { r with target := false } else r.take marks

def endCommand (r : Reader) : Reader :=
  let r := r.endWord
  { r with
    commands := if r.words.isEmpty then r.commands else r.words.reverse :: r.commands
    words := []
    place := .start
    target := false }

/-- A redirection. A number in front of it is a part of it. -/
def redirect (r : Reader) : Reader :=
  if r.word.any fun marks => marks.all fun m => !m.quoted && m.char.isDigit then
    { r with word := none, target := true }
  else { r.endWord with target := true }

/-- One character outside of quotes. -/
def readPlain (r : Reader) (c : Char) : Reader :=
  if c = '\\' then r.quote .escaped
  else if c = '\'' then r.begin.quote .single
  else if c = '"' then r.begin.quote .double
  else if c = ' ' ∨ c = '\t' then r.endWord
  else if c = '<' ∨ c = '>' then r.redirect
  -- `>&` and `>|` are redirections too.
  else if (c = '&' ∨ c = '|') ∧ r.target = true ∧ r.word = none then r
  else if "|;&()\n`".toList.contains c then r.endCommand
  else if c = '#' ∧ r.word = none then r.quote .comment
  else r.put c false

def read (r : Reader) (c : Char) : Reader :=
  match r.quoting with
  | .plain => r.readPlain c
  | .escaped => if c = '\n' then r.quote .plain else (r.put c true).quote .plain
  | .single => if c = '\'' then r.quote .plain else r.put c true
  | .double =>
      if c = '"' then r.quote .plain
      else if c = '\\' then r.quote .doubleEscaped
      else r.put c true
  | .doubleEscaped =>
      if c = '\n' then r.quote .double
      else if "$`\"\\".toList.contains c then (r.put c true).quote .double
      else ((r.put '\\' true).put c true).quote .double
  | .comment => if c = '\n' then r.endCommand.quote .plain else r

end Reader

/-- The simple commands of a line; a line with an open quote has none. -/
def readCommands (t : Text) : List (List Text) :=
  let r := t.foldl Reader.read {}
  if r.quoting = .plain ∨ r.quoting = .comment then r.endCommand.commands.reverse else []

example : readCommands "A=1 ls -l 2>&1 >f; if ! sudo rm 'a b'/\"c\">d # e".toList =
    [["ls".toList, "-l".toList], ["sudo".toList, "rm".toList, "a b/c".toList]] := by decide

example : readCommands "for rm in /etc; do \x7b \\rm x;\x7d done".toList =
    [["rm".toList, "x".toList]] := by decide

end Text
