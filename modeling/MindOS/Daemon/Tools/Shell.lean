import MindOS.Daemon.Web.Basic
import MindOS.Text.Lines
import MindOS.Text.Tokens

/-!
# Through the shell

What the tools hand to `/bin/sh` and what they make of its output. A word goes in
between single quotes, also twice when a command is run as another user; what comes out
is cut to its head and its tail when it is too long.
-/

namespace MindOS.Tools

open Text

/-! ### Into the shell -/

/-- The shell text that runs a command as another user. -/
def asUser (user command : Text) : Text :=
  "runuser -u ".toList ++ shellQuote user ++ " -- /bin/sh -c ".toList ++ shellQuote command

theorem foldl_scan_quoted (s : Text) (ts : List Token) (word : List Mark) :
    (s.replaceChar '\'' "'\\''").foldl Scanner.scan
        { quoting := .single, tokens := ts, word := some word } =
      { quoting := .single, tokens := ts, word := some (word ++ literal s) } := by
  induction s generalizing word with
  | nil =>
      change ({ quoting := .single, tokens := ts, word := some word } : Scanner) = _
      rw [literal, List.map_nil, List.append_nil]
  | cons c s ih =>
      have hliteral : word ++ literal (c :: s) = (word ++ [⟨c, true⟩]) ++ literal s := by
        rw [List.append_assoc]
        rfl
      rw [hliteral, ← ih (word ++ [Mark.mk c true])]
      by_cases hc : c = '\''
      · subst hc
        rfl
      · have hscan : Scanner.scan { quoting := .single, tokens := ts, word := some word } c =
            { quoting := .single, tokens := ts, word := some (word ++ [⟨c, true⟩]) } :=
          if_neg hc
        have hkeep : replaceChar (c :: s) '\'' "'\\''" = c :: replaceChar s '\'' "'\\''" := by
          simp [replaceChar, hc]
        rw [hkeep, List.foldl_cons, hscan]

theorem scans_shellQuote (s : Text) : Scans (shellQuote s) (literal s) := by
  intro ts
  have hopen : Scanner.scan { tokens := ts } '\'' =
      { quoting := .single, tokens := ts, word := some [] } := rfl
  have hbody := foldl_scan_quoted s ts []
  change (s.replaceChar '\'' "'\\''" ++ ['\'']).foldl Scanner.scan
    (Scanner.scan { tokens := ts } '\'') = _
  rw [hopen, List.foldl_append, hbody]
  rfl

theorem readsAs_shellQuote (s : Text) : ReadsAs (shellQuote s) s := (scans_shellQuote s).readsAs

/-- The words of a command that is run as another user. -/
def asUserWords (user command : Text) : List Text :=
  ["runuser".toList, "-u".toList, user, "--".toList, "/bin/sh".toList, "-c".toList, command]

theorem unwords_asUserWords (user command : Text) : unwords (asUserWords user command) =
    "runuser -u ".toList ++ user ++ " -- /bin/sh -c ".toList ++ command := by
  have hfront : "runuser -u ".toList = "runuser".toList ++ ' ' :: ("-u".toList ++ [' ']) := by
    decide
  have hmiddle : " -- /bin/sh -c ".toList =
      ' ' :: ("--".toList ++ ' ' :: ("/bin/sh".toList ++ ' ' :: ("-c".toList ++ [' ']))) := by
    decide
  rw [hfront, hmiddle, asUserWords]
  simp only [unwords_cons (List.cons_ne_nil _ _), unwords_singleton, List.append_assoc,
    List.cons_append, List.nil_append]

theorem plainWords_asUser (user command : Text) :
    plainWords (asUser user command) = some (asUserWords user command) := by
  have hbare : ∀ s : Text, (s != [] && s.all ordinary) = true → ReadsAs s s := by
    intro s hs
    rw [Bool.and_eq_true, bne_iff_ne, List.all_eq_true] at hs
    exact readsAs_bare hs.1 hs.2
  have htext : asUser user command =
      unwords (asUserWords (shellQuote user) (shellQuote command)) :=
    (unwords_asUserWords (shellQuote user) (shellQuote command)).symm
  rw [htext]
  apply plainWords_unwords
  refine .cons (hbare _ (by decide)) (.cons (hbare _ (by decide)) ?_)
  refine .cons (readsAs_shellQuote user) (.cons (hbare _ (by decide)) ?_)
  refine .cons (hbare _ (by decide)) (.cons (hbare _ (by decide)) ?_)
  exact .cons (readsAs_shellQuote command) .nil

theorem plainWords_quoted (ws : List Text) :
    plainWords (unwords (ws.map shellQuote)) = some ws := by
  apply plainWords_unwords
  induction ws with
  | nil => exact .nil
  | cons w ws ih => exact .cons (readsAs_shellQuote w) ih

theorem tokens_quoted (ws : List Text) :
    tokens (unwords (ws.map shellQuote)) = some (ws.map fun w => .word (literal w)) := by
  have hscans : List.Forall₂ Scans (ws.map shellQuote) (ws.map literal) := by
    induction ws with
    | nil => exact .nil
    | cons w ws ih => exact .cons (scans_shellQuote w) ih
  rw [tokens_unwords hscans, List.map_map]
  rfl

/-- The shell reads a quoted text as the one word it is, with nothing in it to expand; and
quoted words that are quoted once more as a whole are read back by reading twice. So the
command that is run as another user, and the arguments of a download, arrive as they are. -/
theorem shellQuote_reads_back :
    (∀ s, tokens (shellQuote s) = some [.word (literal s)]) ∧
      (∀ ws : List Text, ∃ inner,
        tokens (shellQuote (unwords (ws.map shellQuote))) = some [.word (literal inner)] ∧
          tokens inner = some (ws.map fun w => .word (literal w))) ∧
      (∀ user command, plainWords (asUser user command) = some (asUserWords user command)) ∧
      ∀ argv user, ∃ inner, plainWords (Web.downloadCommand argv (some user)) =
          some (asUserWords user inner) ∧ plainWords inner = some argv := by
  have hone : ∀ s, tokens (shellQuote s) = some [.word (literal s)] := fun s => tokens_quoted [s]
  refine ⟨hone, fun ws => ⟨_, hone _, tokens_quoted ws⟩, plainWords_asUser, fun argv user => ?_⟩
  exact ⟨_, plainWords_asUser user _, plainWords_quoted argv⟩

/-! ### Out of the shell -/

def maxOutput : Nat := 12000

def marker : Text := "\n[... output truncated ...]\n"

/-- `truncate` with its limit as an argument. -/
def truncateTo (limit : Nat) (s : Text) : Text :=
  -- The limit is in bytes, but the head and the tail are counted in characters.
  if limit < len s then s.take (limit / 3) ++ marker ++ s.rtake (limit * 2 / 3) else s

def truncate (s : Text) : Text := truncateTo maxOutput s

/-- The result of a cut: a text that fits is kept; of a longer one a part in the middle
makes room for the marker. -/
def Cuts (limit : Nat) (s result : Text) : Prop :=
  (len s ≤ limit → result = s) ∧
    (limit < len s →
      ∃ head omitted tail, s = head ++ omitted ++ tail ∧ result = head ++ marker ++ tail)

theorem Cuts.length_le {limit : Nat} {s result : Text} (h : Cuts limit s result) :
    result.length ≤ s.length + marker.length := by
  by_cases hfits : len s ≤ limit
  · rw [h.1 hfits]
    exact Nat.le_add_right _ _
  · obtain ⟨head, omitted, tail, hs, hresult⟩ := h.2 (by omega)
    simp only [hs, hresult, List.length_append]
    omega

theorem truncateTo_of_fits {limit : Nat} {s : Text} (h : len s ≤ limit) : truncateTo limit s = s :=
  if_neg (by omega)

theorem truncateTo_of_long {limit : Nat} {s : Text} (h : limit < len s) :
    truncateTo limit s = s.take (limit / 3) ++ marker ++ s.rtake (limit * 2 / 3) :=
  if_pos h

theorem take_append_rtake {s : Text} {a b : Nat} (h : a + b ≤ s.length) :
    s = s.take a ++ (s.drop a).take (s.length - b - a) ++ s.rtake b := by
  have htail : s.rtake b = (s.drop a).drop (s.length - b - a) := by
    rw [List.rtake, List.drop_drop]
    congr 1
    omega
  rw [htail, List.append_assoc, List.take_append_drop, List.take_append_drop]

theorem length_truncateTo {limit : Nat} {s : Text} (hlong : limit < len s)
    (hshort : s.length < limit / 3 + limit * 2 / 3) :
    s.length + marker.length < (truncateTo limit s).length := by
  have hne : s ≠ [] := by
    rintro rfl
    exact Nat.not_lt_zero limit hlong
  have hpos := List.length_pos_of_ne_nil hne
  simp only [truncateTo_of_long hlong, List.length_append, List.length_take, Lines.length_rtake]
  omega

theorem len_replicate (n : Nat) (c : Char) : len (List.replicate n c) = n * c.utf8Size := by
  simp [len]

/-- A text is cut as it should be exactly when it fits, or has as many characters as the
head and the tail together. -/
theorem truncateTo_cuts_iff (limit : Nat) (s : Text) :
    Cuts limit s (truncateTo limit s) ↔
      len s ≤ limit ∨ limit / 3 + limit * 2 / 3 ≤ s.length := by
  constructor
  · intro h
    by_contra hbad
    rw [not_or, Nat.not_le, Nat.not_le] at hbad
    have hlength := length_truncateTo hbad.1 hbad.2
    have hle := h.length_le
    omega
  · rintro (hfits | hroom)
    · exact ⟨fun _ => truncateTo_of_fits hfits, fun h => absurd hfits (by omega)⟩
    · refine ⟨truncateTo_of_fits, fun hlong => ?_⟩
      exact ⟨_, _, _, take_append_rtake hroom, truncateTo_of_long hlong⟩

/-- Some four thousand euro signs come out twice. -/
theorem not_truncate_cuts :
    ¬ Cuts maxOutput (List.replicate 4001 '€') (truncate (List.replicate 4001 '€')) := by
  intro h
  have hlong : maxOutput < len (List.replicate 4001 '€') := by
    have hsize : '€'.utf8Size = 3 := by decide
    rw [len_replicate, hsize]
    decide
  have hshort : (List.replicate 4001 '€').length < maxOutput / 3 + maxOutput * 2 / 3 := by
    rw [List.length_replicate]
    decide
  exact absurd h.length_le (Nat.not_le.mpr (length_truncateTo hlong hshort))

end MindOS.Tools
