import MindOS.Text.Utf8
import MindOS.Wm.Prefs.Basic

/-!
# Markdown for the Mind bar

An answer of the model is turned into styled spans, a line at a time. Lines are searched and cut
at byte offsets, so every cut can panic, which is `none`. What Unicode takes for a letter or a
digit is a parameter.
-/

namespace MindOS.Wm.Markdown

open Text

/-- How a run of text is drawn. -/
inductive Style where
  | normal
  /-- `**bold**`, `__bold__` and headings. -/
  | strong
  /-- `*italic*` and `_italic_`. -/
  | emphasis
  /-- Code and fenced blocks. -/
  | code
  deriving DecidableEq

structure Span where
  text : Text
  style : Style
  deriving DecidableEq

/-- The markers a bullet can start with. -/
def bullets : List Text := ["- ", "* ", "+ "]

/-- `str::strip_prefix` -/
def stripPrefix (t pat : Text) : Option Text :=
  if startsWith t pat then some (t.drop pat.length) else none

theorem stripPrefix_append (pat t : Text) : stripPrefix (pat ++ t) pat = some t := by
  rw [stripPrefix, if_pos (startsWith_iff.mpr ⟨t, rfl⟩), List.drop_left]

theorem stripPrefix_eq_none {t pat : Text} : stripPrefix t pat = none ↔ ¬pat <+: t := by
  constructor
  · rintro h ⟨rest, rfl⟩
    rw [stripPrefix_append] at h
    cases h
  · exact fun h => if_neg fun hstarts => h (startsWith_iff.mp hstarts)

theorem stripPrefix_eq_some {t pat rest : Text} :
    stripPrefix t pat = some rest ↔ t = pat ++ rest := by
  constructor
  · intro h
    by_cases hprefix : pat <+: t
    · obtain ⟨behind, rfl⟩ := hprefix
      rw [stripPrefix_append] at h
      rw [Option.some.inj h]
    · rw [stripPrefix_eq_none.mpr hprefix] at h
      cases h
  · rintro rfl
    exact stripPrefix_append pat rest

/-- `str::trim_end` -/
def trimEnd (t : Text) : Text := t.rdropWhile isWhitespace

/-- `str::trim_start` -/
def trimStart (t : Text) : Text := t.dropWhile isWhitespace

/-- Append `text`, merging it into the last span when the style matches. -/
def push (out : List Span) (text : Text) (style : Style) : List Span :=
  if text = [] then out
  else match out.getLast? with
    | some last =>
        if last.style = style then out.dropLast ++ [⟨last.text ++ text, style⟩]
        else out ++ [⟨text, style⟩]
    | none => out ++ [⟨text, style⟩]

/-- Emphasis inside a heading must not make it lighter. -/
def heavier (base style : Style) : Style := if base = .strong then .strong else style

/-- The title of a heading. -/
def heading (line : Text) : Option (Option Text) :=
  let hashes := (line.takeWhile (· == '#')).length
  if 1 ≤ hashes ∧ hashes ≤ 6 then do
    let rest ← dropBytes hashes line
    return (stripPrefix rest " ").map trim
  else some none

variable (alnum : Char → Bool)

/-- The marked text may not begin or end with a space, and an `_` may not sit inside a word. -/
def flanks (line : Text) (start after : Nat) (mark inner : Text) : Option Bool :=
  if inner.head?.any isWhitespace ∨ inner.getLast?.any isWhitespace then some false
  else if startsWith mark "_" then do
    let before ← takeBytes start line
    let behind ← dropBytes after line
    return !before.getLast?.any alnum && !behind.head?.any alnum
  else some true

/-- The text between the marker at `start` and its closing partner, and the index just after it;
nothing when the marker is never closed on this line. -/
def closed (line : Text) (start : Nat) (mark : Text) (flanking : Bool) :
    Option (Option (Text × Nat)) := do
  let start' := start + len mark
  match find mark (← dropBytes start' line) with
  | none => return none
  | some n => do
      let inner ← slice line start' n
      let after := start' + n + len mark
      if inner = [] then return none
      else if flanking = true then do
        let ok ← flanks alnum line start after mark inner
        return if ok = true then some (inner, after) else none
      else return some (inner, after)

/-- `[label](url)` at `start`: the label, the URL and the index after it. -/
def link (line : Text) (start : Nat) : Option (Option (Text × Text × Nat)) := do
  match find "](" (← dropBytes (start + 1) line) with
  | none => return none
  | some n => do
      let close := start + 1 + n
      match find ")" (← dropBytes (close + 2) line) with
      | none => return none
      | some m => do
          let target ← slice line (close + 2) m
          let label ← slice line (start + 1) n
          return some (label, (words target).headD [], close + 2 + m + 1)

/-- The marker at a byte of a line. -/
def markerAt (b : List UInt8) (i : Nat) (c : UInt8) : Option (Text × Style) :=
  if c = ascii '`' then some ("`", .code)
  else if c = ascii '*' ∨ c = ascii '_' then
    if b[i + 1]? = some c then some (if c = ascii '*' then "**" else "__", .strong)
    else some (if c = ascii '*' then "*" else "_", .emphasis)
  else none

/-- What stands at a place of a line. -/
inductive Token where
  | char (c : Char)
  | marked (inner : Text) (style : Style)
  | link (label url : Text)

/-- Marked text at a byte of a line, and the index after it. -/
def markedAt (line : Text) (i : Nat) (c : UInt8) : Option (Option (Token × Nat)) :=
  match markerAt (bytes line) i c with
  | none => some none
  | some (mark, style) => do
      let found ← closed alnum line i mark (style ≠ .code)
      return found.map fun (inner, next) => (Token.marked inner style, next)

/-- A link at a byte of a line, and the index after it. -/
def linkAt (line : Text) (i : Nat) (c : UInt8) : Option (Option (Token × Nat)) :=
  if c = ascii '[' then do
    let found ← link line i
    return found.map fun (label, url, next) => (Token.link label url, next)
  else some none

/-- What stands at a byte of a line, and the index after it: one round of the loop of `inline`. -/
def look (line : Text) (i : Nat) (c : UInt8) : Option (Token × Nat) :=
  if c = ascii '\\' ∧ i + 1 < (bytes line).length then do
    -- A backslash escapes the next character, marker or not.
    let ch ← (← dropBytes (i + 1) line).head?
    return (.char ch, i + 1 + ch.utf8Size)
  else do
    match ← markedAt alnum line i c with
    | some found => return found
    | none =>
        match ← linkAt line i c with
        | some found => return found
        | none => do
            let ch ← (← dropBytes i line).head?
            return (.char ch, i + ch.utf8Size)

/-- The inline markers inside one line, from a byte on; `plain` is what has been read and not been
pushed. There is nothing either when the fuel is used up. -/
def inlineFrom : Nat → Text → Style → Nat → Text → List Span → Option (List Span)
  | 0, _, _, _, _, _ => none
  | fuel + 1, line, base, i, plain, out =>
      match (bytes line)[i]? with
      | none => some (push out plain base)
      | some c => do
          let (token, next) ← look alnum line i c
          match token with
          | .char ch => inlineFrom fuel line base next (plain ++ [ch]) out
          | .marked inner style =>
              let out := push out plain base
              -- Code is code even inside a heading; the rest follows `base`.
              let weight := if style = .code then style else heavier base style
              inlineFrom fuel line base next [] (push out inner weight)
          | .link label url => do
              let out ← inlineFrom fuel label base 0 [] (push out plain base)
              let out := if url ≠ [] ∧ url ≠ label then push out (" (" ++ url ++ ")") base else out
              inlineFrom fuel line base next [] out

/-- The inline markers inside one line. `base` is what unmarked text gets. -/
def inline (line : Text) (base : Style) (out : List Span) : Option (List Span) :=
  inlineFrom alnum (len line + 1) line base 0 [] out

/-- One line: the spans with it, and whether a fence is open after it. -/
def spanLine (fenced : Bool) (raw : Text) (out : List Span) : Option (List Span × Bool) := do
  let line := trimEnd raw
  let trimmed := trimStart line
  if startsWith trimmed "```" ∨ startsWith trimmed "~~~" then return (out, !fenced)
  else if fenced then return (push out line .code, fenced)
  else match ← heading trimmed with
    | some rest => return (← inline alnum rest .strong out, fenced)
    | none => do
        -- A rule is a line of its own; the bar has no room for one.
        if 3 ≤ len trimmed ∧ trimmed.all (fun c => c == '-' || c == '*' || c == '_') then
          return (out, fenced)
        else do
          let indent ← takeBytes (len line - len trimmed) line
          let body := ((stripPrefix trimmed "> ").or (stripPrefix trimmed ">")).getD trimmed
          match bullets.findSome? (stripPrefix body) with
          | some rest =>
              let out := push out (indent ++ "• ") .normal
              return (← inline alnum rest .normal out, fenced)
          | none => return (← inline alnum body .normal (push out indent .normal), fenced)

/-- The lines of a text, with a newline before every line but the first. -/
def spanLines : Bool → List Text → List Span → Option (List Span)
  | _, [], out => some out
  | fenced, raw :: rest, out => do
      let (out, fenced) ← spanLine alnum fenced raw (push out "\n" .normal)
      spanLines fenced rest out

/-- Split Markdown into styled spans. -/
def spans (text : Text) : Option (List Span) :=
  match text.splitOn '\n' with
  | [] => some []
  | raw :: rest => do
      let (out, fenced) ← spanLine alnum false raw []
      spanLines alnum fenced rest out

example : spans Char.isAlphanum "Steam is **gold** on `protondb`." = some
    [⟨"Steam is ", .normal⟩, ⟨"gold", .strong⟩, ⟨" on ", .normal⟩, ⟨"protondb", .code⟩,
      ⟨".", .normal⟩] := by
  decide

end MindOS.Wm.Markdown
