import MindOS.Text.Basic

/-!
# JSON string literals in ASCII

A text is the list of its code points, surrogates among them. It is written as Python's `json.dumps`
does, with everything outside of ASCII escaped in units of 16 bits, and read by joining the units
that are pairs.
-/

namespace Json.Strings

/-- A number in so many hexadecimal digits at least. -/
def hex (width n : Nat) : Text := (Nat.toDigits 16 n).leftpad width '0'

def isHigh (u : Nat) : Bool := decide (0xD800 ≤ u ∧ u < 0xDC00)

def isLow (u : Nat) : Bool := decide (0xDC00 ≤ u ∧ u < 0xE000)

/-- What a code point is written as. -/
def escape (c : Nat) : Text :=
  if c = 34 then ['\\', '"']
  else if c = 92 then ['\\', '\\']
  else if 32 ≤ c ∧ c < 127 then [Char.ofNat c]
  else if c = 8 then ['\\', 'b']
  else if c = 12 then ['\\', 'f']
  else if c = 10 then ['\\', 'n']
  else if c = 13 then ['\\', 'r']
  else if c = 9 then ['\\', 't']
  else if c < 0x10000 then ['\\', 'u'] ++ hex 4 c
  else ['\\', 'u'] ++ hex 4 (0xD800 + (c - 0x10000) / 0x400) ++ ['\\', 'u'] ++
    hex 4 (0xDC00 + (c - 0x10000) % 0x400)

/-- `json.dumps(s)` -/
def dumps (s : List Nat) : Text := ['"'] ++ s.flatMap escape ++ ['"']

/-! ## Reading -/

def hexValue (c : Char) : Option Nat := (List.range 16).find? fun d => d.digitChar == c.toLower

def unescaped : Char → Option Nat
  | '"' => some 34
  | '\\' => some 92
  | '/' => some 47
  | 'b' => some 8
  | 'f' => some 12
  | 'n' => some 10
  | 'r' => some 13
  | 't' => some 9
  | _ => none

/-- The units of what stands between the quotes, up to the last one. -/
def units : Text → Option (List Nat)
  | [] => none
  | ['"'] => some []
  | '\\' :: 'u' :: w :: x :: y :: z :: rest => do
      let u := (((← hexValue w) * 16 + (← hexValue x)) * 16 + (← hexValue y)) * 16 + (← hexValue z)
      return u :: (← units rest)
  | '\\' :: e :: rest => do return (← unescaped e) :: (← units rest)
  | c :: rest => if c = '"' ∨ c = '\\' ∨ c.toNat < 32 then none else do
      return c.toNat :: (← units rest)

/-- Pairs of units are joined. -/
def join : List Nat → List Nat
  | u :: v :: rest =>
      if isHigh u && isLow v then (0x10000 + (u - 0xD800) * 0x400 + (v - 0xDC00)) :: join rest
      else u :: join (v :: rest)
  | [u] => [u]
  | [] => []

/-- `json.loads(t)`, of a string -/
def loads : Text → Option (List Nat)
  | '"' :: rest => (units rest).map join
  | _ => none

/-! ## Reading what was written -/

theorem hex_four {n : Nat} (h : n < 0x10000) : hex 4 n =
    [(n / 4096).digitChar, (n / 256 % 16).digitChar, (n / 16 % 16).digitChar,
      (n % 16).digitChar] := by
  have hdiv : n / 16 / 16 = n / 256 := Nat.div_div_eq_div_mul n 16 16
  have hdiv' : n / 256 / 16 = n / 4096 := Nat.div_div_eq_div_mul n 256 16
  rcases Nat.lt_or_ge n 16 with hone | hone
  · rw [hex, Nat.toDigits_of_lt_base hone, (by omega : n / 4096 = 0),
      (by omega : n / 256 % 16 = 0), (by omega : n / 16 % 16 = 0), (by omega : n % 16 = n)]
    rfl
  rcases Nat.lt_or_ge n 256 with htwo | htwo
  · rw [hex, Nat.toDigits_of_base_le (by decide) hone, Nat.toDigits_of_lt_base (by omega),
      (by omega : n / 4096 = 0), (by omega : n / 256 % 16 = 0),
      (by omega : n / 16 % 16 = n / 16)]
    rfl
  rcases Nat.lt_or_ge n 4096 with hthree | hthree
  · rw [hex, Nat.toDigits_of_base_le (by decide) hone,
      Nat.toDigits_of_base_le (by decide) (by omega), Nat.toDigits_of_lt_base (by omega), hdiv,
      (by omega : n / 4096 = 0), (by omega : n / 256 % 16 = n / 256)]
    rfl
  · rw [hex, Nat.toDigits_of_base_le (by decide) hone,
      Nat.toDigits_of_base_le (by decide) (by omega),
      Nat.toDigits_of_base_le (by decide) (by omega), Nat.toDigits_of_lt_base (by omega), hdiv,
      hdiv']
    rfl

theorem hexValue_digitChar {d : Nat} (h : d < 16) : hexValue d.digitChar = some d := by
  have hall : ∀ d < 16, hexValue d.digitChar = some d := by decide
  exact hall d h

variable {c : Nat} {rest : Text} {s : List Nat}

theorem units_hex (h : c < 0x10000) (rest : Text) :
    units (['\\', 'u'] ++ hex 4 c ++ rest) = (units rest).map (c :: ·) := by
  rw [hex_four h]
  simp only [List.cons_append, List.nil_append, units]
  rw [hexValue_digitChar (by omega), hexValue_digitChar (by omega),
    hexValue_digitChar (by omega), hexValue_digitChar (by omega)]
  have hvalue : ((c / 4096 * 16 + c / 256 % 16) * 16 + c / 16 % 16) * 16 + c % 16 = c := by omega
  simp only [Option.pure_def, Option.bind_eq_bind, Option.bind_some, hvalue]
  cases units rest <;> rfl

theorem units_char {x : Char} (hquote : x ≠ '"') (hslash : x ≠ '\\') (hcontrol : ¬x.toNat < 32)
    (rest : Text) : units (x :: rest) = (units rest).map (x.toNat :: ·) := by
  rw [units, if_neg (by simp [hquote, hslash, hcontrol])]
  · cases units rest <;> rfl
  · exact fun hx _ => hquote hx
  · exact fun _ _ _ _ _ hx _ => hslash hx
  · exact fun _ _ hx _ => hslash hx

theorem units_short {e : Char} (he : unescaped e = some c) (rest : Text) :
    units (['\\', e] ++ rest) = (units rest).map (c :: ·) := by
  have hu : e ≠ 'u' := by
    rintro rfl
    cases he
  rw [List.cons_append, List.singleton_append, units, he]
  · cases units rest <;> rfl
  · exact fun _ _ _ _ _ hx _ => hu hx

/-- The units of a code point. -/
def unitsOf (c : Nat) : List Nat :=
  if c < 0x10000 then [c] else [0xD800 + (c - 0x10000) / 0x400, 0xDC00 + (c - 0x10000) % 0x400]

theorem units_escape (h : c < 0x110000) (rest : Text) :
    units (escape c ++ rest) = (units rest).map (unitsOf c ++ ·) := by
  rw [escape, unitsOf]
  by_cases hquote : c = 34
  · subst hquote
    exact units_short rfl rest
  by_cases hslash : c = 92
  · subst hslash
    exact units_short rfl rest
  rw [if_neg hquote, if_neg hslash]
  split
  case isTrue hplain =>
    have hnat : (Char.ofNat c).toNat = c := by
      rw [Char.ofNat, dif_pos (.inl (by omega))]
      rfl
    have hne : ∀ x : Char, c ≠ x.toNat → Char.ofNat c ≠ x := by
      rintro x hx rfl
      exact hx hnat.symm
    rw [if_pos (by omega), List.singleton_append,
      units_char (hne '"' hquote) (hne '\\' hslash) (by omega), hnat]
    rfl
  split
  case isTrue hc => subst hc; exact units_short rfl rest
  split
  case isTrue hc => subst hc; exact units_short rfl rest
  split
  case isTrue hc => subst hc; exact units_short rfl rest
  split
  case isTrue hc => subst hc; exact units_short rfl rest
  split
  case isTrue hc => subst hc; exact units_short rfl rest
  split
  case isTrue hc => exact units_hex hc rest
  case isFalse hc =>
    rw [List.append_assoc (['\\', 'u'] ++ _) ['\\', 'u'], List.append_assoc (['\\', 'u'] ++ _),
      units_hex (by omega), units_hex (by omega), Option.map_map]
    rfl

theorem units_dumps (h : ∀ c ∈ s, c < 0x110000) :
    units (s.flatMap escape ++ ['"']) = some (s.flatMap unitsOf) := by
  induction s with
  | nil => rfl
  | cons c s ih =>
      obtain ⟨hc, hs⟩ := List.forall_mem_cons.mp h
      rw [List.flatMap_cons, List.append_assoc, units_escape hc, ih hs]
      rfl

theorem join_unitsOf (h : ∀ c ∈ s, c < 0x110000 ∧ isHigh c = false) :
    join (s.flatMap unitsOf) = s := by
  induction s with
  | nil => rfl
  | cons c s ih =>
      obtain ⟨⟨hlt, hhigh⟩, hs⟩ := List.forall_mem_cons.mp h
      rw [List.flatMap_cons, unitsOf]
      split
      case isTrue hc =>
        have hjoin : ∀ units, join (c :: units) = c :: join units := by
          intro units
          cases units with
          | nil => rfl
          | cons v units => rw [join, hhigh, Bool.false_and, if_neg Bool.false_ne_true]
        rw [List.singleton_append, hjoin, ih hs]
      case isFalse hc =>
        have hpair : (isHigh (0xD800 + (c - 0x10000) / 0x400) &&
            isLow (0xDC00 + (c - 0x10000) % 0x400)) = true := by
          rw [isHigh, isLow, Bool.and_eq_true, decide_eq_true_eq, decide_eq_true_eq]
          omega
        have hjoined : 0x10000 + (0xD800 + (c - 0x10000) / 0x400 - 0xD800) * 0x400 +
            (0xDC00 + (c - 0x10000) % 0x400 - 0xDC00) = c := by omega
        rw [List.cons_append, List.singleton_append, join, if_pos hpair, ih hs, hjoined]

theorem loads_dumps (h : ∀ c ∈ s, c < 0x110000 ∧ isHigh c = false) :
    loads (dumps s) = some s := by
  rw [dumps, List.append_assoc, List.singleton_append, loads, units_dumps fun c hc => (h c hc).1,
    Option.map_some, join_unitsOf h]

end Json.Strings
