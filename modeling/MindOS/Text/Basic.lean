import Mathlib.Algebra.GroupWithZero.Nat
import Mathlib.Algebra.Ring.Int.Defs
import Mathlib.Data.List.DropRight
import Mathlib.Data.List.Infix

/-!
# Strings as lists of characters

A string is the list of its Unicode scalar values, so every operation below is
an ordinary list function and literals evaluate in the kernel. The operations
follow the documented behaviour of Rust's `str` methods; `len` is the one place
where the UTF-8 encoding shows.

`toLowercase` keeps every letter outside ASCII as it is, except the two whose
lower case contains an ASCII letter. Nothing below compares a lower-cased text
with anything but ASCII text, and no other letter's case reaches ASCII.
-/

/-- A string, by its characters. -/
abbrev Text := List Char

instance : Coe String Text := ⟨String.toList⟩

instance Text.lawfulBEq : LawfulBEq (List Char) := List.instLawfulBEq

namespace Text

/-- Decided along the text, not over all characters. -/
instance decidableForallMem (t : Text) (P : Char → Prop) [DecidablePred P] :
    Decidable (∀ c ∈ t, P c) :=
  List.decidableBAll P t

/-- `char::is_whitespace`: the Unicode property White_Space. -/
def isWhitespace (c : Char) : Bool :=
  let n := c.toNat
  (9 ≤ n && n ≤ 13) || n == 32 || n == 0x85 || n == 0xA0 || n == 0x1680 ||
    (0x2000 ≤ n && n ≤ 0x200A) || n == 0x2028 || n == 0x2029 || n == 0x202F ||
    n == 0x205F || n == 0x3000

/-- `str::len`, in bytes of UTF-8. -/
def len (t : Text) : Nat := (t.map Char.utf8Size).sum

/-- `char::to_lowercase`; U+212A is the Kelvin sign, U+0130 the dotted capital I. -/
def lowerChar (c : Char) : Text :=
  if c = '\u212A' then ['k'] else if c = '\u0130' then ['i', '\u0307'] else [c.toLower]

/-- `str::to_lowercase`. -/
def toLowercase (t : Text) : Text := t.flatMap lowerChar

/-- `str::contains` with a string pattern. -/
def contains (t pat : Text) : Bool := decide (pat <:+: t)

/-- `str::starts_with` with a string pattern. -/
def startsWith (t pat : Text) : Bool := decide (pat <+: t)

/-- `str::ends_with` with a string pattern. -/
def endsWith (t pat : Text) : Bool := decide (pat <:+ t)

/-- `str::trim`. -/
def trim (t : Text) : Text := (t.dropWhile isWhitespace).rdropWhile isWhitespace

/-- `str::trim_start_matches` with a string pattern: every leading copy goes.
The length of the text bounds the number of copies of a nonempty pattern. -/
def trimStartMatches (t pat : Text) : Text := go t.length t
where
  go : Nat → Text → Text
    | 0, t => t
    | n + 1, t => if t.startsWith pat then go n (t.drop pat.length) else t

/-- `str::trim_matches` with a character class. -/
def trimMatches (t : Text) (p : Char → Bool) : Text := (t.dropWhile p).rdropWhile p

/-- What follows the last occurrence of `c`: `rsplit(c).next()`. -/
def afterLast (t : Text) (c : Char) : Text := t.rtakeWhile (· != c)

/-- `str::replace` of one character by a string. -/
def replaceChar (t : Text) (c : Char) (by' : Text) : Text :=
  t.flatMap fun d => if d = c then by' else [d]

/-- `str::split_whitespace`. -/
def words (t : Text) : List Text := (t.splitOnP isWhitespace).filter fun w => !w.isEmpty

/-- `[String]::join`. -/
def join (sep : Text) : List Text → Text
  | [] => []
  | [w] => w
  | w :: v :: ws => w ++ sep ++ join sep (v :: ws)

/-- Join with single blanks. -/
def unwords (ws : List Text) : Text := join [' '] ws

/-- Every run of whitespace becomes one blank; none is left at the ends. -/
def squeeze (t : Text) : Text := unwords (words t)

/-- `str::eq_ignore_ascii_case`. -/
def eqIgnoreAsciiCase (t u : Text) : Bool := t.map Char.toLower == u.map Char.toLower

theorem forall_of_ascii {p : Char → Bool} {P : Char → Prop} {extra : Text}
    (hp : ∀ c, p c = true → c.isAlphanum = true ∨ c ∈ extra) (hextra : ∀ c ∈ extra, c.toNat < 128)
    (hascii : ∀ n < 128, p (Char.ofNat n) = true → P (Char.ofNat n)) {c : Char} (h : p c = true) :
    P c := by
  have hlt : c.toNat < 128 := by
    obtain halpha | hmem := hp c h
    · have hupper : c.isUpper = true → c.toNat ≤ 'Z'.toNat := fun h => (of_decide_eq_true h).2
      have hlower : c.isLower = true → c.toNat ≤ 'z'.toNat :=
        fun h => of_decide_eq_true (Bool.and_eq_true_iff.mp h).2
      have hdigit : c.isDigit = true → c.toNat ≤ '9'.toNat :=
        fun h => of_decide_eq_true (Bool.and_eq_true_iff.mp h).2
      obtain hletter | h := Bool.or_eq_true_iff.mp halpha
      · obtain h | h := Bool.or_eq_true_iff.mp hletter
        · exact Nat.lt_of_le_of_lt (hupper h) (by decide)
        · exact Nat.lt_of_le_of_lt (hlower h) (by decide)
      · exact Nat.lt_of_le_of_lt (hdigit h) (by decide)
    · exact hextra c hmem
  simpa using hascii c.toNat hlt (by simpa using h)

@[simp] theorem toLowercase_nil : toLowercase [] = [] := rfl

@[simp] theorem toLowercase_append (t u : Text) :
    toLowercase (t ++ u) = toLowercase t ++ toLowercase u := List.flatMap_append

theorem toLower_cases (c : Char) :
    c.toLower = c ∨ 97 ≤ c.toLower.toNat ∧ c.toLower.toNat ≤ 122 := by
  unfold Char.toLower
  split
  case isFalse => exact .inl rfl
  case isTrue h =>
    obtain ⟨hlow, hhigh⟩ := h
    have hl : 65 ≤ c.val.toNat := hlow
    have hh : c.val.toNat ≤ 90 := hhigh
    right
    change 97 ≤ (c.val + 32).toNat ∧ (c.val + 32).toNat ≤ 122
    rw [UInt32.toNat_add]
    change 97 ≤ (c.val.toNat + 32) % 2 ^ 32 ∧ (c.val.toNat + 32) % 2 ^ 32 ≤ 122
    omega

theorem lowerChar_cases {c d : Char} (hd : d ∈ lowerChar c) :
    d = c ∨ (97 ≤ d.toNat ∧ d.toNat ≤ 122) ∨ d = '\u0307' := by
  unfold lowerChar at hd
  split at hd
  · obtain rfl := List.mem_singleton.mp hd
    exact .inr (.inl (by decide))
  · split at hd
    · simp only [List.mem_cons, List.not_mem_nil, or_false] at hd
      obtain rfl | rfl := hd
      · exact .inr (.inl (by decide))
      · exact .inr (.inr rfl)
    · obtain rfl := List.mem_singleton.mp hd
      exact (toLower_cases c).imp_right .inl

theorem contains_iff {t pat : Text} : t.contains pat = true ↔ pat <:+: t := by
  simp [contains]

theorem startsWith_iff {t pat : Text} : t.startsWith pat = true ↔ pat <+: t := by
  simp [startsWith]

@[simp] theorem len_nil : len [] = 0 := rfl

@[simp] theorem len_cons (c : Char) (t : Text) : len (c :: t) = c.utf8Size + len t := by
  simp [len]

@[simp] theorem len_append (t u : Text) : len (t ++ u) = len t + len u := by
  simp [len]

@[simp] theorem join_nil (sep : Text) : join sep [] = [] := rfl

@[simp] theorem join_singleton (sep w : Text) : join sep [w] = w := rfl

theorem join_cons {sep w : Text} {ws : List Text} (h : ws ≠ []) :
    join sep (w :: ws) = w ++ sep ++ join sep ws := by
  obtain ⟨v, vs, rfl⟩ := List.exists_cons_of_ne_nil h
  rfl

theorem join_append {sep : Text} {vs ws : List Text} (hv : vs ≠ []) (hw : ws ≠ []) :
    join sep (vs ++ ws) = join sep vs ++ sep ++ join sep ws := by
  induction vs with
  | nil => exact absurd rfl hv
  | cons v vs ih =>
      by_cases h : vs = []
      · subst h
        rw [List.singleton_append, join_cons hw, join_singleton]
      · rw [List.cons_append, join_cons (List.append_ne_nil_of_left_ne_nil h ws), ih h,
          join_cons h]
        simp only [List.append_assoc]

theorem mem_join {sep : Text} {ws : List Text} {c : Char} (h : c ∈ join sep ws) :
    c ∈ sep ∨ ∃ w ∈ ws, c ∈ w := by
  induction ws with
  | nil => simp at h
  | cons w ws ih =>
      by_cases hw : ws = []
      · subst hw
        exact .inr ⟨w, by simp, by simpa using h⟩
      · rw [join_cons hw, List.mem_append, List.mem_append] at h
        rcases h with (h | h) | h
        · exact .inr ⟨w, by simp, h⟩
        · exact .inl h
        · obtain h | ⟨v, hv, hc⟩ := ih h
          · exact .inl h
          · exact .inr ⟨v, List.mem_cons_of_mem w hv, hc⟩

end Text
