import MindOS.Text.Basic

/-!
# Texts and bytes

## Bytes of a text

A text is searched by its bytes, and places in it are byte offsets. Where an offset lies between
two characters, the byte there tells a character of ASCII from every other.
-/

namespace Text

/-- `str::as_bytes`. -/
def bytes (t : Text) : List UInt8 := t.flatMap String.utf8EncodeChar

/-- A byte literal of ASCII. -/
def ascii (c : Char) : UInt8 := UInt8.ofNat c.toNat

/-- `str::find` with a string pattern: the offset of its first occurrence. -/
def find (pat : Text) : Text → Option Nat
  | [] => if pat.isEmpty then some 0 else none
  | c :: t => if startsWith (c :: t) pat then some 0 else (find pat t).map (· + c.utf8Size)

variable {pat t : Text} {n : Nat}

@[simp] theorem length_bytes (t : Text) : (bytes t).length = len t := by
  rw [bytes, List.length_flatMap, len]
  exact congrArg List.sum (List.map_congr_left fun c _ => String.length_utf8EncodeChar c)

@[simp] theorem bytes_append (t u : Text) : bytes (t ++ u) = bytes t ++ bytes u :=
  List.flatMap_append

theorem utf8Size_ascii {c : Char} (h : c.toNat < 128) : c.utf8Size = 1 :=
  Char.utf8Size_eq_one_iff.mpr (UInt32.le_iff_toNat_le.mpr (Nat.le_of_lt_succ h))

theorem len_of_ascii (h : ∀ c ∈ t, c.toNat < 128) : len t = t.length := by
  induction t with
  | nil => rfl
  | cons c t ih =>
      obtain ⟨hc, ht⟩ := List.forall_mem_cons.mp h
      rw [len_cons, utf8Size_ascii hc, ih ht, List.length_cons, Nat.add_comm]

theorem utf8EncodeChar_head (c : Char) : ∃ b tail, String.utf8EncodeChar c = b :: tail ∧
    (b.toNat = c.toNat ∨ 128 ≤ b.toNat ∧ 128 ≤ c.toNat) := by
  have hlead : ∀ {v rest base : Nat}, 128 ≤ base → rest + base < 256 → ¬v ≤ 127 →
      128 ≤ (UInt8.ofNat (rest + base)).toNat ∧ 128 ≤ v := by
    intro v rest base hbase hlt hv
    rw [UInt8.toNat_ofNat', Nat.mod_eq_of_lt hlt]
    exact ⟨by omega, by omega⟩
  fun_cases String.utf8EncodeChar
  case case1 v hv =>
    refine ⟨_, _, rfl, .inl ?_⟩
    rw [UInt8.toNat_ofNat', Nat.mod_eq_of_lt (by omega)]
    rfl
  case case2 v hv _ => exact ⟨_, _, rfl, .inr (hlead (by decide) (by omega) hv)⟩
  case case3 v hv _ _ => exact ⟨_, _, rfl, .inr (hlead (by decide) (by omega) hv)⟩
  case case4 v hv _ _ => exact ⟨_, _, rfl, .inr (hlead (by decide) (by omega) hv)⟩

/-- At an offset between two characters stands an ASCII byte exactly if the next character is
that. -/
theorem byte_eq_iff (before rest : Text) {c a : Char} (ha : a.toNat < 128) :
    (bytes (before ++ c :: rest))[len before]? = some (ascii a) ↔ c = a := by
  obtain ⟨b, tail, hb, hval⟩ := utf8EncodeChar_head c
  have hbyte : (bytes (before ++ c :: rest))[len before]? = some b := by
    rw [bytes_append, List.getElem?_append_right (length_bytes before).le, length_bytes,
      Nat.sub_self, bytes, List.flatMap_cons, hb]
    rfl
  have hascii : (ascii a).toNat = a.toNat := by
    rw [ascii, UInt8.toNat_ofNat']
    exact Nat.mod_eq_of_lt (by omega)
  rw [hbyte, Option.some.injEq]
  constructor
  · rintro rfl
    rw [hascii] at hval
    obtain hsame | ⟨hbig, -⟩ := hval
    · exact (Char.toNat_inj.mp hsame).symm
    · omega
  · rintro rfl
    refine UInt8.toNat_inj.mp ?_
    rw [hascii]
    omega

theorem byte_end (before : Text) : (bytes before)[len before]? = none :=
  List.getElem?_eq_none (length_bytes before).le

theorem find_some (h : find pat t = some n) : ∃ front back, t = front ++ pat ++ back ∧
    len front = n ∧ ∀ front' back', t = front' ++ pat ++ back' → front.length ≤ front'.length := by
  induction t generalizing n with
  | nil =>
      rw [find] at h
      split at h
      case isTrue hpat =>
        obtain rfl := Option.some.inj h
        obtain rfl := List.isEmpty_iff.mp hpat
        exact ⟨[], [], rfl, rfl, fun _ _ _ => Nat.zero_le _⟩
      case isFalse => cases h
  | cons c t ih =>
      rw [find] at h
      split at h
      case isTrue hpre =>
        obtain rfl := Option.some.inj h
        obtain ⟨back, hback⟩ := startsWith_iff.mp hpre
        exact ⟨[], back, hback.symm, rfl, fun _ _ _ => Nat.zero_le _⟩
      case isFalse hpre =>
        obtain ⟨m, hm, rfl⟩ := Option.map_eq_some_iff.mp h
        obtain ⟨front, back, rfl, rfl, hfirst⟩ := ih hm
        refine ⟨c :: front, back, rfl, by rw [len_cons, Nat.add_comm], fun front' back' heq => ?_⟩
        cases front' with
        | nil => exact absurd (startsWith_iff.mpr ⟨back', heq.symm⟩) hpre
        | cons d front' => exact Nat.succ_le_succ (hfirst front' back' (List.cons.inj heq).2)

theorem find_none (h : find pat t = none) (front back : Text) : t ≠ front ++ pat ++ back := by
  induction t generalizing front with
  | nil =>
      rintro heq
      rw [find, if_pos (by simp_all)] at h
      cases h
  | cons c t ih =>
      rw [find] at h
      split at h
      · cases h
      case isFalse hpre =>
        rintro heq
        cases front with
        | nil => exact hpre (startsWith_iff.mpr ⟨back, heq.symm⟩)
        | cons d front =>
            exact ih (Option.map_eq_none_iff.mp h) front (List.cons.inj heq).2

end Text

/-!
## Bytes as text

Decoding UTF-8 where invalid bytes are replaced: each longest beginning of a character
that does not go on as one becomes U+FFFD, and so does a byte that begins none.
-/

namespace Text

/-- A character that has begun: how many bytes are missing, the range of the next one and
the value so far. -/
structure Begun where
  missing : Nat
  low : Nat
  high : Nat
  value : Nat

/-- The text decoded so far and the character that has begun. -/
structure Decoder where
  decoded : Text := []
  begun : Option Begun := none

namespace Decoder

def put (d : Decoder) (c : Char) : Decoder := { decoded := d.decoded ++ [c], begun := none }

def invalid (d : Decoder) : Decoder := d.put '\uFFFD'

def await (d : Decoder) (b : Begun) : Decoder := { d with begun := some b }

/-- A byte where no character has begun. -/
def first (d : Decoder) (b : Nat) : Decoder :=
  if b < 0x80 then d.put (Char.ofNat b)
  else if 0xC2 ≤ b ∧ b ≤ 0xDF then d.await ⟨1, 0x80, 0xBF, b - 0xC0⟩
  -- No overlong forms, no surrogates and nothing beyond U+10FFFF.
  else if b = 0xE0 then d.await ⟨2, 0xA0, 0xBF, 0⟩
  else if b = 0xED then d.await ⟨2, 0x80, 0x9F, 0xD⟩
  else if 0xE1 ≤ b ∧ b ≤ 0xEF then d.await ⟨2, 0x80, 0xBF, b - 0xE0⟩
  else if b = 0xF0 then d.await ⟨3, 0x90, 0xBF, 0⟩
  else if 0xF1 ≤ b ∧ b ≤ 0xF3 then d.await ⟨3, 0x80, 0xBF, b - 0xF0⟩
  else if b = 0xF4 then d.await ⟨3, 0x80, 0x8F, 4⟩
  else d.invalid

def next (d : Decoder) (b : UInt8) : Decoder :=
  match d.begun with
  | none => d.first b.toNat
  | some c =>
      if c.low ≤ b.toNat ∧ b.toNat ≤ c.high then
        let value := c.value * 64 + (b.toNat - 0x80)
        if c.missing = 1 then d.put (Char.ofNat value)
        else d.await ⟨c.missing - 1, 0x80, 0xBF, value⟩
      else d.invalid.first b.toNat

/-- What the stream ends in the middle of is invalid. -/
def finish (d : Decoder) : Text := if d.begun.isSome then d.invalid.decoded else d.decoded

end Decoder

/-- `String::from_utf8_lossy`. -/
def fromUtf8Lossy (bytes : List UInt8) : Text := (bytes.foldl Decoder.next {}).finish

example : fromUtf8Lossy [0x61, 0xE2, 0x82, 0xAC, 0xF0, 0x9F, 0x98, 0x80] = ['a', '€', '😀'] := by
  decide

-- An overlong form, a character that breaks off, and a lone continuation.
example : fromUtf8Lossy [0xC0, 0x80, 0xE2, 0x82, 0x41, 0x80] =
    ['\uFFFD', '\uFFFD', '\uFFFD', 'A', '\uFFFD'] := by decide

/-! ### Decoding what was encoded -/

namespace Decoder

variable {d : Decoder} {n : Nat}

theorem next_first (hd : d.begun = none) (hn : n < 256) : d.next (UInt8.ofNat n) = d.first n := by
  rw [next, hd, UInt8.toNat_ofNat', Nat.mod_eq_of_lt hn]

theorem next_await {missing low high value : Nat} (hn : n < 256) (hlow : low ≤ n)
    (hhigh : n ≤ high) :
    (d.await ⟨missing, low, high, value⟩).next (UInt8.ofNat n) =
      if missing = 1 then d.put (Char.ofNat (value * 64 + (n - 0x80)))
      else d.await ⟨missing - 1, 0x80, 0xBF, value * 64 + (n - 0x80)⟩ := by
  have hbyte : (UInt8.ofNat n).toNat = n := by rw [UInt8.toNat_ofNat', Nat.mod_eq_of_lt hn]
  simp only [next, await, hbyte, if_pos (And.intro hlow hhigh)]
  rfl

theorem first_three (hlow : 0xE0 ≤ n) (hhigh : n ≤ 0xEF) : d.first n = d.await
    ⟨2, if n = 0xE0 then 0xA0 else 0x80, if n = 0xED then 0x9F else 0xBF, n - 0xE0⟩ := by
  rw [first, if_neg (by omega), if_neg (by omega)]
  split
  case isTrue h => subst h; rfl
  case isFalse h =>
    split
    case isTrue h' => subst h'; rfl
    case isFalse h' => rw [if_pos (by omega)]

theorem first_four (hlow : 0xF0 ≤ n) (hhigh : n ≤ 0xF4) : d.first n = d.await
    ⟨3, if n = 0xF0 then 0x90 else 0x80, if n = 0xF4 then 0x8F else 0xBF, n - 0xF0⟩ := by
  rw [first, if_neg (by omega), if_neg (by omega), if_neg (by omega), if_neg (by omega),
    if_neg (by omega)]
  split
  case isTrue h => subst h; rfl
  case isFalse h =>
    split
    case isTrue h' =>
      rw [if_neg (by omega)]
    case isFalse h' =>
      obtain rfl : n = 0xF4 := by omega
      rfl

theorem foldl_char (hd : d.begun = none) (c : Char) :
    (String.utf8EncodeChar c).foldl next d = d.put c := by
  have hchar : ∀ v, v = c.toNat → d.put (Char.ofNat v) = d.put c := by
    rintro _ rfl
    rw [Char.ofNat_toNat]
  have hvalid : c.toNat < 0xD800 ∨ 0xDFFF < c.toNat ∧ c.toNat < 0x110000 := c.valid
  fun_cases String.utf8EncodeChar
  case case1 v hv =>
    rw [List.foldl_cons, next_first hd (by omega), first, if_pos (by omega)]
    exact hchar v rfl
  case case2 v hv hv' =>
    rw [List.foldl_cons, next_first hd (by omega), first, if_neg (by omega), if_pos (by omega),
      List.foldl_cons, next_await (by omega) (by omega) (by omega), if_pos rfl]
    exact hchar _ (by change _ = v; omega)
  case case3 v hv hv' hv'' =>
    have hv : v < 0xD800 ∨ 0xDFFF < v := hvalid.imp_right And.left
    rw [List.foldl_cons, next_first hd (by omega), first_three (by omega) (by omega),
      List.foldl_cons, next_await (by omega) (by split <;> omega) (by split <;> omega),
      if_neg (by decide), List.foldl_cons, next_await (by omega) (by omega) (by omega),
      if_pos rfl]
    exact hchar _ (by change _ = v; omega)
  case case4 v hv hv' hv'' =>
    have hv : v < 0x110000 := by
      obtain h | h := hvalid
      · exact h.trans (by decide)
      · exact h.2
    rw [List.foldl_cons, next_first hd (by omega), first_four (by omega) (by omega),
      List.foldl_cons, next_await (by omega) (by split <;> omega) (by split <;> omega),
      if_neg (by decide), List.foldl_cons, next_await (by omega) (by omega) (by omega),
      if_neg (by decide), List.foldl_cons, next_await (by omega) (by omega) (by omega),
      if_pos rfl]
    exact hchar _ (by change _ = v; omega)

theorem foldl_bytes (hd : d.begun = none) (t : Text) :
    (bytes t).foldl next d = { decoded := d.decoded ++ t, begun := none } := by
  induction t generalizing d with
  | nil =>
      rw [List.append_nil, ← hd]
      rfl
  | cons c t ih =>
      rw [bytes, List.flatMap_cons, List.foldl_append, foldl_char hd, ← bytes, ih rfl, put,
        List.append_assoc]
      rfl

end Decoder

@[simp] theorem fromUtf8Lossy_bytes (t : Text) : fromUtf8Lossy (bytes t) = t := by
  rw [fromUtf8Lossy, Decoder.foldl_bytes rfl]
  rfl

end Text
