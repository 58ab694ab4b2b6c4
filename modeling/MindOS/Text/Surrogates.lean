import Mathlib.Data.List.Basic

/-!
# UTF-8 with surrogateescape

Python's decoder: what does not decode is kept, each byte of it as a code point between U+DC80 and
U+DCFF, and the encoder turns these back. A text is the list of its code points, some of which no
character has.
-/

namespace Surrogates

/-- What is missing of a code point: so many bytes, the next one in a range. It goes on until it is
complete, or until a byte is missing or does not continue it. -/
def decodeRest : Nat → Nat → Nat → Nat → Nat → List UInt8 → Except Nat (Nat × Nat)
  | 0, _, _, value, used, _ => .ok (value, used)
  | _ + 1, _, _, _, used, [] => .error used
  | missing + 1, low, high, value, used, b :: rest =>
      if low ≤ b.toNat ∧ b.toNat ≤ high then
        decodeRest missing 0x80 0xBF (value * 0x40 + (b.toNat - 0x80)) (used + 1) rest
      else .error used

/-- What begins with a byte: a code point of so many more bytes, or an error that reaches over so
many more bytes. -/
def decodeFirst (b : UInt8) (rest : List UInt8) : Except Nat (Nat × Nat) :=
  let b := b.toNat
  if b < 0x80 then .ok (b, 0)
  -- Continuations and overlong forms.
  else if b < 0xC2 then .error 0
  else if b < 0xE0 then decodeRest 1 0x80 0xBF (b - 0xC0) 0 rest
  else if b < 0xF0 then
    decodeRest 2 (if b = 0xE0 then 0xA0 else 0x80) (if b = 0xED then 0x9F else 0xBF) (b - 0xE0) 0
      rest
  else if b < 0xF5 then
    decodeRest 3 (if b = 0xF0 then 0x90 else 0x80) (if b = 0xF4 then 0x8F else 0xBF) (b - 0xF0) 0
      rest
  else .error 0

def escape (b : UInt8) : Nat := 0xDC00 + b.toNat

/-- `bytes.decode("utf-8", "surrogateescape")` -/
def decode : List UInt8 → List Nat
  | [] => []
  | b :: rest =>
      match decodeFirst b rest with
      | .ok (c, more) => c :: decode (rest.drop more)
      | .error more => (b :: rest.take more).map escape ++ decode (rest.drop more)
termination_by bytes => bytes.length
decreasing_by
  all_goals
    simp only [List.length_drop, List.length_cons]
    omega

def encodePoint (c : Nat) : Option (List UInt8) :=
  if c < 0x80 then some [.ofNat c]
  else if c < 0x800 then some [.ofNat (0xC0 + c / 0x40), .ofNat (0x80 + c % 0x40)]
  else if 0xDC80 ≤ c ∧ c ≤ 0xDCFF then some [.ofNat (c - 0xDC00)]
  else if 0xD800 ≤ c ∧ c ≤ 0xDFFF then none
  else if c < 0x10000 then
    some [.ofNat (0xE0 + c / 0x1000), .ofNat (0x80 + c / 0x40 % 0x40), .ofNat (0x80 + c % 0x40)]
  else some [.ofNat (0xF0 + c / 0x40000), .ofNat (0x80 + c / 0x1000 % 0x40),
    .ofNat (0x80 + c / 0x40 % 0x40), .ofNat (0x80 + c % 0x40)]

/-- `str.encode("utf-8", "surrogateescape")` -/
def encode : List Nat → Option (List UInt8)
  | [] => some []
  | c :: text => do return (← encodePoint c) ++ (← encode text)

/-! ## An error byte by byte -/

variable {b : UInt8} {bytes rest : List UInt8} {c low high missing more used value : Nat}

/-- A continuation byte. -/
def Continues (b : UInt8) : Prop := 0x80 ≤ b.toNat ∧ b.toNat ≤ 0xBF

theorem decodeRest_error (hlow : 0x80 ≤ low) (hhigh : high ≤ 0xBF)
    (h : decodeRest missing low high value used rest = .error more) :
    used ≤ more ∧ ∀ b ∈ rest.take (more - used), Continues b := by
  induction missing generalizing low high value used rest with
  | zero => cases h
  | succ missing ih =>
      cases rest with
      | nil =>
          cases h
          exact ⟨Nat.le_refl _, by simp⟩
      | cons b rest =>
          rw [decodeRest] at h
          split at h
          case isTrue hb =>
            obtain ⟨hle, hrest⟩ := ih (Nat.le_refl _) (Nat.le_refl _) h
            refine ⟨by omega, ?_⟩
            have hmore : more - used = (more - (used + 1)) + 1 := by omega
            rw [hmore, List.take_succ_cons, List.forall_mem_cons]
            exact ⟨⟨by omega, by omega⟩, hrest⟩
          case isFalse =>
            cases h
            exact ⟨Nat.le_refl _, by simp⟩

theorem decodeFirst_error (h : decodeFirst b rest = .error more) :
    0x80 ≤ b.toNat ∧ ∀ b' ∈ rest.take more, Continues b' := by
  rw [decodeFirst] at h
  split at h
  · cases h
  case isFalse hb =>
    refine ⟨Nat.le_of_not_lt hb, ?_⟩
    split at h
    · cases h
      simp
    split at h
    · exact (decodeRest_error (Nat.le_refl _) (Nat.le_refl _) h).2
    split at h
    · exact (decodeRest_error (by split <;> decide) (by split <;> decide) h).2
    split at h
    · exact (decodeRest_error (by split <;> decide) (by split <;> decide) h).2
    · cases h
      simp

theorem decodeFirst_two (hlow : 0xC2 ≤ b.toNat) (hhigh : b.toNat < 0xE0) :
    decodeFirst b rest = decodeRest 1 0x80 0xBF (b.toNat - 0xC0) 0 rest := by
  rw [decodeFirst, if_neg (by omega), if_neg (by omega), if_pos hhigh]

theorem decodeFirst_three (hlow : 0xE0 ≤ b.toNat) (hhigh : b.toNat < 0xF0) :
    decodeFirst b rest = decodeRest 2 (if b.toNat = 0xE0 then 0xA0 else 0x80)
      (if b.toNat = 0xED then 0x9F else 0xBF) (b.toNat - 0xE0) 0 rest := by
  rw [decodeFirst, if_neg (by omega), if_neg (by omega), if_neg (by omega), if_pos hhigh]

theorem decodeFirst_four (hlow : 0xF0 ≤ b.toNat) (hhigh : b.toNat < 0xF5) :
    decodeFirst b rest = decodeRest 3 (if b.toNat = 0xF0 then 0x90 else 0x80)
      (if b.toNat = 0xF4 then 0x8F else 0xBF) (b.toNat - 0xF0) 0 rest := by
  rw [decodeFirst, if_neg (by omega), if_neg (by omega), if_neg (by omega), if_neg (by omega),
    if_pos hhigh]

theorem decodeFirst_continues (h : Continues b) : decodeFirst b rest = .error 0 := by
  obtain ⟨hlow, hhigh⟩ := h
  rw [decodeFirst, if_neg (by omega), if_pos (by omega)]

/-- The decoder with errors of one byte each. -/
def decodeBytes : List UInt8 → List Nat
  | [] => []
  | b :: rest =>
      match decodeFirst b rest with
      | .ok (c, more) => c :: decodeBytes (rest.drop more)
      | .error _ => escape b :: decodeBytes rest
termination_by bytes => bytes.length
decreasing_by
  · rw [List.length_drop, List.length_cons]
    omega
  · exact Nat.lt_succ_self _

theorem decodeBytes_continues (h : ∀ b ∈ bytes, Continues b) (rest : List UInt8) :
    decodeBytes (bytes ++ rest) = bytes.map escape ++ decodeBytes rest := by
  induction bytes with
  | nil => rfl
  | cons b bytes ih =>
      obtain ⟨hb, hbytes⟩ := List.forall_mem_cons.mp h
      rw [List.cons_append, decodeBytes, decodeFirst_continues hb]
      exact congrArg _ (ih hbytes)

theorem decode_eq_decodeBytes (bytes : List UInt8) : decode bytes = decodeBytes bytes := by
  fun_induction decode bytes with
  | case1 => rw [decodeBytes]
  | case2 b rest c more h ih => rw [decodeBytes, h, ih]
  | case3 b rest more h ih =>
      have hrest := decodeBytes_continues (decodeFirst_error h).2 (rest.drop more)
      rw [List.take_append_drop] at hrest
      rw [decodeBytes, h, ih, hrest]
      rfl

/-! ## Encoding what was decoded -/

/-- Code points that are decoded: characters and the escapes of bytes. No surrogate of these comes
before another one as the first of a pair. -/
def Decoded (c : Nat) : Prop := c < 0x110000 ∧ ¬(0xD800 ≤ c ∧ c < 0xDC00)

theorem decodeRest_zero_ok (h : decodeRest 0 low high value used rest = .ok (c, more)) :
    value = c ∧ used = more :=
  Prod.mk.inj (Except.ok.inj h)

theorem decodeRest_succ_ok {r : Nat × Nat}
    (h : decodeRest (missing + 1) low high value used rest = .ok r) :
    ∃ b rest', rest = b :: rest' ∧ low ≤ b.toNat ∧ b.toNat ≤ high ∧
      decodeRest missing 0x80 0xBF (value * 0x40 + (b.toNat - 0x80)) (used + 1) rest' = .ok r := by
  cases rest with
  | nil => cases h
  | cons b rest =>
      rw [decodeRest] at h
      split at h
      case isTrue hb => exact ⟨b, rest, rfl, hb.1, hb.2, h⟩
      case isFalse => cases h

theorem ofNat_eq {n : Nat} {b : UInt8} (h : n = b.toNat) : UInt8.ofNat n = b := by
  rw [h, UInt8.ofNat_toNat]

theorem encodePoint_of_decodeFirst (h : decodeFirst b rest = .ok (c, more)) :
    encodePoint c = some (b :: rest.take more) ∧ more ≤ rest.length ∧ Decoded c ∧
      (b.toNat < 0x80 → c = b.toNat) ∧ (0x80 ≤ b.toNat → 0x80 ≤ c) := by
  have hbyte : b.toNat < 256 := b.toNat_lt
  rw [decodeFirst] at h
  split at h
  case isTrue hb =>
    cases h
    refine ⟨?_, Nat.zero_le _, ⟨by omega, by omega⟩, fun _ => rfl, fun _ => by omega⟩
    rw [encodePoint, if_pos hb, ofNat_eq rfl]
    rfl
  split at h
  · cases h
  split at h
  case isTrue htwo =>
    obtain ⟨b₁, rest₁, rfl, hlow, hhigh, h⟩ := decodeRest_succ_ok h
    obtain ⟨rfl, rfl⟩ := decodeRest_zero_ok h
    refine ⟨?_, by simp, ⟨by omega, by omega⟩, fun _ => by omega, fun _ => by omega⟩
    rw [encodePoint, if_neg (by omega), if_pos (by omega), ofNat_eq (by omega : _ = b.toNat),
      ofNat_eq (by omega : _ = b₁.toNat)]
    rfl
  split at h
  case isTrue hthree =>
    obtain ⟨b₁, rest₁, rfl, hlow, hhigh, h⟩ := decodeRest_succ_ok h
    obtain ⟨b₂, rest₂, rfl, hlow₂, hhigh₂, h⟩ := decodeRest_succ_ok h
    obtain ⟨rfl, rfl⟩ := decodeRest_zero_ok h
    have hsecond : 0x80 ≤ b₁.toNat ∧ b₁.toNat ≤ 0xBF ∧ (b.toNat = 0xE0 → 0xA0 ≤ b₁.toNat) ∧
        (b.toNat = 0xED → b₁.toNat ≤ 0x9F) := by
      split at hlow <;> split at hhigh <;> omega
    refine ⟨?_, by simp, ⟨by omega, by omega⟩, fun _ => by omega, fun _ => by omega⟩
    rw [encodePoint, if_neg (by omega), if_neg (by omega), if_neg (by omega), if_neg (by omega),
      if_pos (by omega), ofNat_eq (by omega : _ = b.toNat), ofNat_eq (by omega : _ = b₁.toNat),
      ofNat_eq (by omega : _ = b₂.toNat)]
    rfl
  split at h
  case isTrue hfour =>
    obtain ⟨b₁, rest₁, rfl, hlow, hhigh, h⟩ := decodeRest_succ_ok h
    obtain ⟨b₂, rest₂, rfl, hlow₂, hhigh₂, h⟩ := decodeRest_succ_ok h
    obtain ⟨b₃, rest₃, rfl, hlow₃, hhigh₃, h⟩ := decodeRest_succ_ok h
    obtain ⟨rfl, rfl⟩ := decodeRest_zero_ok h
    have hsecond : 0x80 ≤ b₁.toNat ∧ b₁.toNat ≤ 0xBF ∧ (b.toNat = 0xF0 → 0x90 ≤ b₁.toNat) ∧
        (b.toNat = 0xF4 → b₁.toNat ≤ 0x8F) := by
      split at hlow <;> split at hhigh <;> omega
    refine ⟨?_, by simp, ⟨by omega, by omega⟩, fun _ => by omega, fun _ => by omega⟩
    rw [encodePoint, if_neg (by omega), if_neg (by omega), if_neg (by omega), if_neg (by omega),
      if_neg (by omega), ofNat_eq (by omega : _ = b.toNat), ofNat_eq (by omega : _ = b₁.toNat),
      ofNat_eq (by omega : _ = b₂.toNat), ofNat_eq (by omega : _ = b₃.toNat)]
    rfl
  · cases h

theorem encodePoint_escape (h : 0x80 ≤ b.toNat) : encodePoint (escape b) = some [b] := by
  have hbyte : b.toNat < 256 := b.toNat_lt
  rw [encodePoint, escape, if_neg (by omega), if_neg (by omega), if_pos (by omega),
    ofNat_eq (by omega : _ = b.toNat)]

theorem decoded_escape (h : 0x80 ≤ b.toNat) : Decoded (escape b) := by
  have hbyte : b.toNat < 256 := b.toNat_lt
  rw [Decoded, escape]
  omega

theorem encode_decode (bytes : List UInt8) : encode (decode bytes) = some bytes := by
  rw [decode_eq_decodeBytes]
  fun_induction decodeBytes bytes with
  | case1 => rfl
  | case2 b rest c more h ih =>
      obtain ⟨hpoint, -⟩ := encodePoint_of_decodeFirst h
      rw [encode, hpoint, ih]
      exact congrArg (fun t => some (b :: t)) (List.take_append_drop more rest)
  | case3 b rest more h ih =>
      rw [encode, encodePoint_escape (decodeFirst_error h).1, ih]
      rfl

theorem decoded_of_mem_decode (bytes : List UInt8) : ∀ c ∈ decode bytes, Decoded c := by
  rw [decode_eq_decodeBytes]
  fun_induction decodeBytes bytes with
  | case1 => simp
  | case2 b rest c more h ih =>
      exact List.forall_mem_cons.mpr ⟨(encodePoint_of_decodeFirst h).2.2.1, ih⟩
  | case3 b rest more h ih =>
      exact List.forall_mem_cons.mpr ⟨decoded_escape (decodeFirst_error h).1, ih⟩

end Surrogates
