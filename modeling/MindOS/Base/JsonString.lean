import MindOS.Json.Strings
import MindOS.Text.Surrogates
import Mathlib.Data.Nat.Bitwise

/-!
# JSON strings written by the shell

`json_string` goes through the bytes of a string and escapes them, decoding UTF-8 as it goes. It
writes what Python writes of the bytes decoded with surrogateescape.
-/

namespace MindOS.Base

open Json.Strings (hex)

/-- `'%d'` of the byte at a place. -/
def byteAt (s : List UInt8) (i : Nat) : Nat := (s.getD i 0).toNat

/-- `cp` of a byte above ASCII, with what is added to `i`; none while it is negative. -/
def codePoint (n : Nat) (rest : List UInt8) : Option (Nat × Nat) :=
  if 0xC2 ≤ n ∧ n ≤ 0xDF ∧ 1 ≤ rest.length then
    let c1 := byteAt rest 0
    if 0x80 ≤ c1 ∧ c1 ≤ 0xBF then some ((n &&& 0x1F) <<< 6 ||| (c1 &&& 0x3F), 1) else none
  else if 0xE0 ≤ n ∧ n ≤ 0xEF ∧ 2 ≤ rest.length then
    let c1 := byteAt rest 0
    let c2 := byteAt rest 1
    let lo := if n = 0xE0 then 0xA0 else 0x80
    let hi := if n = 0xED then 0x9F else 0xBF
    if lo ≤ c1 ∧ c1 ≤ hi ∧ 0x80 ≤ c2 ∧ c2 ≤ 0xBF then
      some ((n &&& 0x0F) <<< 12 ||| (c1 &&& 0x3F) <<< 6 ||| (c2 &&& 0x3F), 2)
    else none
  else if 0xF0 ≤ n ∧ n ≤ 0xF4 ∧ 3 ≤ rest.length then
    let c1 := byteAt rest 0
    let c2 := byteAt rest 1
    let c3 := byteAt rest 2
    let lo := if n = 0xF0 then 0x90 else 0x80
    let hi := if n = 0xF4 then 0x8F else 0xBF
    if lo ≤ c1 ∧ c1 ≤ hi ∧ 0x80 ≤ c2 ∧ c2 ≤ 0xBF ∧ 0x80 ≤ c3 ∧ c3 ≤ 0xBF then
      some ((n &&& 0x07) <<< 18 ||| (c1 &&& 0x3F) <<< 12 ||| (c2 &&& 0x3F) <<< 6 |||
        (c3 &&& 0x3F), 3)
    else none
  else none

/-- What is written of a byte above ASCII. -/
def escapeHigh (n : Nat) : Option Nat → Text
  | none => ['\\', 'u', 'd', 'c'] ++ hex 2 n
  | some cp =>
      if cp < 0x10000 then ['\\', 'u'] ++ hex 4 cp
      else ['\\', 'u'] ++ hex 4 (0xD800 + (cp - 0x10000) >>> 10) ++ ['\\', 'u'] ++
        hex 4 (0xDC00 + ((cp - 0x10000) &&& 0x3FF))

/-- One pass of the loop: what is added to `out` for a byte, and to `i`. -/
def escapeByte (b : UInt8) (rest : List UInt8) : Text × Nat :=
  let n := b.toNat
  if n = 34 then (['\\', '"'], 0)
  else if n = 92 then (['\\', '\\'], 0)
  else if 32 ≤ n ∧ n < 127 then ([Char.ofNat n], 0)
  else if n = 10 then (['\\', 'n'], 0)
  else if n = 13 then (['\\', 'r'], 0)
  else if n = 9 then (['\\', 't'], 0)
  else if n = 8 then (['\\', 'b'], 0)
  else if n = 12 then (['\\', 'f'], 0)
  else if n < 128 then (['\\', 'u'] ++ hex 4 n, 0)
  else
    let cp := codePoint n rest
    (escapeHigh n (cp.map Prod.fst), (cp.map Prod.snd).getD 0)

/-- The loop from a place on; so many bytes are passed over first. -/
def escapeFrom : Nat → List UInt8 → Text
  | _, [] => []
  | 0, b :: rest => (escapeByte b rest).1 ++ escapeFrom (escapeByte b rest).2 rest
  | skip + 1, _ :: rest => escapeFrom skip rest

/-- `json_string`; what the shell keeps in a string has no byte 0. -/
def jsonString (s : List UInt8) : Text := ['"'] ++ escapeFrom 0 s ++ ['"']

/-! ## Against Python's decoder -/

open Surrogates (decodeFirst decodeBytes)

variable {b : UInt8} {rest : List UInt8}

theorem shift_or (v c : Nat) : v <<< 6 ||| (c &&& 0x3F) = v * 0x40 + c % 0x40 := by
  have hmod : c &&& 0x3F = c % 0x40 := Nat.and_two_pow_sub_one_eq_mod c 6
  rw [hmod, ← Nat.shiftLeft_add_eq_or_of_lt (Nat.mod_lt _ (by decide)), Nat.shiftLeft_eq]

theorem shift_or_two (v c d : Nat) :
    v <<< 12 ||| (c &&& 0x3F) <<< 6 ||| (d &&& 0x3F) = (v * 0x40 + c % 0x40) * 0x40 + d % 0x40 := by
  rw [← shift_or, ← shift_or v, Nat.shiftLeft_or_distrib, ← Nat.shiftLeft_add]

theorem shift_or_three (v c d e : Nat) :
    v <<< 18 ||| (c &&& 0x3F) <<< 12 ||| (d &&& 0x3F) <<< 6 ||| (e &&& 0x3F) =
      ((v * 0x40 + c % 0x40) * 0x40 + d % 0x40) * 0x40 + e % 0x40 := by
  rw [← shift_or_two, ← shift_or, Nat.shiftLeft_or_distrib, ← Nat.shiftLeft_add]

theorem decodeRest_short {missing low high value used : Nat} (h : rest.length < missing) :
    (Surrogates.decodeRest missing low high value used rest).toOption = none := by
  induction missing generalizing low high value used rest with
  | zero => exact absurd h (Nat.not_lt_zero _)
  | succ missing ih =>
      cases rest with
      | nil => rfl
      | cons b rest =>
          rw [Surrogates.decodeRest]
          split
          · exact ih (Nat.lt_of_succ_lt_succ h)
          · rfl

theorem codePoint_two (hlow : 0xC2 ≤ b.toNat) (hhigh : b.toNat < 0xE0) :
    codePoint b.toNat rest = (decodeFirst b rest).toOption := by
  have hmask : b.toNat &&& 0x1F = b.toNat - 0xC0 := by
    have hmod : b.toNat &&& 0x1F = b.toNat % 0x20 := Nat.and_two_pow_sub_one_eq_mod _ 5
    omega
  rw [Surrogates.decodeFirst_two hlow hhigh]
  cases rest with
  | nil =>
      rw [decodeRest_short (by simp), codePoint, if_neg (by simp), if_neg (by simp),
        if_neg (by simp)]
  | cons b₁ rest =>
      rw [codePoint, if_pos ⟨hlow, by omega, by simp⟩, hmask, Surrogates.decodeRest]
      simp only [byteAt, List.getD_cons_zero, shift_or]
      split
      case isTrue h =>
        have hmod : b₁.toNat % 0x40 = b₁.toNat - 0x80 := by omega
        rw [hmod]
        rfl
      case isFalse => rfl

theorem codePoint_three (hlow : 0xE0 ≤ b.toNat) (hhigh : b.toNat < 0xF0) :
    codePoint b.toNat rest = (decodeFirst b rest).toOption := by
  have hmask : b.toNat &&& 0x0F = b.toNat - 0xE0 := by
    have hmod : b.toNat &&& 0x0F = b.toNat % 0x10 := Nat.and_two_pow_sub_one_eq_mod _ 4
    omega
  rw [Surrogates.decodeFirst_three hlow hhigh]
  match rest with
  | [] => rw [decodeRest_short (by simp), codePoint, if_neg (by simp), if_neg (by simp),
      if_neg (by simp)]
  | [b₁] => rw [decodeRest_short (by simp), codePoint, if_neg (by omega), if_neg (by simp),
      if_neg (by simp)]
  | b₁ :: b₂ :: rest =>
      rw [codePoint, if_neg (by omega), if_pos ⟨hlow, by omega, by simp⟩, hmask]
      simp only [byteAt, List.getD_cons_zero, List.getD_cons_succ, Surrogates.decodeRest,
        shift_or_two]
      have hlo : 0x80 ≤ if b.toNat = 0xE0 then 0xA0 else 0x80 := by split <;> decide
      have hhi : (if b.toNat = 0xED then 0x9F else 0xBF) ≤ 0xBF := by split <;> decide
      generalize (if b.toNat = 0xE0 then 0xA0 else 0x80) = lo at *
      generalize (if b.toNat = 0xED then 0x9F else 0xBF) = hi at *
      by_cases h₁ : lo ≤ b₁.toNat ∧ b₁.toNat ≤ hi
      · by_cases h₂ : 0x80 ≤ b₂.toNat ∧ b₂.toNat ≤ 0xBF
        · have hmod₁ : b₁.toNat % 0x40 = b₁.toNat - 0x80 := by omega
          have hmod₂ : b₂.toNat % 0x40 = b₂.toNat - 0x80 := by omega
          rw [if_pos ⟨h₁.1, h₁.2, h₂⟩, if_pos h₁, if_pos h₂, hmod₁, hmod₂]
          rfl
        · rw [if_neg fun h => h₂ h.2.2, if_pos h₁, if_neg h₂]
          rfl
      · rw [if_neg fun h => h₁ ⟨h.1, h.2.1⟩, if_neg h₁]
        rfl

theorem codePoint_four (hlow : 0xF0 ≤ b.toNat) (hhigh : b.toNat < 0xF5) :
    codePoint b.toNat rest = (decodeFirst b rest).toOption := by
  have hmask : b.toNat &&& 0x07 = b.toNat - 0xF0 := by
    have hmod : b.toNat &&& 0x07 = b.toNat % 0x08 := Nat.and_two_pow_sub_one_eq_mod _ 3
    omega
  rw [Surrogates.decodeFirst_four hlow hhigh]
  match rest with
  | [] => rw [decodeRest_short (by simp), codePoint, if_neg (by simp), if_neg (by simp),
      if_neg (by simp)]
  | [b₁] => rw [decodeRest_short (by simp), codePoint, if_neg (by omega), if_neg (by simp),
      if_neg (by simp)]
  | [b₁, b₂] => rw [decodeRest_short (by simp), codePoint, if_neg (by omega), if_neg (by omega),
      if_neg (by simp)]
  | b₁ :: b₂ :: b₃ :: rest =>
      rw [codePoint, if_neg (by omega), if_neg (by omega), if_pos ⟨hlow, by omega, by simp⟩, hmask]
      simp only [byteAt, List.getD_cons_zero, List.getD_cons_succ, Surrogates.decodeRest,
        shift_or_three]
      have hlo : 0x80 ≤ if b.toNat = 0xF0 then 0x90 else 0x80 := by split <;> decide
      have hhi : (if b.toNat = 0xF4 then 0x8F else 0xBF) ≤ 0xBF := by split <;> decide
      generalize (if b.toNat = 0xF0 then 0x90 else 0x80) = lo at *
      generalize (if b.toNat = 0xF4 then 0x8F else 0xBF) = hi at *
      by_cases h₁ : lo ≤ b₁.toNat ∧ b₁.toNat ≤ hi
      · by_cases h₂ : 0x80 ≤ b₂.toNat ∧ b₂.toNat ≤ 0xBF
        · by_cases h₃ : 0x80 ≤ b₃.toNat ∧ b₃.toNat ≤ 0xBF
          · have hmod₁ : b₁.toNat % 0x40 = b₁.toNat - 0x80 := by omega
            have hmod₂ : b₂.toNat % 0x40 = b₂.toNat - 0x80 := by omega
            have hmod₃ : b₃.toNat % 0x40 = b₃.toNat - 0x80 := by omega
            rw [if_pos ⟨h₁.1, h₁.2, h₂.1, h₂.2, h₃⟩, if_pos h₁, if_pos h₂, if_pos h₃, hmod₁,
              hmod₂, hmod₃]
            rfl
          · rw [if_neg fun h => h₃ h.2.2.2.2, if_pos h₁, if_pos h₂, if_neg h₃]
            rfl
        · rw [if_neg fun h => h₂ ⟨h.2.2.1, h.2.2.2.1⟩, if_pos h₁, if_neg h₂]
          rfl
      · rw [if_neg fun h => h₁ ⟨h.1, h.2.1⟩, if_neg h₁]
        rfl

theorem codePoint_eq (h : 0x80 ≤ b.toNat) :
    codePoint b.toNat rest = (decodeFirst b rest).toOption := by
  rcases Nat.lt_or_ge b.toNat 0xC2 with hone | hone
  · rw [codePoint, decodeFirst, if_neg (by omega), if_neg (by omega), if_neg (by omega),
      if_neg (by omega), if_pos hone]
    rfl
  rcases Nat.lt_or_ge b.toNat 0xE0 with htwo | htwo
  · exact codePoint_two hone htwo
  rcases Nat.lt_or_ge b.toNat 0xF0 with hthree | hthree
  · exact codePoint_three htwo hthree
  rcases Nat.lt_or_ge b.toNat 0xF5 with hfour | hfour
  · exact codePoint_four hthree hfour
  · rw [codePoint, decodeFirst, if_neg (by omega), if_neg (by omega), if_neg (by omega),
      if_neg (by omega), if_neg (by omega), if_neg (by omega), if_neg (by omega),
      if_neg (by omega)]
    rfl

theorem escapeFrom_drop (skip : Nat) (s : List UInt8) :
    escapeFrom skip s = escapeFrom 0 (s.drop skip) := by
  induction s generalizing skip with
  | nil => cases skip <;> rfl
  | cons b s ih =>
      cases skip with
      | zero => rfl
      | succ skip => exact ih skip

theorem escapeByte_ascii (h : b.toNat < 0x80) :
    escapeByte b rest = (Json.Strings.escape b.toNat, 0) := by
  rw [escapeByte, Json.Strings.escape]
  generalize b.toNat = n at h
  dsimp only
  split_ifs <;> first | rfl | omega

theorem escapeHigh_some {c : Nat} (h : 0x80 ≤ c) (n : Nat) :
    escapeHigh n (some c) = Json.Strings.escape c := by
  have hmask : (c - 0x10000) &&& 0x3FF = (c - 0x10000) % 0x400 :=
    Nat.and_two_pow_sub_one_eq_mod _ 10
  have hshift : (c - 0x10000) >>> 10 = (c - 0x10000) / 0x400 := Nat.shiftRight_eq_div_pow _ 10
  rw [Json.Strings.escape, if_neg (by omega), if_neg (by omega), if_neg (by omega),
    if_neg (by omega), if_neg (by omega), if_neg (by omega), if_neg (by omega), if_neg (by omega)]
  simp only [escapeHigh, hmask, hshift]

theorem escapeHigh_none (h : 0x80 ≤ b.toNat) :
    escapeHigh b.toNat none = Json.Strings.escape (Surrogates.escape b) := by
  have hbyte : b.toNat < 256 := b.toNat_lt
  have htwo : hex 2 b.toNat = [(b.toNat / 16).digitChar, (b.toNat % 16).digitChar] := by
    rw [hex, Nat.toDigits_of_base_le (by decide) (by omega), Nat.toDigits_of_lt_base (by omega)]
    rfl
  have hescape : Surrogates.escape b = 0xDC00 + b.toNat := rfl
  rw [hescape, ← escapeHigh_some (by omega) 0, escapeHigh, escapeHigh, if_pos (by omega),
    Json.Strings.hex_four (by omega), htwo,
    (by omega : (0xDC00 + b.toNat) / 4096 = 13), (by omega : (0xDC00 + b.toNat) / 256 % 16 = 12),
    (by omega : (0xDC00 + b.toNat) / 16 % 16 = b.toNat / 16),
    (by omega : (0xDC00 + b.toNat) % 16 = b.toNat % 16)]
  rfl

theorem escapeByte_eq (b : UInt8) (rest : List UInt8) :
    escapeByte b rest = match decodeFirst b rest with
      | .ok (c, more) => (Json.Strings.escape c, more)
      | .error _ => (Json.Strings.escape (Surrogates.escape b), 0) := by
  rcases Nat.lt_or_ge b.toNat 0x80 with hascii | hhigh
  · rw [escapeByte_ascii hascii, decodeFirst, if_pos hascii]
  · have hbyte : escapeByte b rest = (escapeHigh b.toNat ((codePoint b.toNat rest).map Prod.fst),
        ((codePoint b.toNat rest).map Prod.snd).getD 0) := by
      rw [escapeByte, if_neg (by omega), if_neg (by omega), if_neg (by omega), if_neg (by omega),
        if_neg (by omega), if_neg (by omega), if_neg (by omega), if_neg (by omega),
        if_neg (by omega)]
    rw [hbyte, codePoint_eq hhigh]
    cases h : decodeFirst b rest with
    | ok found =>
        have hc := (Surrogates.encodePoint_of_decodeFirst h).2.2.2.2 hhigh
        exact congrArg (·, found.2) (escapeHigh_some hc b.toNat)
    | error more => exact congrArg (·, 0) (escapeHigh_none hhigh)

theorem escapeFrom_eq (s : List UInt8) :
    escapeFrom 0 s = (decodeBytes s).flatMap Json.Strings.escape := by
  fun_induction decodeBytes s with
  | case1 => rfl
  | case2 b rest c more h ih =>
      rw [escapeFrom, escapeByte_eq, h, List.flatMap_cons, ← ih, ← escapeFrom_drop]
  | case3 b rest more h ih => rw [escapeFrom, escapeByte_eq, h, List.flatMap_cons, ← ih]

/-- The shell writes what Python writes of the decoded bytes, and the bytes can be read back. -/
theorem jsonString_eq (s : List UInt8) :
    jsonString s = Json.Strings.dumps (Surrogates.decode s) ∧
      (Json.Strings.loads (jsonString s)).bind Surrogates.encode = some s := by
  have hdumps : jsonString s = Json.Strings.dumps (Surrogates.decode s) := by
    rw [jsonString, Json.Strings.dumps, escapeFrom_eq, Surrogates.decode_eq_decodeBytes]
  refine ⟨hdumps, ?_⟩
  have hloads : Json.Strings.loads (Json.Strings.dumps (Surrogates.decode s)) =
      some (Surrogates.decode s) := by
    refine Json.Strings.loads_dumps fun c hc => ?_
    obtain ⟨hlt, hhigh⟩ := Surrogates.decoded_of_mem_decode s c hc
    exact ⟨hlt, decide_eq_false hhigh⟩
  rw [hdumps, hloads]
  exact Surrogates.encode_decode s

end MindOS.Base
