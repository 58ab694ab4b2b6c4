import MindOS.Wm.Prefs.Basic
import MindOS.Text.Ends

/-!
# Colours in the configuration

A colour is written as `#rgb`, `#rrggbb` or `#rrggbbaa`. The text is cut at byte offsets, which
can be inside a character, and each piece is read by the number parser, which knows signs.
-/

namespace MindOS.Wm

open Text

/-- A colour by its channels. -/
structure Rgba (F : Type) where
  r : F
  g : F
  b : F
  a : F
  deriving DecidableEq

def Rgba.map {F G : Type} (f : F → G) (c : Rgba F) : Rgba G := ⟨f c.r, f c.g, f c.b, f c.a⟩

namespace Config

/-- `u8::from_str_radix(&s[i..i + n], 16).ok()`, where the slice can panic. -/
def hex (s : Text) (i n : Nat) : OptionT Option Nat := OptionT.mk ((slice s i n).map u8FromHex)

/-- The bytes of `#rgb`, `#rrggbb` or `#rrggbbaa`. To panic is the outer `none`. -/
def channels (s : Text) : OptionT Option (Rgba Nat) :=
  let s := trimStartMatches (trim s) "#"
  match len s with
  | 3 => do
      let r ← hex s 0 1
      let g ← hex s 1 1
      let b ← hex s 2 1
      return ⟨r * 17, g * 17, b * 17, 255⟩
  | 6 => do
      let r ← hex s 0 2
      let g ← hex s 2 2
      let b ← hex s 4 2
      return ⟨r, g, b, 255⟩
  | 8 => do
      let r ← hex s 0 2
      let g ← hex s 2 2
      let b ← hex s 4 2
      let a ← hex s 6 2
      return ⟨r, g, b, a⟩
  | _ => OptionT.mk (some none)

variable {F : Type}

/-- The colour, of which `share` gives what a byte is of 255 in single precision. -/
def parseColor (share : Nat → F) (s : Text) : OptionT Option (Rgba F) := do
  let c ← channels s
  return c.map share

/-! ## What is to be read -/

/-- The bytes that three, six or eight digits stand for. -/
def denoted : List Nat → Option (Rgba Nat)
  | [r, g, b] => some ⟨16 * r + r, 16 * g + g, 16 * b + b, 255⟩
  | [r₁, r₀, g₁, g₀, b₁, b₀] => some ⟨16 * r₁ + r₀, 16 * g₁ + g₀, 16 * b₁ + b₀, 255⟩
  | [r₁, r₀, g₁, g₀, b₁, b₀, a₁, a₀] =>
      some ⟨16 * r₁ + r₀, 16 * g₁ + g₀, 16 * b₁ + b₀, 16 * a₁ + a₀⟩
  | _ => none

/-- A text is digits of a colour, after one `#` or none. -/
def Spells (t : Text) (c : Rgba Nat) : Prop :=
  ∃ body digits, (t = body ∨ t = '#' :: body) ∧ body.map hexDigit = digits.map some ∧
    denoted digits = some c

/-- A colour is read, without a panic, if and only if there is one. -/
def ReadsRight (share : Nat → F) (s : Text) : Prop :=
  ∃ result, (parseColor share s).run = some result ∧
    ∀ c, result = some c ↔ ∃ bytes, Spells (trim s) bytes ∧ c = bytes.map share

/-- The text after the bytes of an offset begins inside a character. -/
def EndsInside (n : Nat) (t : Text) : Prop :=
  ∃ front c rest, t = front ++ c :: rest ∧ len front < n ∧ n < len front + c.utf8Size

/-- A piece of the given size that the number parser reads. -/
def Number (n : Nat) (piece : Text) : Prop := len piece = n ∧ (u8FromHex piece).isSome = true

/-- The bytes of a piece of a text that is to be a colour. -/
def pieceSize (t : Text) : Option Nat :=
  match len t with
  | 3 => some 1
  | 6 => some 2
  | 8 => some 2
  | _ => none

/-- The text, without what is trimmed off it, is as long as a colour; and after pieces that are
numbers one ends inside a character, or all are numbers and there is a sign or a second `#`. -/
def Misleads (s : Text) : Prop :=
  let t := trimStartMatches (trim s) "#"
  ∃ n, pieceSize t = some n ∧
    ((∃ (pieces : List Text) (rest : Text), t = pieces.flatten ++ rest ∧
        (∀ p ∈ pieces, Number n p) ∧ EndsInside n rest) ∨
      ∃ pieces : List Text, t = pieces.flatten ∧ (∀ p ∈ pieces, Number n p) ∧
        ('+' ∈ t ∨ ['#', '#'] <+: trim s))

/-! ## Slices -/

/-- The text has so many bytes, and either they end between two characters or inside one. -/
theorem takeBytes_cases {n : Nat} {t : Text} (h : n ≤ len t) :
    (∃ p rest, t = p ++ rest ∧ len p = n ∧ takeBytes n t = some p) ∨
      EndsInside n t ∧ takeBytes n t = none := by
  induction t generalizing n with
  | nil =>
      obtain rfl : n = 0 := Nat.le_zero.mp h
      exact .inl ⟨[], [], rfl, rfl, rfl⟩
  | cons c t ih =>
      cases n with
      | zero => exact .inl ⟨[], c :: t, rfl, rfl, rfl⟩
      | succ n =>
          rw [len_cons] at h
          by_cases hc : c.utf8Size ≤ n + 1
          · obtain ⟨p, rest, rfl, hp, htake⟩ | ⟨⟨front, d, rest, rfl, hlow, hhigh⟩, htake⟩ :=
              ih (n := n + 1 - c.utf8Size) (by omega)
            · refine .inl ⟨c :: p, rest, rfl, by rw [len_cons]; omega, ?_⟩
              rw [takeBytes, if_pos hc, htake]
              rfl
            · refine .inr ⟨⟨c :: front, d, rest, rfl, ?_, ?_⟩, ?_⟩
              · rw [len_cons]
                omega
              · rw [len_cons]
                omega
              · rw [takeBytes, if_pos hc, htake]
                rfl
          · exact .inr ⟨⟨[], c, t, rfl, n.succ_pos, by rw [len_nil]; omega⟩, if_neg hc⟩

theorem takeBytes_of_endsInside {n : Nat} {t : Text} (h : EndsInside n t) :
    takeBytes n t = none := by
  obtain ⟨front, c, rest, rfl, hlow, hhigh⟩ := h
  obtain ⟨n, rfl⟩ := Nat.exists_eq_succ_of_ne_zero (Nat.ne_of_gt (Nat.zero_lt_of_lt hlow))
  induction front generalizing n with
  | nil => exact if_neg (by rw [len_nil] at hhigh; omega)
  | cons d front ih =>
      rw [len_cons] at hlow hhigh
      obtain ⟨k, hk⟩ := Nat.exists_eq_succ_of_ne_zero (by omega : n + 1 - d.utf8Size ≠ 0)
      rw [List.cons_append, takeBytes, if_pos (by omega), hk, ih k (by omega) (by omega)]
      rfl

/-! ## Piece by piece -/

/-- Numbers of `n` bytes each, from an offset on. -/
def readFrom (s : Text) (n : Nat) : Nat → Nat → OptionT Option (List Nat)
  | _, 0 => pure []
  | i, m + 1 => do
      let v ← hex s i n
      let vs ← readFrom s n (i + n) m
      return v :: vs

/-- The same, where the rest of the text is known. -/
def readPieces (n : Nat) : Nat → Text → Option (Option (List Nat))
  | 0, _ => some (some [])
  | m + 1, t =>
      (takeBytes n t).bind fun p =>
        match u8FromHex p with
        | none => some none
        | some v => (readPieces n m (t.drop p.length)).map (·.map (v :: ·))

/-- The bytes of a colour from the numbers that its pieces are. -/
def assembled (n : Nat) : List Nat → Option (Rgba Nat)
  | [r, g, b] => some (if n = 1 then ⟨r * 17, g * 17, b * 17, 255⟩ else ⟨r, g, b, 255⟩)
  | [r, g, b, a] => some ⟨r, g, b, a⟩
  | _ => none

variable {s p t : Text} {n m v : Nat} {vs : List Nat} {pieces : List Text}

theorem run_hex_append (p t : Text) (n : Nat) :
    (hex (p ++ t) (len p) n).run = (takeBytes n t).map u8FromHex := by
  rw [hex, slice, dropBytes_append]
  rfl

theorem run_readFrom_append (p : Text) (h : n * m ≤ len t) :
    (readFrom (p ++ t) n (len p) m).run = readPieces n m t := by
  induction m generalizing p t with
  | zero => rfl
  | succ m ih =>
      rw [Nat.mul_succ] at h
      rw [readFrom, OptionT.run_bind, run_hex_append, readPieces]
      obtain ⟨q, rest, rfl, hq, htake⟩ | ⟨-, htake⟩ := takeBytes_cases (n := n) (t := t) (by omega)
      · rw [htake]
        have hrest := ih (t := rest) (p ++ q) (by rw [len_append] at h; omega)
        rw [List.append_assoc, len_append, hq] at hrest
        cases hv : u8FromHex q with
        | none =>
            simp only [Option.map_some, Option.bind_some, hv]
            rfl
        | some v =>
            simp only [Option.map_some, Option.bind_some, hv, List.drop_left]
            show (readFrom (p ++ (q ++ rest)) n (len p + n) m >>= fun vs => pure (v :: vs)).run = _
            rw [OptionT.run_bind, hrest]
            rcases readPieces n m rest with _ | _ | vs <;> rfl
      · rw [htake]
        rfl

theorem channels_eq (hn : pieceSize (trimStartMatches (trim s) "#") = some n) :
    channels s = readFrom (trimStartMatches (trim s) "#") n 0
      (len (trimStartMatches (trim s) "#") / n) >>= fun vs =>
          OptionT.mk (some (assembled n vs)) := by
  generalize ht : trimStartMatches (trim s) "#" = t at hn
  rw [channels, ht]
  unfold pieceSize at hn
  split at hn
  case h_1 hlen =>
    obtain rfl := Option.some.inj hn
    simp only [hlen, readFrom, bind_assoc, pure_bind]
    rfl
  case h_2 hlen =>
    obtain rfl := Option.some.inj hn
    simp only [hlen, readFrom, bind_assoc, pure_bind]
    rfl
  case h_3 hlen =>
    obtain rfl := Option.some.inj hn
    simp only [hlen, readFrom, bind_assoc, pure_bind]
    rfl
  case h_4 => cases hn

theorem channels_of_none (hn : pieceSize (trimStartMatches (trim s) "#") = none) :
    channels s = OptionT.mk (some none) := by
  unfold pieceSize at hn
  dsimp only [channels]
  split at hn
  case h_4 => rfl
  all_goals cases hn

theorem run_channels (hn : pieceSize (trimStartMatches (trim s) "#") = some n) :
    (channels s).run = (readPieces n (len (trimStartMatches (trim s) "#") / n)
      (trimStartMatches (trim s) "#")).map (·.bind (assembled n)) := by
  have hread := run_readFrom_append (t := trimStartMatches (trim s) "#") [] (Nat.mul_div_le _ n)
  rw [channels_eq hn, OptionT.run_bind]
  rw [List.nil_append, len_nil] at hread
  rw [hread]
  rcases readPieces _ _ _ with _ | _ | vs <;> rfl

theorem readPieces_flatten (rest : Text) (k : Nat) (hpieces : pieces.map u8FromHex = vs.map some)
    (hlen : ∀ q ∈ pieces, len q = n) : readPieces n (pieces.length + k) (pieces.flatten ++ rest) =
      (readPieces n k rest).map (·.map (vs ++ ·)) := by
  induction pieces generalizing vs with
  | nil =>
      obtain rfl : vs = [] := by simpa using hpieces
      simp
  | cons q pieces ih =>
      obtain _ | ⟨v, vs⟩ := vs
      · cases hpieces
      obtain ⟨hq, hpieces⟩ := List.cons.inj hpieces
      have hrest := ih hpieces fun r hr => hlen r (List.mem_cons_of_mem q hr)
      rw [List.length_cons, Nat.add_right_comm, readPieces, List.flatten_cons, List.append_assoc,
        ← hlen q List.mem_cons_self, takeBytes_append, Option.bind_some, hq]
      simp only [List.drop_left]
      rw [hlen q List.mem_cons_self, hrest]
      rcases readPieces n k rest with _ | _ | ws <;> rfl

/-- A text is read up to a piece that ends inside a character, or to one that is no number, or
as a whole. -/
theorem readPieces_cases (h : len t = n * m) :
    (readPieces n m t = none ∧ ∃ (pieces : List Text) (rest : Text), t = pieces.flatten ++ rest ∧
        (∀ p ∈ pieces, Number n p) ∧ EndsInside n rest) ∨
      readPieces n m t = some none ∨
      ∃ (vs : List Nat) (pieces : List Text), readPieces n m t = some (some vs) ∧
        t = pieces.flatten ∧ pieces.length = m ∧ pieces.map u8FromHex = vs.map some ∧
        ∀ p ∈ pieces, Number n p := by
  induction m generalizing t with
  | zero =>
      obtain rfl : t = [] := by
        cases t with
        | nil => rfl
        | cons c t =>
            have hpos := c.utf8Size_pos
            rw [len_cons] at h
            omega
      exact .inr (.inr ⟨[], [], rfl, rfl, rfl, rfl, fun _ hp => absurd hp List.not_mem_nil⟩)
  | succ m ih =>
      rw [Nat.mul_succ] at h
      rw [readPieces]
      obtain ⟨q, rest, rfl, hq, htake⟩ | ⟨hinside, htake⟩ :=
        takeBytes_cases (n := n) (t := t) (by omega)
      · rw [htake, Option.bind_some]
        cases hv : u8FromHex q with
        | none => exact .inr (.inl rfl)
        | some v =>
            have hnumber : Number n q := ⟨hq, by rw [hv]; rfl⟩
            simp only [List.drop_left]
            obtain ⟨hnone, pieces, tail, rfl, hpieces, hinside⟩ | hnone |
                ⟨vs, pieces, hsome, rfl, hlength, hvs, hpieces⟩ :=
              ih (t := rest) (by rw [len_append] at h; omega)
            · refine .inl ⟨by rw [hnone]; rfl, q :: pieces, tail, ?_, ?_, hinside⟩
              · rw [List.flatten_cons, List.append_assoc]
              · exact List.forall_mem_cons.mpr ⟨hnumber, hpieces⟩
            · exact .inr (.inl (by rw [hnone]; rfl))
            · refine .inr (.inr ⟨v :: vs, q :: pieces, by rw [hsome]; rfl, rfl, ?_, ?_, ?_⟩)
              · rw [List.length_cons, hlength]
              · rw [List.map_cons, hv, hvs, List.map_cons]
              · exact List.forall_mem_cons.mpr ⟨hnumber, hpieces⟩
      · rw [htake]
        exact .inl ⟨rfl, [], t, rfl, fun _ hp => absurd hp List.not_mem_nil, hinside⟩

/-! ## Digits and signs -/

variable {c d : Char} {a b : Nat} {body : Text} {digits : List Nat} {bytes : Rgba Nat}

theorem hexDigit_lt (h : hexDigit c = some v) : v < 16 := by
  unfold hexDigit at h
  split at h
  case isTrue hc =>
    have hnine : c.toNat ≤ 57 := hc.2
    obtain rfl := Option.some.inj h
    have hzero : '0'.toNat = 48 := rfl
    omega
  case isFalse =>
    split at h
    case isTrue hc =>
      have hf : c.toNat ≤ 102 := hc.2
      obtain rfl := Option.some.inj h
      have ha : 'a'.toNat = 97 := rfl
      omega
    case isFalse =>
      obtain ⟨hc, h⟩ := Option.ite_none_right_eq_some.mp h
      have hf : c.toNat ≤ 70 := hc.2
      obtain rfl := Option.some.inj h
      have ha : 'A'.toNat = 65 := rfl
      omega

theorem hexDigit_ascii (h : hexDigit c = some v) : c.toNat < 128 := by
  by_contra hlarge
  have hout : ∀ x y : Char, y.toNat < 128 → ¬(x ≤ c ∧ c ≤ y) := fun x y hy hc =>
    hlarge (Nat.lt_of_le_of_lt hc.2 hy)
  rw [hexDigit, if_neg (hout _ _ (by decide)), if_neg (hout _ _ (by decide)),
    if_neg (hout _ _ (by decide))] at h
  cases h

theorem utf8Size_of_hexDigit (h : hexDigit c = some v) : c.utf8Size = 1 := by
  have hascii : c.val.toNat ≤ 127 := Nat.le_of_lt_succ (hexDigit_ascii h)
  exact if_pos hascii

theorem ne_of_hexDigit (h : hexDigit c = some v) : c ≠ '#' ∧ c ≠ '+' := by
  constructor
  · rintro rfl
    rw [show hexDigit '#' = none from rfl] at h
    cases h
  · rintro rfl
    rw [show hexDigit '+' = none from rfl] at h
    cases h

theorem u8FromHex_of_ne (hc : c ≠ '+') (t : Text) : u8FromHex (c :: t) =
    ((c :: t).foldlM (fun n c => (hexDigit c).map (16 * n + ·)) 0).filter (· < 256) := by
  unfold u8FromHex
  split
  next heq => exact absurd (List.cons.inj heq).1 hc
  next => rw [if_neg (List.cons_ne_nil c t)]

theorem u8FromHex_singleton (c : Char) : u8FromHex [c] = hexDigit c := by
  by_cases hc : c = '+'
  · subst hc
    rfl
  · rw [u8FromHex_of_ne hc, List.foldlM_cons]
    cases h : hexDigit c with
    | none => rfl
    | some v =>
        have hlt := hexDigit_lt h
        have hsmall : decide (v < 256) = true := decide_eq_true (by omega)
        simp [hsmall]

theorem u8FromHex_pair (hc : c ≠ '+') (d : Char) : u8FromHex [c, d] =
    (hexDigit c).bind fun a => (hexDigit d).map (16 * a + ·) := by
  rw [u8FromHex_of_ne hc, List.foldlM_cons]
  cases hfirst : hexDigit c with
  | none => rfl
  | some a =>
      cases hlast : hexDigit d with
      | none => simp [hlast]
      | some b =>
          have ha := hexDigit_lt hfirst
          have hb := hexDigit_lt hlast
          have hsmall : decide (16 * a + b < 256) = true := decide_eq_true (by omega)
          simp [hlast, hsmall]

theorem number_one (h : Number 1 p) : ∃ c v, p = [c] ∧ hexDigit c = some v := by
  obtain ⟨hlen, hsome⟩ := h
  obtain _ | ⟨c, _ | ⟨d, p⟩⟩ := p
  · cases hlen
  · rw [u8FromHex_singleton] at hsome
    obtain ⟨v, hv⟩ := Option.isSome_iff_exists.mp hsome
    exact ⟨c, v, rfl, hv⟩
  · have hc := c.utf8Size_pos
    have hd := d.utf8Size_pos
    rw [len_cons, len_cons] at hlen
    omega

theorem number_two (h : Number 2 p) (hplus : '+' ∉ p) :
    ∃ c d a b, p = [c, d] ∧ hexDigit c = some a ∧ hexDigit d = some b := by
  obtain ⟨hlen, hsome⟩ := h
  obtain _ | ⟨c, _ | ⟨d, _ | ⟨e, p⟩⟩⟩ := p
  · cases hlen
  · -- one character of two bytes is no digit
    rw [u8FromHex_singleton] at hsome
    obtain ⟨v, hv⟩ := Option.isSome_iff_exists.mp hsome
    rw [len_cons, utf8Size_of_hexDigit hv] at hlen
    cases hlen
  · rw [u8FromHex_pair (List.ne_of_not_mem_cons hplus).symm] at hsome
    obtain ⟨v, hv⟩ := Option.isSome_iff_exists.mp hsome
    obtain ⟨a, ha, hv⟩ := Option.bind_eq_some_iff.mp hv
    obtain ⟨b, hb, -⟩ := Option.map_eq_some_iff.mp hv
    exact ⟨c, d, a, b, rfl, ha, hb⟩
  · have hc := c.utf8Size_pos
    have hd := d.utf8Size_pos
    have he := e.utf8Size_pos
    rw [len_cons, len_cons, len_cons] at hlen
    omega

/-! ## The leading `#` -/

theorem trimStartMatches_go {n : Nat} (h : t.length ≤ n) :
    trimStartMatches.go "#" n t = t.dropWhile (· == '#') := by
  induction n generalizing t with
  | zero =>
      obtain rfl := List.length_eq_zero_iff.mp (Nat.le_zero.mp h)
      rfl
  | succ n ih =>
      rw [trimStartMatches.go]
      cases t with
      | nil => rfl
      | cons c t =>
          by_cases hc : c = '#'
          · subst hc
            have hstart : Text.startsWith ('#' :: t) "#" = true := by
              simp [startsWith_iff]
            rw [if_pos hstart, List.dropWhile_cons_of_pos (by rfl)]
            exact ih (Nat.le_of_succ_le_succ h)
          · have hstart : ¬Text.startsWith (c :: t) "#" = true := by
              simp [startsWith_iff, Ne.symm hc]
            rw [if_neg hstart, List.dropWhile_cons_of_neg (by simpa using hc)]

theorem trimStartMatches_eq (t : Text) :
    trimStartMatches t "#" = t.dropWhile (· == '#') := trimStartMatches_go (le_refl _)

theorem dropWhile_of_digits (ht : t = body ∨ t = '#' :: body)
    (hbody : body.map hexDigit = digits.map some) :
    t.dropWhile (· == '#') = body ∧ ¬['#', '#'] <+: t := by
  have hhead : ∀ c rest, body = c :: rest → c ≠ '#' := by
    rintro c rest rfl
    obtain _ | ⟨v, vs⟩ := digits
    · cases hbody
    · exact (ne_of_hexDigit (List.cons.inj hbody).1).1
  have hdrop : body.dropWhile (· == '#') = body := by
    cases body with
    | nil => rfl
    | cons c rest => exact List.dropWhile_cons_of_neg (by simpa using hhead c rest rfl)
  obtain rfl | rfl := ht
  · refine ⟨hdrop, fun htwo => ?_⟩
    obtain ⟨rest, hrest⟩ := htwo
    exact hhead '#' ('#' :: rest) hrest.symm rfl
  · refine ⟨by rw [List.dropWhile_cons_of_pos (by rfl), hdrop], fun htwo => ?_⟩
    obtain ⟨rest, hrest⟩ := htwo
    exact hhead '#' rest (List.cons.inj hrest).2.symm rfl

theorem eq_or_eq_cons_of_not_two (h : ¬['#', '#'] <+: t) :
    t = t.dropWhile (· == '#') ∨ t = '#' :: t.dropWhile (· == '#') := by
  obtain _ | ⟨c, t⟩ := t
  · exact .inl rfl
  · by_cases hc : c = '#'
    · subst hc
      right
      rw [List.dropWhile_cons_of_pos (by rfl)]
      cases t with
      | nil => rfl
      | cons d t =>
          have hd : d ≠ '#' := by
            rintro rfl
            exact h ⟨t, rfl⟩
          rw [List.dropWhile_cons_of_neg (by simpa using hd)]
    · left
      rw [List.dropWhile_cons_of_neg (by simpa using hc)]

/-! ## When a colour is read right -/

theorem pieceSize_cases (h : pieceSize t = some n) :
    0 < n ∧ ∃ m, len t = n * m ∧ (n = 1 ∧ m = 3 ∨ n = 2 ∧ (m = 3 ∨ m = 4)) := by
  unfold pieceSize at h
  split at h
  case h_1 hlen => exact Option.some.inj h ▸ ⟨by decide, 3, hlen, by decide⟩
  case h_2 hlen => exact Option.some.inj h ▸ ⟨by decide, 3, hlen, by decide⟩
  case h_3 hlen => exact Option.some.inj h ▸ ⟨by decide, 4, hlen, by decide⟩
  case h_4 => cases h

theorem len_flatten (h : ∀ q ∈ pieces, len q = n) : len pieces.flatten = n * pieces.length := by
  induction pieces with
  | nil => rfl
  | cons q pieces ih =>
      rw [List.flatten_cons, len_append, h q List.mem_cons_self,
        ih fun r hr => h r (List.mem_cons_of_mem q hr), List.length_cons, Nat.mul_succ,
          Nat.add_comm]

theorem run_channels_of_pieces (hn : pieceSize (trimStartMatches (trim s) "#") = some n)
    (ht : trimStartMatches (trim s) "#" = pieces.flatten)
    (hvs : pieces.map u8FromHex = vs.map some) (hlen : ∀ q ∈ pieces, len q = n) :
    (channels s).run = some (assembled n vs) := by
  obtain ⟨hpos, -⟩ := pieceSize_cases hn
  have hread := readPieces_flatten [] 0 hvs hlen
  rw [run_channels hn, ht, len_flatten hlen, Nat.mul_div_cancel_left _ hpos]
  rw [List.append_nil, Nat.add_zero] at hread
  rw [hread]
  simp [readPieces]

theorem len_of_digits (h : body.map hexDigit = digits.map some) : len body = digits.length := by
  induction body generalizing digits with
  | nil =>
      obtain rfl : digits = [] := by simpa using h.symm
      rfl
  | cons c body ih =>
      obtain _ | ⟨v, digits⟩ := digits
      · cases h
      obtain ⟨hc, h⟩ := List.cons.inj h
      rw [len_cons, utf8Size_of_hexDigit hc, ih h, List.length_cons, Nat.add_comm]

theorem plus_not_mem_of_digits (h : body.map hexDigit = digits.map some) : '+' ∉ body := by
  intro hmem
  have hnone : none ∈ digits.map some := h ▸ List.mem_map_of_mem (f := hexDigit) hmem
  simp at hnone

theorem u8FromHex_digits (hc : hexDigit c = some a) (hd : hexDigit d = some b) :
    u8FromHex [c, d] = some (16 * a + b) := by
  rw [u8FromHex_pair (ne_of_hexDigit hc).2, hc, Option.bind_some, hd]
  rfl

theorem len_pair (hc : hexDigit c = some a) (hd : hexDigit d = some b) : len [c, d] = 2 := by
  rw [len_cons, len_cons, utf8Size_of_hexDigit hc, utf8Size_of_hexDigit hd]
  rfl

/-- The numbers that pairs of digits stand for. -/
def pairs : List Nat → List Nat
  | a :: b :: digits => (16 * a + b) :: pairs digits
  | _ => []

theorem exists_pieces_one (h : body.map hexDigit = digits.map some) :
    ∃ pieces : List Text, body = pieces.flatten ∧ pieces.map u8FromHex = digits.map some ∧
      ∀ q ∈ pieces, len q = 1 := by
  induction body generalizing digits with
  | nil => exact ⟨[], rfl, h, fun _ hq => absurd hq List.not_mem_nil⟩
  | cons c body ih =>
      obtain _ | ⟨v, digits⟩ := digits
      · cases h
      obtain ⟨hc, h⟩ := List.cons.inj h
      obtain ⟨pieces, rfl, hpieces, hlen⟩ := ih h
      refine ⟨[c] :: pieces, rfl, ?_, List.forall_mem_cons.mpr ⟨?_, hlen⟩⟩
      · rw [List.map_cons, u8FromHex_singleton, hc, hpieces, List.map_cons]
      · rw [len_cons, utf8Size_of_hexDigit hc]
        rfl

theorem exists_pieces_two (h : body.map hexDigit = digits.map some)
    (heven : digits.length = 2 * m) :
    ∃ pieces : List Text, body = pieces.flatten ∧ pieces.map u8FromHex = (pairs digits).map some ∧
      ∀ q ∈ pieces, len q = 2 := by
  induction m generalizing body digits with
  | zero =>
      obtain rfl := List.length_eq_zero_iff.mp heven
      obtain rfl := List.map_eq_nil_iff.mp h
      exact ⟨[], rfl, rfl, fun _ hq => absurd hq List.not_mem_nil⟩
  | succ m ih =>
      obtain _ | ⟨a, _ | ⟨b, digits⟩⟩ := digits
      · cases heven
      · rw [List.length_singleton] at heven
        omega
      obtain ⟨c, rest, rfl, hc, h⟩ := List.map_eq_cons_iff.mp h
      obtain ⟨d, rest, rfl, hd, h⟩ := List.map_eq_cons_iff.mp h
      obtain ⟨pieces, rfl, hpieces, hlen⟩ := ih h (by simpa [Nat.mul_succ] using heven)
      refine ⟨[c, d] :: pieces, rfl, ?_, List.forall_mem_cons.mpr ⟨len_pair hc hd, hlen⟩⟩
      rw [List.map_cons, u8FromHex_digits hc hd, hpieces, pairs, List.map_cons]

theorem exists_digits (hn : n = 1 ∨ n = 2) (hpieces : ∀ q ∈ pieces, Number n q)
    (hplus : '+' ∉ pieces.flatten) : ∃ digits : List Nat,
        pieces.flatten.map hexDigit = digits.map some ∧
      digits.length = n * pieces.length := by
  induction pieces with
  | nil => exact ⟨[], rfl, rfl⟩
  | cons q pieces ih =>
      obtain ⟨hq, hpieces⟩ := List.forall_mem_cons.mp hpieces
      rw [List.flatten_cons, List.mem_append, not_or] at hplus
      obtain ⟨rest, hrest, hlength⟩ := ih hpieces hplus.2
      suffices hfirst : ∃ first : List Nat, q.map hexDigit = first.map some ∧ first.length = n by
        obtain ⟨first, hfirst, hn⟩ := hfirst
        refine ⟨first ++ rest, ?_, ?_⟩
        · rw [List.flatten_cons, List.map_append, hfirst, hrest, List.map_append]
        · rw [List.length_append, List.length_cons, Nat.mul_succ, hlength, hn, Nat.add_comm]
      obtain rfl | rfl := hn
      · obtain ⟨c, v, rfl, hv⟩ := number_one hq
        exact ⟨[v], by simp [hv], rfl⟩
      · obtain ⟨c, d, a, b, rfl, ha, hb⟩ := number_two hq hplus.1
        exact ⟨[a, b], by simp [ha, hb], rfl⟩

theorem length_of_denoted (h : denoted digits = some bytes) :
    digits.length = 3 ∨ digits.length = 6 ∨ digits.length = 8 := by
  unfold denoted at h
  split at h
  · exact .inl rfl
  · exact .inr (.inl rfl)
  · exact .inr (.inr rfl)
  · cases h

theorem exists_denoted (digits : List Nat)
    (h : digits.length = 3 ∨ digits.length = 6 ∨ digits.length = 8) :
    ∃ bytes, denoted digits = some bytes := by
  rcases digits with _ | ⟨a, _ | ⟨b, _ | ⟨c, _ | ⟨d, _ | ⟨e, _ | ⟨f, _ | ⟨g, _ | ⟨k, rest⟩⟩⟩⟩⟩⟩⟩⟩
  case cons.cons.cons.nil => exact ⟨_, rfl⟩
  case cons.cons.cons.cons.cons.cons.nil => exact ⟨_, rfl⟩
  case cons.cons.cons.cons.cons.cons.cons.cons =>
    obtain rfl : rest = [] := List.length_eq_zero_iff.mp (by simpa using h)
    exact ⟨_, rfl⟩
  all_goals simp at h

theorem assembled_one (h : denoted digits = some bytes) (hlength : digits.length = 3) :
    assembled 1 digits = some bytes := by
  obtain ⟨r, g, b, rfl⟩ := List.length_eq_three.mp hlength
  rw [← h, assembled, denoted, if_pos rfl]
  congr 2 <;> omega

theorem assembled_two (h : denoted digits = some bytes) (hlength : digits.length ≠ 3) :
    assembled 2 (pairs digits) = some bytes := by
  unfold denoted at h
  split at h
  · exact absurd rfl hlength
  · exact h
  · exact h
  · cases h

theorem channels_of_spells (h : Spells (trim s) bytes) :
    (∃ n, pieceSize (trimStartMatches (trim s) "#") = some n) ∧
      (channels s).run = some (some bytes) ∧
      '+' ∉ trimStartMatches (trim s) "#" ∧ ¬['#', '#'] <+: trim s := by
  obtain ⟨body, digits, ht, hbody, hbytes⟩ := h
  obtain ⟨hdrop, htwo⟩ := dropWhile_of_digits ht hbody
  have hlen := len_of_digits hbody
  have htext : trimStartMatches (trim s) "#" = body := (trimStartMatches_eq _).trans hdrop
  have hsize := length_of_denoted hbytes
  by_cases hthree : digits.length = 3
  · obtain ⟨pieces, hpieces, hvs, hone⟩ := exists_pieces_one hbody
    have hn : pieceSize (trimStartMatches (trim s) "#") = some 1 := by
      rw [htext, pieceSize, hlen, hthree]
      rfl
    refine ⟨⟨1, hn⟩, ?_, htext ▸ plus_not_mem_of_digits hbody, htwo⟩
    rw [run_channels_of_pieces hn (htext.trans hpieces) hvs hone, assembled_one hbytes hthree]
  · have heven : digits.length = 2 * (digits.length / 2) := by omega
    obtain ⟨pieces, hpieces, hvs, htwos⟩ := exists_pieces_two hbody heven
    have hn : pieceSize (trimStartMatches (trim s) "#") = some 2 := by
      rw [htext, pieceSize, hlen]
      obtain hsix | height := hsize.resolve_left hthree
      · rw [hsix]
        rfl
      · rw [height]
        rfl
    refine ⟨⟨2, hn⟩, ?_, htext ▸ plus_not_mem_of_digits hbody, htwo⟩
    rw [run_channels_of_pieces hn (htext.trans hpieces) hvs htwos, assembled_two hbytes hthree]

theorem spells_of_pieces (hn : pieceSize (trimStartMatches (trim s) "#") = some n)
    (ht : trimStartMatches (trim s) "#" = pieces.flatten) (hpieces : ∀ q ∈ pieces, Number n q)
    (hplus : '+' ∉ trimStartMatches (trim s) "#") (htwo : ¬['#', '#'] <+: trim s) :
    ∃ bytes, Spells (trim s) bytes := by
  have hbody := eq_or_eq_cons_of_not_two htwo
  rw [← trimStartMatches_eq, ht] at hbody
  obtain ⟨hpos, m, hm, hsize⟩ := pieceSize_cases hn
  rw [ht, len_flatten fun q hq => (hpieces q hq).1] at hm
  obtain ⟨digits, hdigits, hlength⟩ := exists_digits (by omega) hpieces (ht ▸ hplus)
  rw [hm] at hlength
  obtain ⟨bytes, hbytes⟩ := exists_denoted digits (by
    obtain ⟨rfl, rfl⟩ | ⟨rfl, rfl | rfl⟩ := hsize <;> omega)
  exact ⟨bytes, _, digits, hbody, hdigits, hbytes⟩

theorem run_parseColor (share : Nat → F) (s : Text) :
    (parseColor share s).run = (channels s).run.map (·.map (Rgba.map share)) := by
  rw [parseColor, OptionT.run_bind]
  rcases (channels s).run with _ | _ | c <;> rfl

theorem exists_numbers (h : ∀ q ∈ pieces, Number n q) :
    ∃ vs : List Nat, pieces.map u8FromHex = vs.map some := by
  induction pieces with
  | nil => exact ⟨[], rfl⟩
  | cons q pieces ih =>
      obtain ⟨hq, hpieces⟩ := List.forall_mem_cons.mp h
      obtain ⟨v, hv⟩ := Option.isSome_iff_exists.mp hq.2
      obtain ⟨vs, hvs⟩ := ih hpieces
      exact ⟨v :: vs, by rw [List.map_cons, hv, hvs, List.map_cons]⟩

theorem len_lt_of_endsInside (h : EndsInside n t) : n < len t := by
  obtain ⟨front, c, rest, rfl, -, hhigh⟩ := h
  rw [len_append, len_cons]
  omega

theorem run_channels_of_endsInside {rest : Text}
    (hn : pieceSize (trimStartMatches (trim s) "#") = some n)
    (ht : trimStartMatches (trim s) "#" = pieces.flatten ++ rest)
    (hpieces : ∀ q ∈ pieces, Number n q) (hinside : EndsInside n rest) :
    (channels s).run = none := by
  obtain ⟨hpos, m, hm, -⟩ := pieceSize_cases hn
  obtain ⟨vs, hvs⟩ := exists_numbers hpieces
  have hsize : ∀ q ∈ pieces, len q = n := fun q hq => (hpieces q hq).1
  have hlong := len_lt_of_endsInside hinside
  have hmore : pieces.length < m := by
    rw [ht, len_append, len_flatten hsize] at hm
    exact Nat.lt_of_mul_lt_mul_left (a := n) (by omega)
  obtain ⟨k, rfl⟩ := Nat.exists_eq_add_of_lt hmore
  rw [run_channels hn, hm, Nat.mul_div_cancel_left _ hpos, ht, Nat.add_assoc,
    readPieces_flatten rest (k + 1) hvs hsize, readPieces, takeBytes_of_endsInside hinside]
  rfl

theorem run_channels_of_numbers (hn : pieceSize (trimStartMatches (trim s) "#") = some n)
    (ht : trimStartMatches (trim s) "#" = pieces.flatten) (hpieces : ∀ q ∈ pieces, Number n q) :
    ∃ bytes, (channels s).run = some (some bytes) := by
  obtain ⟨hpos, m, hm, hsize⟩ := pieceSize_cases hn
  obtain ⟨vs, hvs⟩ := exists_numbers hpieces
  have hlen : ∀ q ∈ pieces, len q = n := fun q hq => (hpieces q hq).1
  rw [ht, len_flatten hlen] at hm
  have hlength : vs.length = m := by
    rw [← Nat.eq_of_mul_eq_mul_left hpos hm, ← List.length_map (f := some), ← hvs,
      List.length_map]
  rw [run_channels_of_pieces hn ht hvs hlen]
  obtain hthree | hfour : m = 3 ∨ m = 4 := by omega
  · obtain ⟨a, b, c, rfl⟩ := List.length_eq_three.mp (hlength.trans hthree)
    exact ⟨_, rfl⟩
  · rcases vs with _ | ⟨a, _ | ⟨b, _ | ⟨c, _ | ⟨d, _ | ⟨e, vs⟩⟩⟩⟩⟩
    case cons.cons.cons.cons.nil => exact ⟨_, rfl⟩
    all_goals
      simp only [List.length_cons, List.length_nil] at hlength
      omega

/-- A colour is read right exactly if the text does not mislead. -/
theorem readsRight_iff (share : Nat → F) (s : Text) : ReadsRight share s ↔ ¬Misleads s := by
  rw [ReadsRight, run_parseColor]
  constructor
  · rintro ⟨result, hresult, hright⟩
      ⟨n, hn, ⟨pieces, rest, ht, hpieces, hinside⟩ | ⟨pieces, ht, hpieces, hwrong⟩⟩
    · rw [run_channels_of_endsInside hn ht hpieces hinside] at hresult
      cases hresult
    · obtain ⟨bytes, hbytes⟩ := run_channels_of_numbers hn ht hpieces
      rw [hbytes] at hresult
      obtain ⟨other, hspells, -⟩ := (hright _).mp (Option.some.inj hresult).symm
      obtain ⟨-, -, hplus, htwo⟩ := channels_of_spells hspells
      exact hwrong.elim hplus htwo
  · intro h
    by_cases hspells : ∃ bytes, Spells (trim s) bytes
    · obtain ⟨bytes, hspells⟩ := hspells
      have hrun := (channels_of_spells hspells).2.1
      refine ⟨some (bytes.map share), by rw [hrun]; rfl, fun c => ⟨fun hc => ?_, ?_⟩⟩
      · exact ⟨bytes, hspells, (Option.some.inj hc).symm⟩
      · rintro ⟨other, hother, rfl⟩
        have hsame := hrun.symm.trans (channels_of_spells hother).2.1
        rw [Option.some.inj (Option.some.inj hsame)]
    · suffices hnone : (channels s).run = some none by
        refine ⟨none, by rw [hnone]; rfl, fun c => ⟨fun hc => (nomatch hc), ?_⟩⟩
        rintro ⟨bytes, hbytes, -⟩
        exact absurd ⟨bytes, hbytes⟩ hspells
      cases hn : pieceSize (trimStartMatches (trim s) "#") with
      | none =>
          rw [channels_of_none hn]
          rfl
      | some n =>
          obtain ⟨hpos, m, hm, -⟩ := pieceSize_cases hn
          rw [run_channels hn, hm, Nat.mul_div_cancel_left _ hpos]
          obtain ⟨-, pieces, rest, ht, hpieces, hinside⟩ | hnone |
            ⟨vs, pieces, hsome, ht, -, -, hpieces⟩ := readPieces_cases hm
          · exact absurd ⟨n, hn, .inl ⟨pieces, rest, ht, hpieces, hinside⟩⟩ h
          · rw [hnone]
            rfl
          · have hclean : ∀ hwrong, False := fun hwrong =>
              h ⟨n, hn, .inr ⟨pieces, ht, hpieces, hwrong⟩⟩
            exact absurd (spells_of_pieces hn ht hpieces (fun hplus => hclean (.inl hplus))
              fun htwo => hclean (.inr htwo)) hspells

/-- The bytes of three letters end inside the first one of `é`. -/
theorem not_always_right : ¬∀ (F : Type) (share : Nat → F) (s : Text), ReadsRight share s := by
  intro h
  obtain ⟨result, hresult, -⟩ := h Nat id "#é0".toList
  have hpanic : (parseColor (id : Nat → Nat) "#é0".toList).run = none := by decide
  cases hpanic.symm.trans hresult

end Config

end MindOS.Wm
