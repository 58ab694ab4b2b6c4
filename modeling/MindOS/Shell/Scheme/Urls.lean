import MindOS.Apps.Entry
import MindOS.Wm.Colors
import MindOS.Wm.Markdown.Basic

/-!
# URLs

## Percent encoding

Names and paths in the URLs of the shell. The decoder cuts two bytes behind a percent sign out of
the text, which can be inside of a character, and has the number parser read them, which knows
signs.
-/

namespace MindOS.Shell

open Text Wm Wm.Config

/-- A digit of `{:02X}`. -/
def upperDigit (n : Nat) : Char :=
  if n < 10 then Char.ofNat ('0'.toNat + n) else Char.ofNat ('A'.toNat + (n - 10))

def percentByte (b : UInt8) : Text :=
  let c := Char.ofNat b.toNat
  if c.isAlphanum ∨ c ∈ ("-_.~" : Text) then [c]
  else ['%', upperDigit (b.toNat / 16), upperDigit (b.toNat % 16)]

def percentEncode (s : Text) : Text := (bytes s).flatMap percentByte

/-- The loop of the decoder, which passes over what it has read. No byte of a character outside
of ASCII is a percent sign or a plus sign, so a character is copied as a whole. To panic is
`none`. -/
def percentDecodeFrom : Nat → Text → Option (List UInt8)
  | _, [] => some []
  | skip + 1, _ :: rest => percentDecodeFrom skip rest
  | 0, c :: rest =>
      if c = '%' ∧ 2 ≤ len rest then
        match takeBytes 2 rest with
        | none => none
        | some digits =>
            match u8FromHex digits with
            | some v => (percentDecodeFrom digits.length rest).map (UInt8.ofNat v :: ·)
            | none => (percentDecodeFrom 0 rest).map (ascii '%' :: ·)
      else if c = '+' then (percentDecodeFrom 0 rest).map (ascii ' ' :: ·)
      else (percentDecodeFrom 0 rest).map (String.utf8EncodeChar c ++ ·)

def percentDecode (s : Text) : Option Text := (percentDecodeFrom 0 s).map fromUtf8Lossy

/-! ### What is to be decoded -/

/-- The bytes of a text, in which a percent sign with two digits stands for a byte, and a plus
sign for `plus`. -/
def denotedBytes (plus : UInt8) : Text → List UInt8
  | '%' :: x :: y :: t =>
      match hexDigit x, hexDigit y with
      | some a, some b => UInt8.ofNat (16 * a + b) :: denotedBytes plus t
      | _, _ => ascii '%' :: denotedBytes plus (x :: y :: t)
  | '+' :: t => plus :: denotedBytes plus t
  | c :: t => String.utf8EncodeChar c ++ denotedBytes plus t
  | [] => []

/-- The second byte of a text is inside of a character. -/
def CutInside : Text → Prop
  | c :: d :: _ => 3 ≤ c.utf8Size ∨ c.utf8Size = 1 ∧ 2 ≤ d.utf8Size
  | [c] => 3 ≤ c.utf8Size
  | [] => False

/-- A text begins with a plus sign and a digit. -/
def Signed : Text → Prop
  | '+' :: d :: _ => (hexDigit d).isSome
  | _ => False

/-- No percent sign stands before a text that cannot be cut there, or that has a sign. -/
def Decodable (s : Text) : Prop := ∀ rest, '%' :: rest <:+ s → ¬CutInside rest ∧ ¬Signed rest

variable {s t rest : Text} {c x y : Char} {a b : Nat}

theorem Decodable.tail (h : Decodable (c :: t)) : Decodable t :=
  fun rest hrest => h rest (hrest.trans (List.suffix_cons c t))

theorem Decodable.drop (h : Decodable s) (ht : t <:+ s) : Decodable t :=
  fun rest hrest => h rest (hrest.trans ht)

theorem hexDigit_of_size (hc : c.utf8Size ≠ 1) : hexDigit c = none := by
  cases h : hexDigit c with
  | none => rfl
  | some v => exact absurd (utf8Size_of_hexDigit h) hc

theorem decode_digits (hx : hexDigit x = some a) (hy : hexDigit y = some b) (t : Text) :
    percentDecodeFrom 0 ('%' :: x :: y :: t) =
      (percentDecodeFrom 0 t).map (UInt8.ofNat (16 * a + b) :: ·) := by
  have hlen : len [x, y] = 2 := len_pair hx hy
  have hcut : takeBytes 2 (x :: y :: t) = some [x, y] := hlen ▸ takeBytes_append [x, y] t
  have hlong : 2 ≤ len (x :: y :: t) := by
    change 2 ≤ len ([x, y] ++ t)
    rw [len_append, hlen]
    exact Nat.le_add_right 2 _
  rw [percentDecodeFrom, if_pos ⟨rfl, hlong⟩, hcut]
  simp only [u8FromHex_digits hx hy]
  rfl

theorem decode_percent (hcut : ¬CutInside rest) (hsigned : ¬Signed rest)
    (hdigits : ∀ x y t, rest = x :: y :: t → hexDigit x = none ∨ hexDigit y = none) :
    percentDecodeFrom 0 ('%' :: rest) = (percentDecodeFrom 0 rest).map (ascii '%' :: ·) := by
  have hother : (if ('%' : Char) = '+' then (percentDecodeFrom 0 rest).map (ascii ' ' :: ·)
      else (percentDecodeFrom 0 rest).map (String.utf8EncodeChar '%' ++ ·)) =
        (percentDecodeFrom 0 rest).map (ascii '%' :: ·) := rfl
  have hread : ∀ p, takeBytes 2 rest = some p → u8FromHex p = none →
      percentDecodeFrom 0 ('%' :: rest) = (percentDecodeFrom 0 rest).map (ascii '%' :: ·) := by
    intro p hp hnone
    rw [percentDecodeFrom, hp]
    simp only [hnone]
    split
    · rfl
    · exact hother
  obtain _ | ⟨x, t⟩ := rest
  · rfl
  have hx := x.utf8Size_pos
  by_cases hone : x.utf8Size = 1
  case neg =>
    -- A character of two bytes is cut out, and is no digit.
    have hsize : x.utf8Size = 2 := by
      have hle : ¬3 ≤ x.utf8Size := by
        cases t with
        | nil => exact hcut
        | cons y t => exact fun h => hcut (.inl h)
      omega
    have hlen : len [x] = 2 := by rw [len_cons, hsize]; rfl
    refine hread [x] (hlen ▸ takeBytes_append [x] t) ?_
    rw [u8FromHex_singleton, hexDigit_of_size hone]
  case pos =>
    obtain _ | ⟨y, t⟩ := t
    · rw [percentDecodeFrom, if_neg (by simp [hone])]
      exact hother
    · have hy := y.utf8Size_pos
      have hsize : y.utf8Size = 1 := by
        have hle : ¬2 ≤ y.utf8Size := fun h => hcut (.inr ⟨hone, h⟩)
        omega
      have hlen : len [x, y] = 2 := by rw [len_cons, len_cons, hone, hsize]; rfl
      refine hread [x, y] (hlen ▸ takeBytes_append [x, y] t) ?_
      by_cases hplus : x = '+'
      · subst hplus
        have hnone : hexDigit y = none := Option.not_isSome_iff_eq_none.mp hsigned
        simp [u8FromHex, hnone]
      · rw [u8FromHex_pair hplus]
        obtain h | h := hdigits x y t rfl
        · rw [h]
          rfl
        · rw [h]
          cases hexDigit x <;> rfl

/-- Without such percent signs, what is decoded are the digits behind percent signs, and a plus
sign is a blank. -/
theorem percentDecodeFrom_eq (h : Decodable s) :
    percentDecodeFrom 0 s = some (denotedBytes (ascii ' ') s) := by
  fun_induction denotedBytes (ascii ' ') s with
  | case1 x y t a b hy hx ih =>
      have ht : t <:+ '%' :: x :: y :: t := ⟨['%', x, y], rfl⟩
      rw [decode_digits hx hy, ih (h.drop ht), Option.map_some]
  | case2 x y t hnone ih =>
      obtain ⟨hcut, hsigned⟩ := h _ (List.suffix_refl _)
      have hdigits : ∀ x' y' t', x :: y :: t = x' :: y' :: t' →
          hexDigit x' = none ∨ hexDigit y' = none := by
        rintro _ _ _ ⟨⟩
        cases hx : hexDigit x with
        | none => exact .inl rfl
        | some a =>
            cases hy : hexDigit y with
            | none => exact .inr rfl
            | some b => exact (hnone a b hx hy).elim
      rw [decode_percent hcut hsigned hdigits, ih h.tail, Option.map_some]
  | case3 t ih =>
      rw [percentDecodeFrom, if_neg (by simp), if_pos rfl, ih h.tail, Option.map_some]
  | case4 c t hthree hplus ih =>
      by_cases hc : c = '%'
      · subst hc
        obtain ⟨hcut, hsigned⟩ := h _ (List.suffix_refl _)
        have hdigits : ∀ x y t', t = x :: y :: t' → hexDigit x = none ∨ hexDigit y = none :=
          fun x y t' ht => (hthree x y t' rfl ht).elim
        rw [decode_percent hcut hsigned hdigits, ih h.tail, Option.map_some]
        rfl
      · rw [percentDecodeFrom, if_neg fun hpercent => hc hpercent.1, if_neg hplus, ih h.tail,
          Option.map_some]
  | case5 => rfl

theorem percentDecode_eq (h : Decodable s) :
    percentDecode s = some (fromUtf8Lossy (denotedBytes (ascii ' ') s)) := by
  rw [percentDecode, percentDecodeFrom_eq h, Option.map_some]

/-! ### Decoding what was encoded -/

theorem hexDigit_upperDigit {n : Nat} (hn : n < 16) : hexDigit (upperDigit n) = some n := by
  revert n
  decide

theorem unreserved_byte (b : UInt8) (h : (Char.ofNat b.toNat).isAlphanum ∨
    Char.ofNat b.toNat ∈ ("-_.~" : Text)) :
    String.utf8EncodeChar (Char.ofNat b.toNat) = [b] ∧ Char.ofNat b.toNat ≠ '%' ∧
      Char.ofNat b.toNat ≠ '+' := by
  have hall : ∀ n < 256, (Char.ofNat n).isAlphanum ∨ Char.ofNat n ∈ ("-_.~" : Text) →
      String.utf8EncodeChar (Char.ofNat n) = [UInt8.ofNat n] ∧ Char.ofNat n ≠ '%' ∧
        Char.ofNat n ≠ '+' := by decide +kernel
  simpa using hall b.toNat b.toNat_lt h

theorem decode_percentByte (b : UInt8) (rest : Text) :
    percentDecodeFrom 0 (percentByte b ++ rest) = (percentDecodeFrom 0 rest).map (b :: ·) := by
  rw [percentByte]
  split
  case isTrue h =>
    obtain ⟨hbyte, hpercent, hplus⟩ := unreserved_byte b h
    rw [List.singleton_append, percentDecodeFrom, if_neg fun h => hpercent h.1, if_neg hplus, hbyte]
    rfl
  case isFalse =>
    have hb := b.toNat_lt
    have hhigh : hexDigit (upperDigit (b.toNat / 16)) = some (b.toNat / 16) :=
      hexDigit_upperDigit (by omega)
    have hlow : hexDigit (upperDigit (b.toNat % 16)) = some (b.toNat % 16) :=
      hexDigit_upperDigit (by omega)
    have hbyte : UInt8.ofNat (16 * (b.toNat / 16) + b.toNat % 16) = b := by
      rw [Nat.div_add_mod, UInt8.ofNat_toNat]
    rw [← hbyte, ← decode_digits hhigh hlow rest, hbyte]
    rfl

theorem decode_percentBytes (bs : List UInt8) (rest : Text) :
    percentDecodeFrom 0 (bs.flatMap percentByte ++ rest) =
      (percentDecodeFrom 0 rest).map (bs ++ ·) := by
  induction bs with
  | nil => simp
  | cons b bs ih =>
      rw [List.flatMap_cons, List.append_assoc, decode_percentByte, ih, Option.map_map]
      rfl

theorem percentDecode_percentEncode (s : Text) : percentDecode (percentEncode s) = some s := by
  have h := decode_percentBytes (bytes s) []
  rw [List.append_nil, percentDecodeFrom, Option.map_some, List.append_nil] at h
  rw [percentDecode, percentEncode, h, Option.map_some, fromUtf8Lossy_bytes]

theorem percentEncode_plain {c : Char} (s : Text) (hc : c ∈ percentEncode s) :
    c ≠ '?' ∧ c ≠ '/' := by
  have hall : ∀ n < 256, ∀ c ∈ percentByte (UInt8.ofNat n), c ≠ '?' ∧ c ≠ '/' := by decide +kernel
  obtain ⟨b, -, hb⟩ := List.mem_flatMap.mp hc
  refine hall b.toNat b.toNat_lt c ?_
  rwa [UInt8.ofNat_toNat]

/-!
## URLs of the shell

The views ask the shell for files by URLs, which it has built itself. A path is the bytes of its
name; what is served for a URL is told by the path in it.
-/

open Text Apps Wm.Markdown

/-- `{ORIGIN}/file/{path}` -/
def fileUrl (path : List UInt8) : Text :=
  "mindos://shell/file/" ++ percentEncode (fromUtf8Lossy path)

/-- `{ORIGIN}/thumb/{path}?w={width}` -/
def thumbUrl (path : List UInt8) (width : Int) : Text :=
  "mindos://shell/thumb/" ++ percentEncode (fromUtf8Lossy path) ++ "?w=" ++ (toString width).toList

/-- Split `mindos://shell/a/b?x=1` into (`/a/b`, `x=1`). -/
def splitUri (uri : Text) : Option (Text × Text) := do
  let rest ← stripPrefix uri "mindos://"
  let (hostpath, query) := (splitOnce rest '?').getD (rest, [])
  let (host, path) :=
    match splitOnce hostpath '/' with
    | some (host, path) => (host, '/' :: path)
    | none => (hostpath, ['/'])
  if host = "shell" then some (path, query) else none

/-- What a URL is served from. -/
inductive Route where
  | app (rel : Text)
  | icon (name query : Text)
  | tray (id : Text)
  | notify (id : Text)
  | file (rest : Text)
  | thumb (rest query : Text)
  | notFound

/-- `serve`, as far as the path says. -/
def route (uri : Text) : Route :=
  match splitUri uri with
  | none => .notFound
  | some (path, query) =>
      match stripPrefix path "/app/" with
      | some rel => .app rel
      | none =>
          if path = "/app" ∨ path = "/" then .app "index.html"
          else match stripPrefix path "/icon/" with
            | some name => .icon name query
            | none => match stripPrefix path "/tray/" with
              | some id => .tray id
              | none => match stripPrefix path "/notify/" with
                | some id => .notify id
                | none => match stripPrefix path "/file/" with
                  | some rest => .file rest
                  | none => match stripPrefix path "/thumb/" with
                    | some rest => .thumb rest query
                    | none => .notFound

/-- The path of the image that is asked for. -/
def Route.image : Route → Option Text
  | .file rest => percentDecode rest
  | .thumb rest _ => percentDecode rest
  | _ => none

/-! ### Splitting what was built -/

variable {path query : Text}

theorem splitUri_plain (hpath : '?' ∉ path) :
    splitUri ("mindos://shell/" ++ path) = some ('/' :: path, []) := by
  have hquery : '?' ∉ "shell".toList ++ '/' :: path := by simp [hpath]
  have hprefix : stripPrefix ("mindos://shell/" ++ path) "mindos://" =
      some ("shell".toList ++ '/' :: path) := by
    rw [← stripPrefix_append "mindos://".toList]
    simp
  rw [splitUri, hprefix]
  simp only [Option.bind_eq_bind, Option.bind_some, splitOnce_none hquery, Option.getD_none,
    splitOnce_append (by decide : '/' ∉ "shell".toList)]
  rfl

theorem splitUri_query (hpath : '?' ∉ path) (query : Text) :
    splitUri ("mindos://shell/" ++ path ++ '?' :: query) = some ('/' :: path, query) := by
  have hquery : '?' ∉ "shell".toList ++ '/' :: path := by simp [hpath]
  have hprefix : stripPrefix ("mindos://shell/" ++ path ++ '?' :: query) "mindos://" =
      some ("shell".toList ++ '/' :: path ++ '?' :: query) := by
    rw [← stripPrefix_append "mindos://".toList]
    simp
  rw [splitUri, hprefix]
  simp only [Option.bind_eq_bind, Option.bind_some, splitOnce_append hquery, Option.getD_some,
    splitOnce_append (by decide : '/' ∉ "shell".toList)]
  rfl

theorem stripPrefix_of_ne {front pat : Text} {c d : Char} {i : Nat} (hpat : pat[i]? = some c)
    (hfront : front[i]? = some d) (hne : c ≠ d) (t : Text) :
    stripPrefix (front ++ t) pat = none := by
  refine stripPrefix_eq_none.mpr fun ⟨rest, hrest⟩ => hne ?_
  have hi : (pat ++ rest)[i]? = (front ++ t)[i]? := congrArg (·[i]?) hrest
  obtain ⟨hp, hpat⟩ := List.getElem?_eq_some_iff.mp hpat
  obtain ⟨hf, hfront⟩ := List.getElem?_eq_some_iff.mp hfront
  rw [List.getElem?_append_left hp, List.getElem?_append_left hf, List.getElem?_eq_getElem hp,
    List.getElem?_eq_getElem hf, hpat, hfront] at hi
  exact Option.some.inj hi

theorem question_not_mem (s : Text) : '?' ∉ percentEncode s :=
  fun h => (percentEncode_plain s h).1 rfl

theorem splitUri_fileUrl (p : Text) :
    splitUri (fileUrl (bytes p)) = some ("/file/" ++ percentEncode p, []) := by
  have hpath : '?' ∉ "file/".toList ++ percentEncode p := by simp [question_not_mem]
  have hurl : fileUrl (bytes p) = "mindos://shell/".toList ++
    ("file/".toList ++ percentEncode p) := by
    unfold fileUrl
    rw [fromUtf8Lossy_bytes]
    simp
  rw [hurl, splitUri_plain hpath]
  simp

theorem splitUri_thumbUrl (p : Text) (width : Int) : splitUri (thumbUrl (bytes p) width) =
    some ("/thumb/" ++ percentEncode p, "w=" ++ (toString width).toList) := by
  have hpath : '?' ∉ "thumb/".toList ++ percentEncode p := by simp [question_not_mem]
  have hurl : thumbUrl (bytes p) width = "mindos://shell/".toList ++
      ("thumb/".toList ++ percentEncode p) ++ '?' :: ("w=".toList ++ (toString width).toList) := by
    unfold thumbUrl
    rw [fromUtf8Lossy_bytes]
    simp
  rw [hurl, splitUri_query hpath]
  simp

theorem route_fileUrl (p : Text) : route (fileUrl (bytes p)) = .file (percentEncode p) := by
  have hother : ∀ pat : Text, pat[1]? ≠ some 'f' → pat[1]?.isSome →
      stripPrefix ("/file/" ++ percentEncode p) pat = none := by
    intro pat hne hsome
    obtain ⟨c, hc⟩ := Option.isSome_iff_exists.mp hsome
    have hfront : "/file/".toList[1]? = some 'f' := rfl
    exact stripPrefix_of_ne hc hfront (fun h => hne (h ▸ hc)) _
  have hlong : ¬("/file/".toList ++ percentEncode p = "/app".toList ∨
      "/file/".toList ++ percentEncode p = "/".toList) := by
    simp
  unfold route
  rw [splitUri_fileUrl]
  simp only [hother "/app/" (by decide) rfl, if_neg hlong, hother "/icon/" (by decide) rfl,
    hother "/tray/" (by decide) rfl, hother "/notify/" (by decide) rfl, stripPrefix_append]

theorem route_thumbUrl (p : Text) (width : Int) : route (thumbUrl (bytes p) width) =
    .thumb (percentEncode p) ("w=" ++ (toString width).toList) := by
  have hother : ∀ pat : Text, pat[2]? ≠ some 'h' → pat[2]?.isSome →
      stripPrefix ("/thumb/" ++ percentEncode p) pat = none := by
    intro pat hne hsome
    obtain ⟨c, hc⟩ := Option.isSome_iff_exists.mp hsome
    have hfront : "/thumb/".toList[2]? = some 'h' := rfl
    exact stripPrefix_of_ne hc hfront (fun h => hne (h ▸ hc)) _
  have hlong : ¬("/thumb/".toList ++ percentEncode p = "/app".toList ∨
      "/thumb/".toList ++ percentEncode p = "/".toList) := by
    simp
  unfold route
  rw [splitUri_thumbUrl]
  simp only [hother "/app/" (by decide) rfl, if_neg hlong, hother "/icon/" (by decide) rfl,
    hother "/tray/" (by decide) rfl, hother "/notify/" (by decide) rfl,
    hother "/file/" (by decide) rfl, stripPrefix_append]

/-- Where no percent sign stands before a sign or a character that is cut, the digits behind
percent signs are decoded, a plus sign is a blank, and everything else is kept. What was encoded is
decoded, and the path of a URL is the one that it was built for, if it is text. -/
theorem percent_faithful :
    (∀ s, Decodable s → percentDecode s = some (fromUtf8Lossy (denotedBytes (ascii ' ') s))) ∧
      (∀ s, percentDecode (percentEncode s) = some s) ∧
        ∀ (p : Text) (width : Int), (route (fileUrl (bytes p))).image = some p ∧
          (route (thumbUrl (bytes p) width)).image = some p := by
  refine ⟨fun s h => percentDecode_eq h, percentDecode_percentEncode, fun p width => ⟨?_, ?_⟩⟩
  · rw [route_fileUrl]
    exact percentDecode_percentEncode p
  · rw [route_thumbUrl]
    exact percentDecode_percentEncode p

theorem percent_faithful_text :
    percentDecode "a+b%41" = some (fromUtf8Lossy (denotedBytes (ascii ' ') "a+b%41")) := by
  refine percent_faithful.1 _ fun rest h => ?_
  obtain ⟨front, hfront⟩ := h
  obtain rfl : rest = "41".toList := by
    obtain _ | ⟨c₁, _ | ⟨c₂, _ | ⟨c₃, _ | ⟨c₄, _ | ⟨c₅, _ | ⟨c₆, front⟩⟩⟩⟩⟩⟩ := front <;>
      simp_all
  have hcut : ¬(3 ≤ '4'.utf8Size ∨ '4'.utf8Size = 1 ∧ 2 ≤ '1'.utf8Size) := by decide
  exact ⟨hcut, id⟩

/-- A plus sign is not kept, and a path that is no text is not given back. -/
theorem not_all_kept :
    ¬((∀ s, percentDecode s = some (fromUtf8Lossy (denotedBytes (ascii '+') s))) ∧
      (∀ s, percentDecode (percentEncode s) = some s) ∧
        ∀ (path : List UInt8) (width : Int),
          ((route (fileUrl path)).image.map bytes = some path) ∧
            (route (thumbUrl path width)).image.map bytes = some path) := by
  rintro ⟨hplus, -⟩
  have h : percentDecode "+" = some ['+'] := hplus "+"
  exact absurd h (by decide)

/-- A path that is no text is not given back either. -/
example : (route (fileUrl [0x2F, 0xFF])).image.map bytes ≠ some [0x2F, 0xFF] := by decide +kernel

-- To cut a character panics.
example : percentDecode "%aé" = none := by decide +kernel

end MindOS.Shell
