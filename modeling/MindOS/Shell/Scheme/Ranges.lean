import MindOS.Apps.Entry
import MindOS.Wm.Markdown.Basic

/-!
# Ranges of media files

A player asks for a part of a file by one range of bytes. The answer is computed in 64 bits from
the size of the file, and the broker computes the length of what it sends again.
-/

namespace MindOS.Shell

open Text Apps Wm.Markdown

/-! ## The range of a request -/

/-- The number that a text of digits stands for. -/
def number (t : Text) : Nat := t.foldl (fun n c => 10 * n + (c.toNat - '0'.toNat)) 0

/-- `str::parse::<u64>`, which takes a plus sign before the digits. -/
def parseU64 (t : Text) : Option UInt64 :=
  let digits := if t.head? = some '+' then t.tail else t
  if digits ≠ [] ∧ digits.all Char.isDigit ∧ number digits < 2 ^ 64 then
    some (UInt64.ofNat (number digits))
  else none

def saturatingSub (a b : UInt64) : UInt64 := if a < b then 0 else a - b

/-- `i64::MAX` -/
def maxSize : UInt64 := 0x7FFFFFFFFFFFFFFF

/-- The first and the last byte, by what stands around the dash. -/
def rangeOfParts (size : UInt64) (first last : Text) : Option (UInt64 × UInt64) :=
  if first.isEmpty then
    (parseU64 last).bind fun suffix =>
      if suffix > 0 then some (saturatingSub size suffix, size - 1) else none
  else
    (parseU64 first).bind fun start =>
      (if last.isEmpty then some (size - 1) else (parseU64 last).map (min · (size - 1))).bind
        fun stop => if start ≤ stop ∧ start < size then some (start, stop) else none

/-- The first and the last byte that are asked for. -/
def mediaRange (range : Option Text) (size : UInt64) : Option (UInt64 × UInt64) :=
  if size = 0 ∨ size > maxSize then none
  else match range with
    | none => some (0, size - 1)
    | some range =>
        (stripPrefix range "bytes=").bind fun rest =>
          (splitOnce rest '-').bind fun (first, last) => rangeOfParts size first last

/-! ## The broker -/

/-- An open file. Its length is a signed number of 64 bits. -/
structure MediaFile where
  bytes : List UInt8
  mime : Text
  fits : bytes.length < 2 ^ 63

def MediaFile.size (f : MediaFile) : UInt64 := UInt64.ofNat f.bytes.length

structure MediaRequest where
  method : Text
  token : Text
  range : Option Text

/-- What is written to the stream. -/
structure MediaReply where
  head : Text
  body : List UInt8 := []
  deriving DecidableEq

/-- The lines that `read_line` gives. -/
def rawLines (t : Text) : List Text :=
  let pieces := t.splitOnP (· == '\n')
  pieces.dropLast.map (· ++ ['\n']) ++ (pieces.getLast?.filter (!·.isEmpty)).toList

/-- The value of the last range header before the empty line. -/
def readRange (range : Option Text) : List Text → Option Text
  | [] => range
  | line :: lines =>
      if line = "\r\n" then range
      else match splitOnce line ':' with
        | some (name, value) =>
            if eqIgnoreAsciiCase name "Range" then readRange (some (trim value)) lines
            else readRange range lines
        | none => readRange range lines

def MediaRequest.read (t : Text) : MediaRequest :=
  let lines := rawLines t
  let parts := words (lines.headD [])
  { method := parts.headD []
    token := trimStartMatches (parts.tail.headD []) "/"
    range := readRange none lines.tail }

def decimal64 (n : UInt64) : Text := Nat.toDigits 10 n.toNat

/-- An answer without a body. -/
def refusal (status more : Text) : MediaReply where
  head := "HTTP/1.1 " ++ status ++ "\r\n" ++ more ++
    "Content-Length: 0\r\nConnection: close\r\n\r\n"

/-- What is written before the bytes. -/
def mediaHead (status mime length : Text) : Text :=
  "HTTP/1.1 " ++ status ++ "\r\nContent-Type: " ++ mime ++ "\r\nContent-Length: " ++ length ++
    "\r\nAccept-Ranges: bytes\r\nAccess-Control-Allow-Origin: *\r\nCache-Control: no-store\r\n" ++
    "Connection: close\r\n"

def contentRange (start stop size : Text) : Text :=
  "Content-Range: bytes " ++ start ++ "-" ++ stop ++ "/" ++ size ++ "\r\n"

/-- The answer to a request; `files` opens what has been registered under a token. -/
def MediaRequest.reply (files : Text → Option MediaFile) (r : MediaRequest) : MediaReply :=
  if r.method ∉ (["GET", "HEAD"] : List Text) then refusal "405 Method Not Allowed" []
  else match files r.token with
    | none => refusal "404 Not Found" []
    | some file =>
        match mediaRange r.range file.size with
        | none => refusal "416 Range Not Satisfiable"
            ("Content-Range: bytes */" ++ decimal64 file.size ++ "\r\n")
        | some (start, stop) =>
            let status := if r.range.isSome then "206 Partial Content".toList else "200 OK"
            { head := mediaHead status file.mime (decimal64 (stop - start + 1)) ++
                (if r.range.isSome then
                  contentRange (decimal64 start) (decimal64 stop) (decimal64 file.size) else []) ++
                "\r\n"
              body := if r.method = "GET" then
                  (file.bytes.drop start.toNat).take (stop - start + 1).toNat
                else [] }

/-- `serve`, for what has been read of a request. -/
def serveMedia (files : Text → Option MediaFile) (t : Text) : MediaReply :=
  (MediaRequest.read t).reply files

/-! ## What a header asks for -/

/-- `1*DIGIT`, and its value. -/
structure Digits (t : Text) (n : Nat) : Prop where
  nonempty : t ≠ []
  digits : ∀ c ∈ t, c.isDigit = true
  value : number t = n

/-- A range of bytes. -/
inductive ByteRange where
  /-- From a byte on. -/
  | from (first : Nat)
  | between (first last : Nat)
  /-- So many bytes at the end. -/
  | suffix (length : Nat)

namespace ByteRange

/-- `byte-range-spec / suffix-byte-range-spec`; a last byte before the first one is invalid. -/
inductive Spelled : Text → ByteRange → Prop where
  | from {t : Text} {n : Nat} : Digits t n → Spelled (t ++ ['-']) (.from n)
  | between {t u : Text} {n m : Nat} : Digits t n → Digits u m → n ≤ m →
      Spelled (t ++ '-' :: u) (.between n m)
  | suffix {t : Text} {n : Nat} : Digits t n → Spelled ('-' :: t) (.suffix n)

/-- The bytes that a range denotes of so many, if it can be satisfied. -/
def denoted (size : Nat) : ByteRange → Option (Nat × Nat)
  | .from n => if n < size then some (n, size - 1) else none
  | .between n m => if n < size then some (n, min m (size - 1)) else none
  | .suffix k => if 0 < k ∧ 0 < size then some (size - k, size - 1) else none

def numbers : ByteRange → List Nat
  | .from n => [n]
  | .between n m => [n, m]
  | .suffix n => [n]

end ByteRange

/-- `OWS` -/
def Blank (t : Text) : Prop := ∀ c ∈ t, c = ' ' ∨ c = '\t'

/-- Empty elements of a list before one that is not, `*( "," OWS )`. -/
inductive EmptyBefore : Text → Prop where
  | nil : EmptyBefore []
  | cons {ws t : Text} : Blank ws → EmptyBefore t → EmptyBefore (',' :: ws ++ t)

/-- Empty elements of a list behind one that is not, `*( OWS "," )`. -/
inductive EmptyBehind : Text → Prop where
  | nil : EmptyBehind []
  | cons {ws t : Text} : Blank ws → EmptyBehind t → EmptyBehind (ws ++ ',' :: t)

/-- A header whose set of ranges is a single one, by the grammar: the unit in any case, and among
empty elements of the list. -/
def Single (header : Text) (r : ByteRange) : Prop :=
  ∃ unit front t back, header = unit ++ '=' :: front ++ t ++ back ∧
    eqIgnoreAsciiCase unit "bytes" = true ∧ EmptyBefore front ∧ EmptyBehind back ∧ r.Spelled t

/-- A header that is a single range and nothing else. -/
def Asks (header : Text) (r : ByteRange) : Prop := ∃ t, header = "bytes=" ++ t ∧ r.Spelled t

/-- A number with a plus sign. -/
def PlusSigned (t : Text) : Prop := ∃ digits n, t = '+' :: digits ∧ Digits digits n

/-- No number of a header has a plus sign, and all fit into 64 bits. -/
structure Unsigned (header : Text) : Prop where
  unsigned : ∀ first last, header = "bytes=" ++ first ++ '-' :: last →
    ¬PlusSigned first ∧ ¬PlusSigned last
  fits : ∀ r, Asks header r → ∀ n ∈ r.numbers, n < 2 ^ 64

/-! ## Numbers -/

variable {t u header : Text} {n m : Nat} {v size a b : UInt64} {r : ByteRange}

theorem Digits.ne_plus (h : Digits t n) (rest : Text) : t ≠ '+' :: rest := by
  rintro rfl
  exact absurd (h.digits '+' List.mem_cons_self) (by decide)

theorem Digits.dash_not_mem (h : Digits t n) : '-' ∉ t :=
  fun hmem => absurd (h.digits '-' hmem) (by decide)

theorem parseU64_plain (h : ∀ rest, t ≠ '+' :: rest) : parseU64 t =
    if t ≠ [] ∧ t.all Char.isDigit ∧ number t < 2 ^ 64 then some (UInt64.ofNat (number t))
    else none := by
  have hhead : ¬t.head? = some '+' := by
    cases t with
    | nil => exact fun h => nomatch h
    | cons c t => exact fun hc => h t (by rw [Option.some.inj hc])
  rw [parseU64, if_neg hhead]

theorem parseU64_digits (h : Digits t n) (hn : n < 2 ^ 64) :
    parseU64 t = some (UInt64.ofNat n) := by
  have hall : t.all Char.isDigit = true := List.all_eq_true.mpr h.digits
  rw [parseU64_plain h.ne_plus, h.value, if_pos ⟨h.nonempty, hall, hn⟩]

theorem digits_of_parseU64 (h : parseU64 t = some v) (hsign : ¬PlusSigned t) :
    Digits t v.toNat := by
  have hdigits : ∀ digits : Text, (if digits ≠ [] ∧ digits.all Char.isDigit ∧ number digits < 2 ^ 64
      then some (UInt64.ofNat (number digits)) else none) = some v → Digits digits v.toNat := by
    intro digits h
    obtain ⟨⟨hne, hall, hlt⟩, hv⟩ := Option.ite_none_right_eq_some.mp h
    obtain rfl := Option.some.inj hv
    refine ⟨hne, List.all_eq_true.mp hall, ?_⟩
    rw [UInt64.toNat_ofNat', Nat.mod_eq_of_lt hlt]
  by_cases hplus : ∃ rest, t = '+' :: rest
  · obtain ⟨rest, rfl⟩ := hplus
    exact absurd ⟨rest, v.toNat, rfl, hdigits rest h⟩ hsign
  · rw [parseU64_plain fun rest ht => hplus ⟨rest, ht⟩] at h
    exact hdigits t h

/-! ## The parser -/

theorem maxSize_toNat : maxSize.toNat = 2 ^ 63 - 1 := rfl

theorem mediaRange_parts (hdash : '-' ∉ t) (hzero : size ≠ 0) (hsize : size.toNat < 2 ^ 63)
    (last : Text) :
    mediaRange (some ("bytes=" ++ (t ++ '-' :: last))) size = rangeOfParts size t last := by
  have hsmall : ¬(size = 0 ∨ size > maxSize) := by
    rintro (h | h)
    · exact hzero h
    · have hlt : maxSize.toNat < size.toNat := UInt64.lt_iff_toNat_lt.mp h
      rw [maxSize_toNat] at hlt
      omega
  rw [mediaRange, if_neg hsmall]
  simp only [stripPrefix_append, splitOnce_append hdash, Option.bind_some]

theorem parts_of_mediaRange (h : mediaRange (some header) size = some (a, b)) :
    ∃ first last, header = "bytes=" ++ (first ++ '-' :: last) ∧ size ≠ 0 ∧ size.toNat < 2 ^ 63 ∧
      rangeOfParts size first last = some (a, b) := by
  rw [mediaRange] at h
  split at h
  case isTrue => cases h
  case isFalse hsize =>
    obtain ⟨rest, hrest, h⟩ := Option.bind_eq_some_iff.mp h
    obtain ⟨⟨first, last⟩, hparts, h⟩ := Option.bind_eq_some_iff.mp h
    obtain ⟨hzero, hbig⟩ := not_or.mp hsize
    have hle : size.toNat ≤ maxSize.toNat :=
      Nat.le_of_not_lt fun h => hbig (UInt64.lt_iff_toNat_lt.mpr h)
    rw [maxSize_toNat] at hle
    refine ⟨first, last, ?_, hzero, by omega, h⟩
    rw [← splitOnce_eq_some hparts]
    exact stripPrefix_eq_some.mp hrest

/-! ## Arithmetic in 64 bits -/

theorem saturatingSub_toNat (a b : UInt64) : (saturatingSub a b).toNat = a.toNat - b.toNat := by
  rw [saturatingSub]
  split
  case isTrue h =>
    have hlt := UInt64.lt_iff_toNat_lt.mp h
    exact (Nat.sub_eq_zero_of_le hlt.le).symm
  case isFalse h => exact UInt64.toNat_sub_of_le _ _ (UInt64.not_lt.mp h)

theorem pred_toNat (h : size ≠ 0) : (size - 1).toNat = size.toNat - 1 := by
  have hpos : size.toNat ≠ 0 := fun hzero => h (UInt64.toNat_inj.mp hzero)
  exact UInt64.toNat_sub_of_le _ _ (UInt64.le_iff_toNat_le.mpr (Nat.one_le_iff_ne_zero.mpr hpos))

theorem min_toNat (a b : UInt64) : (min a b).toNat = min a.toNat b.toNat := by
  change (if a ≤ b then a else b).toNat = _
  split
  case isTrue h => exact (Nat.min_eq_left (UInt64.le_iff_toNat_le.mp h)).symm
  case isFalse h =>
    rw [UInt64.le_iff_toNat_le] at h
    exact (Nat.min_eq_right (Nat.le_of_not_le h)).symm

/-! ## What is answered -/

theorem asks_of_rangeOfParts (hzero : size ≠ 0) (hu : ¬PlusSigned t) (hv : ¬PlusSigned u)
    (h : rangeOfParts size t u = some (a, b)) :
    ∃ r : ByteRange, r.Spelled (t ++ '-' :: u) ∧
      r.denoted size.toNat = some (a.toNat, b.toNat) := by
  have hpos : 0 < size.toNat := Nat.pos_of_ne_zero fun h => hzero (UInt64.toNat_inj.mp h)
  rw [rangeOfParts] at h
  split at h
  case isTrue hempty =>
    obtain rfl := List.isEmpty_iff.mp hempty
    obtain ⟨v, hread, h⟩ := Option.bind_eq_some_iff.mp h
    obtain ⟨hlarge, hab⟩ := Option.ite_none_right_eq_some.mp h
    obtain ⟨rfl, rfl⟩ := Prod.mk.inj (Option.some.inj hab)
    have hlarge : 0 < v.toNat := UInt64.lt_iff_toNat_lt.mp hlarge
    refine ⟨.suffix v.toNat, .suffix (digits_of_parseU64 hread hv), ?_⟩
    rw [ByteRange.denoted, if_pos ⟨hlarge, hpos⟩, saturatingSub_toNat, pred_toNat hzero]
  case isFalse =>
    obtain ⟨start, hstart, h⟩ := Option.bind_eq_some_iff.mp h
    obtain ⟨stop, hstop, h⟩ := Option.bind_eq_some_iff.mp h
    obtain ⟨⟨hle, hlt⟩, hab⟩ := Option.ite_none_right_eq_some.mp h
    obtain ⟨rfl, rfl⟩ := Prod.mk.inj (Option.some.inj hab)
    have hfirst := digits_of_parseU64 hstart hu
    have hlt : start.toNat < size.toNat := UInt64.lt_iff_toNat_lt.mp hlt
    split at hstop
    case isTrue hempty =>
      obtain rfl := List.isEmpty_iff.mp hempty
      obtain rfl := Option.some.inj hstop
      refine ⟨.from start.toNat, .from hfirst, ?_⟩
      rw [ByteRange.denoted, if_pos hlt, pred_toNat hzero]
    case isFalse =>
      obtain ⟨v, hread, rfl⟩ := Option.map_eq_some_iff.mp hstop
      have hmin : start.toNat ≤ min v.toNat (size.toNat - 1) := by
        rw [← pred_toNat hzero, ← min_toNat]
        exact UInt64.le_iff_toNat_le.mp hle
      refine ⟨.between start.toNat v.toNat, .between hfirst (digits_of_parseU64 hread hv)
        (hmin.trans (Nat.min_le_left _ _)), ?_⟩
      rw [ByteRange.denoted, if_pos hlt, min_toNat, pred_toNat hzero]

theorem mediaRange_of_asks (hsize : size.toNat < 2 ^ 63) (hfits : ∀ n ∈ r.numbers, n < 2 ^ 64)
    (hasks : Asks header r) (h : r.denoted size.toNat = some (a.toNat, b.toNat)) :
    mediaRange (some header) size = some (a, b) := by
  have hnat : ∀ {n : Nat}, n < 2 ^ 64 → (UInt64.ofNat n).toNat = n := fun hn => by
    rw [UInt64.toNat_ofNat', Nat.mod_eq_of_lt hn]
  have hpair : ∀ {x y : UInt64}, x.toNat = a.toNat → y.toNat = b.toNat →
      some (x, y) = some (a, b) := fun hx hy => by
    rw [UInt64.toNat_inj.mp hx, UInt64.toNat_inj.mp hy]
  have hzero : 0 < size.toNat → size ≠ 0 := by
    rintro hpos rfl
    exact absurd hpos (Nat.lt_irrefl 0)
  obtain ⟨t, rfl, hspelled⟩ := hasks
  cases hspelled with
  | @«from» t n ht =>
      have hn : n < 2 ^ 64 := hfits n List.mem_cons_self
      obtain ⟨hlt, hab⟩ := Option.ite_none_right_eq_some.mp h
      obtain ⟨ha, hb⟩ := Prod.mk.inj (Option.some.inj hab)
      have hsize' := hzero (Nat.zero_lt_of_lt hlt)
      have hin : UInt64.ofNat n ≤ size - 1 ∧ UInt64.ofNat n < size := by
        rw [UInt64.le_iff_toNat_le, UInt64.lt_iff_toNat_lt, pred_toNat hsize', hnat hn]
        omega
      rw [mediaRange_parts ht.dash_not_mem hsize' hsize, rangeOfParts,
        if_neg (by simp [ht.nonempty]),
        parseU64_digits ht hn, Option.bind_some, if_pos List.isEmpty_nil, Option.bind_some,
        if_pos hin]
      exact hpair ((hnat hn).trans ha) ((pred_toNat hsize').trans hb)
  | @between t u n m ht hu hle =>
      have hn : n < 2 ^ 64 := hfits n List.mem_cons_self
      have hm : m < 2 ^ 64 := hfits m (List.mem_cons_of_mem _ List.mem_cons_self)
      obtain ⟨hlt, hab⟩ := Option.ite_none_right_eq_some.mp h
      obtain ⟨ha, hb⟩ := Prod.mk.inj (Option.some.inj hab)
      have hsize' := hzero (Nat.zero_lt_of_lt hlt)
      have hmin : (min (UInt64.ofNat m) (size - 1)).toNat = min m (size.toNat - 1) := by
        rw [min_toNat, pred_toNat hsize', hnat hm]
      have hin : UInt64.ofNat n ≤ min (UInt64.ofNat m) (size - 1) ∧ UInt64.ofNat n < size := by
        rw [UInt64.le_iff_toNat_le, UInt64.lt_iff_toNat_lt, hmin, hnat hn]
        omega
      rw [mediaRange_parts ht.dash_not_mem hsize' hsize, rangeOfParts,
        if_neg (by simp [ht.nonempty]),
        parseU64_digits ht hn, Option.bind_some, if_neg (by simp [hu.nonempty]),
        parseU64_digits hu hm, Option.map_some, Option.bind_some, if_pos hin]
      exact hpair ((hnat hn).trans ha) (hmin.trans hb)
  | @suffix t n ht =>
      have hn : n < 2 ^ 64 := hfits n List.mem_cons_self
      obtain ⟨⟨hpos, hsome⟩, hab⟩ := Option.ite_none_right_eq_some.mp h
      obtain ⟨ha, hb⟩ := Prod.mk.inj (Option.some.inj hab)
      have hsize' := hzero hsome
      have hlarge : UInt64.ofNat n > 0 := by
        refine UInt64.lt_iff_toNat_lt.mpr ?_
        rw [hnat hn]
        exact hpos
      have hparts := mediaRange_parts (t := []) List.not_mem_nil hsize' hsize t
      rw [List.nil_append] at hparts
      rw [hparts, rangeOfParts, if_pos List.isEmpty_nil, parseU64_digits ht hn, Option.bind_some,
        if_pos hlarge]
      exact hpair ((saturatingSub_toNat _ _).trans ((hnat hn).symm ▸ ha))
        ((pred_toNat hsize').trans hb)

/-- A header whose numbers are digits that fit is answered exactly if it is a single range that can
be satisfied, with the bytes that it denotes. -/
theorem mediaRange_iff (h : Unsigned header) (size a b : UInt64) :
    mediaRange (some header) size = some (a, b) ↔
      size.toNat < 2 ^ 63 ∧ ∃ r, Asks header r ∧
        r.denoted size.toNat = some (a.toNat, b.toNat) := by
  constructor
  · intro hrange
    obtain ⟨first, last, rfl, hzero, hsize, hparts⟩ := parts_of_mediaRange hrange
    obtain ⟨hfirst, hlast⟩ := h.unsigned first last (List.append_assoc _ _ _).symm
    obtain ⟨r, hspelled, hdenoted⟩ := asks_of_rangeOfParts hzero hfirst hlast hparts
    exact ⟨hsize, r, ⟨_, rfl, hspelled⟩, hdenoted⟩
  · rintro ⟨hsize, r, hasks, hdenoted⟩
    exact mediaRange_of_asks hsize (h.fits r hasks) hasks hdenoted

/-! ## What is sent -/

variable {range : Option Text} {files : Text → Option MediaFile} {file : MediaFile}

theorem mediaRange_bounds (h : mediaRange range size = some (a, b)) :
    a.toNat ≤ b.toNat ∧ b.toNat < size.toNat := by
  have hpred : size ≠ 0 → (size - 1).toNat < size.toNat := by
    intro hzero
    have hpos : size.toNat ≠ 0 := fun h => hzero (UInt64.toNat_inj.mp h)
    rw [pred_toNat hzero]
    omega
  cases range with
  | none =>
      rw [mediaRange] at h
      split at h
      case isTrue => cases h
      case isFalse hsize =>
        obtain ⟨rfl, rfl⟩ := Prod.mk.inj (Option.some.inj h)
        exact ⟨Nat.zero_le _, hpred (not_or.mp hsize).1⟩
  | some header =>
      obtain ⟨first, last, -, hzero, -, hparts⟩ := parts_of_mediaRange h
      rw [rangeOfParts] at hparts
      split at hparts
      case isTrue =>
        obtain ⟨v, -, hparts⟩ := Option.bind_eq_some_iff.mp hparts
        obtain ⟨hlarge, hab⟩ := Option.ite_none_right_eq_some.mp hparts
        obtain ⟨rfl, rfl⟩ := Prod.mk.inj (Option.some.inj hab)
        have hlarge : 0 < v.toNat := UInt64.lt_iff_toNat_lt.mp hlarge
        refine ⟨?_, hpred hzero⟩
        rw [saturatingSub_toNat, pred_toNat hzero]
        omega
      case isFalse =>
        obtain ⟨start, -, hparts⟩ := Option.bind_eq_some_iff.mp hparts
        obtain ⟨stop, hstop, hparts⟩ := Option.bind_eq_some_iff.mp hparts
        obtain ⟨⟨hle, -⟩, hab⟩ := Option.ite_none_right_eq_some.mp hparts
        obtain ⟨rfl, rfl⟩ := Prod.mk.inj (Option.some.inj hab)
        refine ⟨UInt64.le_iff_toNat_le.mp hle, ?_⟩
        split at hstop
        case isTrue =>
          obtain rfl := Option.some.inj hstop
          exact hpred hzero
        case isFalse =>
          obtain ⟨v, -, rfl⟩ := Option.map_eq_some_iff.mp hstop
          rw [min_toNat]
          exact (Nat.min_le_right _ _).trans_lt (hpred hzero)

theorem length_toNat (hab : a.toNat ≤ b.toNat) (hb : b.toNat < size.toNat) :
    (b - a + 1).toNat = b.toNat - a.toNat + 1 := by
  have hsub : (b - a).toNat = b.toNat - a.toNat :=
    UInt64.toNat_sub_of_le _ _ (UInt64.le_iff_toNat_le.mpr hab)
  have hsize := size.toNat_lt
  rw [UInt64.toNat_add, hsub, show (1 : UInt64).toNat = 1 from rfl, Nat.mod_eq_of_lt (by omega)]

theorem MediaFile.size_toNat (f : MediaFile) : f.size.toNat = f.bytes.length := by
  rw [size, UInt64.toNat_ofNat', Nat.mod_eq_of_lt (f.fits.trans (by decide))]

/-- The bytes of a file from one to another. -/
def MediaFile.part (f : MediaFile) (a b : Nat) : List UInt8 := (f.bytes.drop a).take (b - a + 1)

theorem MediaFile.length_part (f : MediaFile) {a b : Nat} (hab : a ≤ b) (hb : b < f.bytes.length) :
    (f.part a b).length = b - a + 1 := by
  rw [part, List.length_take, List.length_drop]
  omega

/-- What is sent for a range: its length and its place in the file, and its bytes where they are
asked for. -/
theorem reply_range {r : MediaRequest} (hmethod : r.method ∈ (["GET", "HEAD"] : List Text))
    (hrange : r.range = some header) (hfile : files r.token = some file)
    (h : mediaRange (some header) file.size = some (a, b)) :
    r.reply files =
      { head := mediaHead "206 Partial Content" file.mime
            (Nat.toDigits 10 (file.part a.toNat b.toNat).length) ++
          contentRange (Nat.toDigits 10 a.toNat) (Nat.toDigits 10 b.toNat)
            (Nat.toDigits 10 file.bytes.length) ++ "\r\n"
        body := if r.method = "GET" then file.part a.toNat b.toNat else [] } := by
  obtain ⟨hab, hb⟩ := mediaRange_bounds h
  have hlength := length_toNat hab hb
  have hpart := file.length_part hab (file.size_toNat ▸ hb)
  rw [MediaRequest.reply, if_neg (not_not.mpr hmethod), hfile, hpart]
  simp only [hrange, h, Option.isSome_some, if_true, decimal64, hlength, file.size_toNat,
    MediaFile.part]

/-- A range that is a single one and nothing else, in digits that fit, is answered exactly if it can
be satisfied, with the bytes that it denotes; these lie in the file, no arithmetic wraps, and they
are what is sent. -/
theorem media_range_faithful :
    (∀ header, Unsigned header → ∀ size a b, mediaRange (some header) size = some (a, b) ↔
      size.toNat < 2 ^ 63 ∧ ∃ r, Asks header r ∧ r.denoted size.toNat = some (a.toNat, b.toNat)) ∧
    (∀ header size a b, mediaRange (some header) size = some (a, b) → a.toNat ≤ b.toNat ∧
      b.toNat < size.toNat ∧ (b - a + 1).toNat = b.toNat - a.toNat + 1) ∧
    ∀ files t file header a b, (MediaRequest.read t).method ∈ (["GET", "HEAD"] : List Text) →
      (MediaRequest.read t).range = some header → files (MediaRequest.read t).token = some file →
        mediaRange (some header) file.size = some (a, b) →
          serveMedia files t =
            { head := mediaHead "206 Partial Content" file.mime
                  (Nat.toDigits 10 (file.part a.toNat b.toNat).length) ++
                contentRange (Nat.toDigits 10 a.toNat) (Nat.toDigits 10 b.toNat)
                  (Nat.toDigits 10 file.bytes.length) ++ "\r\n"
              body := if (MediaRequest.read t).method = "GET" then file.part a.toNat b.toNat
                else [] } := by
  refine ⟨fun header h => mediaRange_iff h, fun header size a b h => ?_, ?_⟩
  · obtain ⟨hab, hb⟩ := mediaRange_bounds h
    exact ⟨hab, hb, length_toNat hab hb⟩
  · intro files t file header a b hmethod hrange hfile h
    exact reply_range hmethod hrange hfile h

theorem media_range_faithful_part : ∃ file : MediaFile, file.bytes = [48, 49, 50, 51, 52] ∧
    serveMedia (fun token => if token = "a" then some file else none)
        "GET /a HTTP/1.1\r\nRange: bytes=1-3\r\n\r\n" =
      { head := mediaHead "206 Partial Content" "video/webm" "3" ++ contentRange "1" "3" "5" ++
        "\r\n"
        body := [49, 50, 51] } := by
  refine ⟨⟨[48, 49, 50, 51, 52], "video/webm", by decide⟩, rfl, ?_⟩
  refine (media_range_faithful.2.2 _ _ _ "bytes=1-3" 1 3 (by decide) (by decide)
    (if_pos (by decide)) (by decide)).trans ?_
  decide +kernel

/-- The unit of a range is compared as it is written. -/
theorem not_every_range : ¬∀ header size a b, mediaRange (some header) size = some (a, b) ↔
    ∃ r, Single header r ∧ r.denoted size.toNat = some (a.toNat, b.toNat) := by
  intro h
  have hzero : Digits ['0'] 0 := ⟨by decide, by decide, rfl⟩
  have hsingle : Single "BYTES=0-0" (.between 0 0) :=
    ⟨"BYTES", [], "0-0", [], by decide, by decide, .nil, .nil, .between hzero hzero le_rfl⟩
  have hnone : mediaRange (some "BYTES=0-0") 1 = none := by decide
  rw [(h "BYTES=0-0" 1 0 0).mpr ⟨.between 0 0, hsingle, by decide⟩] at hnone
  cases hnone

-- A plus sign is read, and so is nothing that does not fit into 64 bits.
example : mediaRange (some "bytes=+1-+4") 10 = some (1, 4) := by decide
example : mediaRange (some "bytes=0-18446744073709551616") 10 = none := by decide

end MindOS.Shell
