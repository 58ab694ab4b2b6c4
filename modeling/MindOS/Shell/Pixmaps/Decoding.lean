import MindOS.Shell.Pixmaps.Basic
import Mathlib.Algebra.Order.BigOperators.Group.List

/-!
# When pixels are decoded

Nothing goes wrong where images are decoded exactly if their bytes can be counted in the integers
in which they are counted, and what is reserved for them is there.
-/

namespace MindOS.Shell

open Noted

/-! ## The encoder -/

variable {limit w h stride ch y x : Nat} {rgba data : List UInt8} {png : Png}

theorem Png.encode_eq_some : Png.encode w h rgba = some png ↔
    png.width = w ∧ png.height = h ∧ png.rgba = rgba := by
  constructor
  · intro hpng
    rw [Png.encode] at hpng
    split at hpng
    case isTrue => exact Option.some.inj hpng ▸ ⟨rfl, rfl, rfl⟩
    case isFalse => cases hpng
  · rintro ⟨rfl, rfl, rfl⟩
    exact dif_pos png.full

theorem within_byteSize : (byteSize w h).Within limit ↔ w * h * 4 < 2 ^ 32 := by
  simp only [byteSize, within_bind, within_mul]
  constructor
  · rintro ⟨harea, hsize⟩
    rwa [value_mul harea] at hsize
  · intro hsize
    have harea : w * h < 2 ^ 32 := by omega
    exact ⟨harea, by rwa [value_mul harea]⟩

theorem value_byteSize (hsize : w * h * 4 < 2 ^ 32) : (byteSize w h).value = w * h * 4 := by
  have harea : w * h < 2 ^ 32 := by omega
  simp only [byteSize, value_bind, value_mul harea, value_mul hsize]

theorem within_encodeRgbaPng :
    (encodeRgbaPng w h rgba).Within limit ↔ w = 0 ∨ h = 0 ∨ w * h * 4 < 2 ^ 32 := by
  rw [encodeRgbaPng, ← or_assoc]
  by_cases hzero : w = 0 ∨ h = 0
  · rw [if_pos hzero]
    exact iff_of_true (within_pure none) (.inl hzero)
  · rw [if_neg hzero, or_iff_right hzero]
    simp only [within_bind, within_byteSize, within_ite, within_pure, within_sliceTo, and_true]
    constructor
    · exact And.left
    · exact fun hsize => ⟨hsize, fun _ => trivial, fun hlong => ⟨hsize, Nat.le_of_not_lt hlong⟩⟩

theorem value_encodeRgbaPng (hsize : w * h * 4 < 2 ^ 32)
    (hpng : (encodeRgbaPng w h rgba).value = some png) :
    png.width = w ∧ png.height = h ∧ w * h * 4 ≤ rgba.length := by
  rw [encodeRgbaPng] at hpng
  split at hpng
  case isTrue => cases hpng
  case isFalse =>
    rw [value_bind, value_byteSize hsize] at hpng
    split at hpng
    case isTrue => cases hpng
    case isFalse hlong =>
      obtain ⟨hw, hh, -⟩ := Png.encode_eq_some.mp hpng
      exact ⟨hw, hh, Nat.le_of_not_lt hlong⟩

/-! ## Images of notifications -/

/-- The bytes of a pixel that lies in the data. -/
def pixelAt (data : List UInt8) (ch : Nat) (alpha : Bool) (i : Nat) : List UInt8 :=
  [data.getD i 0, data.getD (i + 1) 0, data.getD (i + 2) 0,
    if alpha ∧ 4 ≤ ch then data.getD (i + 3) 0 else 255]

theorem pixelBytes_eq {i : Nat} (hin : i + ch ≤ data.length) (hplace : i + ch < 2 ^ 64)
    (hch : 3 ≤ ch) (alpha : Bool) : (pixelBytes data ch alpha i).Within limit ∧
      (pixelBytes data ch alpha i).value = pixelAt data ch alpha i := by
  have hadd : ∀ k ≤ 3, i + k < 2 ^ 64 ∨ ch < k := by omega
  have h1 : i + 1 < 2 ^ 64 := by omega
  have h2 : i + 2 < 2 ^ 64 := by omega
  simp only [pixelBytes, pixelAt, within_bind, value_bind, within_index, value_index, within_add,
    value_add h1, value_add h2]
  split
  case isTrue h =>
    have h3 : i + 3 < 2 ^ 64 := by omega
    simp only [within_bind, value_bind, within_index, value_index, within_add, within_pure,
      value_pure, value_add h3, and_true]
    omega
  case isFalse =>
    simp only [within_pure, value_pure, and_true]
    omega

/-- A pixel lies in the data. -/
def Inside (data : List UInt8) (stride ch : Nat) (place : Nat × Nat) : Prop :=
  place.1 * stride + place.2 * ch + ch ≤ data.length

instance (data : List UInt8) (stride ch : Nat) (place : Nat × Nat) :
    Decidable (Inside data stride ch place) := Nat.decLe _ _

/-- Factors of 31 bits, with which no operation on a place in the data overflows. -/
structure Small (stride ch y x : Nat) : Prop where
  stride : stride < 2 ^ 31
  ch : ch < 2 ^ 31
  y : y < 2 ^ 31
  x : x < 2 ^ 31

theorem Small.place (h : Small stride ch y x) :
    y * stride < 2 ^ 62 ∧ x * ch < 2 ^ 62 ∧ y * stride + x * ch + ch < 2 ^ 64 := by
  have hy : y * stride < 2 ^ 31 * 2 ^ 31 := Nat.mul_lt_mul'' h.y h.stride
  have hx : x * ch < 2 ^ 31 * 2 ^ 31 := Nat.mul_lt_mul'' h.x h.ch
  have hch := h.ch
  omega

theorem readPixel_eq (hsmall : Small stride ch y x) (hch : 3 ≤ ch) (alpha : Bool) :
    (readPixel data stride ch alpha y x).Within limit ∧
      (readPixel data stride ch alpha y x).value =
        if Inside data stride ch (y, x) then some (pixelAt data ch alpha (y * stride + x * ch))
        else none := by
  obtain ⟨hrow, hcolumn, hplace⟩ := hsmall.place
  have hrow' : y * stride < 2 ^ 64 := hrow.trans (by decide)
  have hcolumn' : x * ch < 2 ^ 64 := hcolumn.trans (by decide)
  have hi : y * stride + x * ch < 2 ^ 64 := by omega
  simp only [readPixel, within_bind, value_bind, within_mul, within_add, value_mul hrow',
    value_mul hcolumn', value_add hi, value_add hplace]
  by_cases hin : Inside data stride ch (y, x)
  · have hnot : ¬y * stride + x * ch + ch > data.length := Nat.not_lt.mpr hin
    obtain ⟨hwithin, hvalue⟩ := @pixelBytes_eq limit _ _ _ hin hplace hch alpha
    rw [if_pos hin, if_neg hnot, within_bind, value_bind, hvalue]
    exact ⟨⟨hrow', hcolumn', hi, hplace, hwithin, within_pure _⟩, rfl⟩
  · have hbeyond : y * stride + x * ch + ch > data.length := Nat.lt_of_not_le hin
    rw [if_neg hin, if_pos hbeyond]
    exact ⟨⟨hrow', hcolumn', hi, hplace, within_pure _⟩, rfl⟩

theorem readPixels_eq {places : List (Nat × Nat)} (hplaces : ∀ p ∈ places, Small stride ch p.1 p.2)
    (hch : 3 ≤ ch) (alpha : Bool) (rgba : List UInt8) :
    (readPixels data stride ch alpha rgba places).Within limit ∧
      ((∃ p ∈ places, ¬Inside data stride ch p) ∧
          (readPixels data stride ch alpha rgba places).value = none ∨
        (∀ p ∈ places, Inside data stride ch p) ∧
          ∃ pixels, (readPixels data stride ch alpha rgba places).value = some (rgba ++ pixels) ∧
            pixels.length = places.length * 4) := by
  induction places generalizing rgba with
  | nil => exact ⟨within_pure _,
    .inr ⟨fun _ h => absurd h List.not_mem_nil, [], by simp [readPixels], rfl⟩⟩
  | cons p places ih =>
      obtain ⟨hp, hrest⟩ := List.forall_mem_cons.mp hplaces
      obtain ⟨y, x⟩ := p
      obtain ⟨hwithin, hvalue⟩ := @readPixel_eq limit _ _ _ _ data hp hch alpha
      rw [readPixels, within_bind, value_bind, hvalue]
      by_cases hin : Inside data stride ch (y, x)
      · rw [if_pos hin]
        obtain ⟨hrest, hout | ⟨hall, pixels, hpixels, hlen⟩⟩ := ih hrest
          (rgba ++ pixelAt data ch alpha (y * stride + x * ch))
        · obtain ⟨⟨q, hq, hbeyond⟩, hnone⟩ := hout
          exact ⟨⟨hwithin, hrest⟩, .inl ⟨⟨q, List.mem_cons_of_mem _ hq, hbeyond⟩, hnone⟩⟩
        · refine ⟨⟨hwithin, hrest⟩, .inr ⟨List.forall_mem_cons.mpr ⟨hin, hall⟩, _,
            hpixels.trans (congrArg some (List.append_assoc _ _ _)), ?_⟩⟩
          rw [List.length_append, hlen, List.length_cons]
          change 4 + _ = _
          omega
      · rw [if_neg hin]
        exact ⟨⟨hwithin, within_pure _⟩, .inl ⟨⟨_, List.mem_cons_self, hin⟩, rfl⟩⟩

theorem mem_coordinates {p : Nat × Nat} : p ∈ coordinates w h ↔ p.1 < h ∧ p.2 < w := by
  obtain ⟨y, x⟩ := p
  simp [coordinates]

/-- Every pixel that is shown lies in the data. -/
def Png.LiesIn (data : List UInt8) (stride ch : Nat) (png : Png) : Prop :=
  ∀ y < png.height, ∀ x < png.width, Inside data stride ch (y, x)

theorem Png.liesIn_of_le (png : Png) (h : png.width * png.height * 4 ≤ data.length) :
    png.LiesIn data (png.width * 4) 4 := by
  intro y hy x hx
  have hrows : y * png.width + x + 1 ≤ png.width * png.height := by
    calc
      y * png.width + x + 1 ≤ y * png.width + png.width := by omega
      _ = (y + 1) * png.width := by rw [Nat.add_mul, Nat.one_mul]
      _ ≤ png.height * png.width := Nat.mul_le_mul_right _ hy
      _ = png.width * png.height := Nat.mul_comm _ _
  change y * (png.width * 4) + x * 4 + 4 ≤ data.length
  rw [← Nat.mul_assoc]
  omega

/-- An image is decoded within a limit, and lies where it is to lie. -/
structure Decodes {α : Type} (limit : Nat) (lies : α → Prop) (r : Noted (Option α)) : Prop where
  within : r.Within limit
  shown : ∀ image, r.value = some image → lies image

/-- Pixels of a size for which the bytes are within a limit, and can be counted in 32 bits if all
pixels are there. -/
structure ImageHint.Counted (limit : Nat) (a : ImageHint) : Prop where
  reserved : size a.width * size a.height * 4 ≤ limit
  counted : size a.width * size a.height * 4 < 2 ^ 32 ∨
    ∃ p ∈ coordinates (size a.width) (size a.height),
      ¬Inside a.data (size a.stride) (size a.channels) p

/-- An image that is refused by its sizes alone, or can be counted. -/
def ImageHint.Sound (limit : Nat) (a : ImageHint) : Prop :=
  (a.width.toInt ≤ 0 ∨ a.height.toInt ≤ 0 ∨ a.stride.toInt ≤ 0 ∨ a.channels.toInt < 3) ∨
    a.Counted limit

theorem size_lt (n : Int32) : size n < 2 ^ 31 := by
  have h := n.toInt_lt
  rw [size]
  omega

theorem ImageHint.readsPixels_iff (a : ImageHint) (limit : Nat) :
    Decodes limit (Png.LiesIn a.data (size a.stride) (size a.channels)) a.decode ↔
      a.Sound limit := by
  by_cases hsizes : a.width.toInt ≤ 0 ∨ a.height.toInt ≤ 0 ∨ a.stride.toInt ≤ 0 ∨
    a.channels.toInt < 3
  · rw [decode, if_pos hsizes]
    exact iff_of_true ⟨within_pure _, fun _ h => by cases h⟩ (.inl hsizes)
  · rw [decode, if_neg hsizes, Sound, or_iff_right hsizes]
    obtain ⟨hw, hh, -, hch⟩ : 0 < size a.width ∧ 0 < size a.height ∧ 0 < size a.stride ∧
        3 ≤ size a.channels := by
      simp only [size]
      omega
    have hw' := size_lt a.width
    have hh' := size_lt a.height
    have harea : size a.width * size a.height < 2 ^ 31 * 2 ^ 31 := Nat.mul_lt_mul'' hw' hh'
    have hsmall : ∀ p ∈ coordinates (size a.width) (size a.height),
        Small (size a.stride) (size a.channels) p.1 p.2 := by
      intro p hp
      obtain ⟨hy, hx⟩ := mem_coordinates.mp hp
      exact ⟨size_lt _, size_lt _, hy.trans hh', hx.trans hw'⟩
    have hread := @readPixels_eq limit _ _ a.data _ hsmall hch a.alpha []
    have hcut : ∀ n : Int32, size n % 2 ^ 32 = size n := fun n =>
      Nat.mod_eq_of_lt ((size_lt n).trans (by decide))
    have hproduct : size a.width * size a.height < 2 ^ 64 := by omega
    have hbytes : size a.width * size a.height * 4 < 2 ^ 64 := by omega
    obtain ⟨hreads, hout | ⟨hall, pixels, hpixels, -⟩⟩ := hread
    · obtain ⟨houtside, hnone⟩ := hout
      constructor
      · rintro ⟨hwithin, -⟩
        simp only [within_bind, within_reserve, value_mul hproduct, value_mul hbytes]
          at hwithin
        exact ⟨hwithin.2.2.1, .inr houtside⟩
      · rintro ⟨hreserved, -⟩
        refine ⟨?_, fun png hpng => ?_⟩
        · simp only [within_bind, within_reserve, value_mul hproduct, value_mul hbytes,
            within_mul, hcut, hnone]
          exact ⟨hproduct, hbytes, hreserved, hreads, within_pure _⟩
        · simp only [value_bind, hnone] at hpng
          cases hpng
    · rw [List.nil_append] at hpixels
      constructor
      · rintro ⟨hwithin, -⟩
        simp only [within_bind, within_reserve, value_mul hproduct, value_mul hbytes,
          hcut, hpixels, within_encodeRgbaPng] at hwithin
        refine ⟨hwithin.2.2.1, .inl ?_⟩
        have hcounted := hwithin.2.2.2.2
        omega
      · rintro ⟨hreserved, hcounted⟩
        have hcounted : size a.width * size a.height * 4 < 2 ^ 32 := by
          obtain hcounted | ⟨p, hp, hbeyond⟩ := hcounted
          · exact hcounted
          · exact absurd (hall p hp) hbeyond
        refine ⟨?_, fun png hpng y hy x hx => ?_⟩
        · simp only [within_bind, within_reserve, value_mul hproduct, value_mul hbytes,
            within_mul, hcut, hpixels, within_encodeRgbaPng]
          exact ⟨hproduct, hbytes, hreserved, hreads, .inr (.inr hcounted)⟩
        · simp only [value_bind, hcut, hpixels] at hpng
          obtain ⟨hwidth, hheight, -⟩ := value_encodeRgbaPng hcounted hpng
          exact hall (y, x) (mem_coordinates.mpr ⟨hheight ▸ hy, hwidth ▸ hx⟩)

/-! ## Pixmaps of the tray -/

namespace IconPixmap

variable {p : IconPixmap} {pixmaps : List IconPixmap}

/-- The bytes of a pixmap can be counted in 31 bits. -/
def Counted (p : IconPixmap) : Prop :=
  0 < p.width.toInt → 0 < p.height.toInt → p.width.toInt * p.height.toInt * 4 < 2 ^ 31

/-- A pixmap with all its pixels. -/
structure Full (p : IconPixmap) : Prop where
  width : 0 < p.width.toInt
  height : 0 < p.height.toInt
  pixels : p.width.toInt * p.height.toInt * 4 ≤ p.pixels.length

theorem within_passes : p.passes.Within limit ↔ p.Counted := by
  rw [passes]
  by_cases hempty : p.width.toInt ≤ 0 ∨ p.height.toInt ≤ 0
  · rw [if_pos hempty]
    exact iff_of_true (within_pure _) fun hw hh => by omega
  · obtain ⟨hw, hh⟩ := not_or.mp hempty
    have hpos : 0 < p.width.toInt * p.height.toInt :=
      Int.mul_pos (Int.not_le.mp hw) (Int.not_le.mp hh)
    rw [if_neg hempty]
    simp only [within_bind, within_signed, within_pure, and_true]
    constructor
    · rintro ⟨harea, hbytes⟩ - -
      rw [value_signed harea (by decide)] at hbytes
      exact hbytes.2
    · intro hcounted
      have hbytes := hcounted (Int.not_le.mp hw) (Int.not_le.mp hh)
      have harea : Fits 32 (p.width.toInt * p.height.toInt) := by
        rw [Fits]
        omega
      refine ⟨harea, ?_⟩
      rw [value_signed harea (by decide), Fits]
      omega

theorem value_passes (h : p.Counted) : p.passes.value = true ↔ p.Full := by
  rw [passes]
  by_cases hempty : p.width.toInt ≤ 0 ∨ p.height.toInt ≤ 0
  · rw [if_pos hempty]
    exact iff_of_false (by simp) fun hfull => by
      have hw := hfull.width
      have hh := hfull.height
      omega
  · obtain ⟨hw, hh⟩ := not_or.mp hempty
    have hw := Int.not_le.mp hw
    have hh := Int.not_le.mp hh
    have hpos : 0 < p.width.toInt * p.height.toInt := Int.mul_pos hw hh
    have hbytes := h hw hh
    have harea : Fits 32 (p.width.toInt * p.height.toInt) := by
      rw [Fits]
      omega
    have hsize : Fits 32 (p.width.toInt * p.height.toInt * 4) := by
      rw [Fits]
      omega
    rw [if_neg hempty]
    simp only [value_bind, value_pure, value_signed harea (by decide),
      value_signed hsize (by decide), decide_eq_true_eq]
    constructor
    · exact fun hlong => ⟨hw, hh, by omega⟩
    · rintro ⟨-, -, hlong⟩
      omega

theorem within_rank (h : 0 < p.width.toInt) : (p.rank 32).Within limit := by
  have hwidth := p.width.toInt_lt
  have hd : Fits 32 (p.width.toInt - 32) := by
    rw [Fits]
    omega
  simp only [rank, within_bind, within_signed, value_signed hd (by decide), within_ite, within_pure,
    implies_true, true_and]
  refine ⟨hd, fun _ => ?_⟩
  rw [Fits]
  omega

theorem within_bestFrom (best : Option (Int × IconPixmap)) :
    (bestFrom 32 best pixmaps).Within limit ↔ ∀ p ∈ pixmaps, p.Counted := by
  induction pixmaps generalizing best with
  | nil => exact iff_of_true (within_pure _) fun _ h => absurd h List.not_mem_nil
  | cons p pixmaps ih =>
      rw [bestFrom, within_bind, within_passes, List.forall_mem_cons]
      refine and_congr_right fun hcounted => ?_
      split
      case isTrue hpasses =>
        have hfull := (value_passes hcounted).mp hpasses
        rw [within_bind, and_iff_right (within_rank hfull.width)]
        cases best <;> exact ih _
      case isFalse => exact ih best

theorem mem_of_bestFrom {best : Option (Int × IconPixmap)} (hcounted : ∀ p ∈ pixmaps, p.Counted)
    (h : (bestFrom 32 best pixmaps).value = some p) :
    best.map Prod.snd = some p ∨ p ∈ pixmaps ∧ p.Full := by
  induction pixmaps generalizing best with
  | nil => exact .inl h
  | cons q pixmaps ih =>
      obtain ⟨hq, hrest⟩ := List.forall_mem_cons.mp hcounted
      have htail : p ∈ pixmaps ∧ p.Full → p ∈ q :: pixmaps ∧ p.Full :=
        fun h => ⟨List.mem_cons_of_mem q h.1, h.2⟩
      rw [bestFrom, value_bind] at h
      split at h
      case isTrue hpasses =>
        have hfull := (value_passes hq).mp hpasses
        have hhead : some q = some p → p ∈ q :: pixmaps ∧ p.Full := by
          rintro ⟨⟩
          exact ⟨List.mem_cons_self, hfull⟩
        rw [value_bind] at h
        cases best with
        | none => exact .inr ((ih hrest h).elim hhead htail)
        | some best =>
            obtain hbest | hmem := ih hrest h
            · split at hbest
              · exact .inr (hhead hbest)
              · exact .inl hbest
            · exact .inr (htail hmem)
      case isFalse => exact (ih hrest h).imp_right htail

theorem decodes_encodePng (hfull : p.Full) (hcounted : p.Counted)
    (hlimit : p.pixels.length ≤ limit) :
    Decodes limit (fun png => Png.LiesIn p.pixels (png.width * 4) 4 png) p.encodePng := by
  obtain ⟨hw, hh, hpixels⟩ := hfull
  have hbytes := hcounted hw hh
  obtain ⟨w, hwidth⟩ := Int.eq_ofNat_of_zero_le hw.le
  obtain ⟨h, hheight⟩ := Int.eq_ofNat_of_zero_le hh.le
  have hw' := p.width.toInt_lt
  have hh' := p.height.toInt_lt
  rw [hwidth] at hw hpixels hbytes hw'
  rw [hheight] at hh hpixels hbytes hh'
  have hsize : w * h * 4 < 2 ^ 31 := by exact_mod_cast hbytes
  have hpixels : w * h * 4 ≤ p.pixels.length := by exact_mod_cast hpixels
  have hcut : ∀ n : Nat, (n : Int) < 2 ^ 31 → ((n : Int) % 2 ^ 32).toNat = n := by omega
  have harea : w * h < 2 ^ 32 := by omega
  have hreserved : w * h * 4 < 2 ^ 64 := by omega
  refine ⟨?_, fun png hpng y hy x hx => ?_⟩
  · simp only [encodePng, hwidth, hheight, hcut w hw', hcut h hh', within_bind, within_mul,
      value_mul harea, value_mul hreserved, within_reserve, within_encodeRgbaPng]
    exact ⟨harea, hreserved, hpixels.trans hlimit, .inr (.inr (by omega))⟩
  · simp only [encodePng, hwidth, hheight, hcut w hw', hcut h hh', value_bind] at hpng
    obtain ⟨rfl, rfl, -⟩ := value_encodeRgbaPng (by omega) hpng
    exact png.liesIn_of_le hpixels y hy x hx

end IconPixmap

theorem trayImage_iff {pixmaps : List IconPixmap}
    (hlimit : ∀ p ∈ pixmaps, p.pixels.length ≤ limit) :
    Decodes limit (fun (p, png) => p ∈ pixmaps ∧ Png.LiesIn p.pixels (png.width * 4) 4 png)
      (trayImage pixmaps) ↔ ∀ p ∈ pixmaps, p.Counted := by
  rw [trayImage, bestPixmap]
  constructor
  · rintro ⟨hwithin, -⟩
    rw [within_bind] at hwithin
    exact (IconPixmap.within_bestFrom none).mp hwithin.1
  · intro hcounted
    have hbest := (@IconPixmap.within_bestFrom limit _ none).mpr hcounted
    cases hvalue : (bestFrom 32 none pixmaps).value with
    | none =>
        refine ⟨?_, fun image himage => ?_⟩
        · rw [within_bind, hvalue]
          exact ⟨hbest, within_pure _⟩
        · rw [value_bind, hvalue] at himage
          cases himage
    | some p =>
        obtain hnone | ⟨hp, hfull⟩ := IconPixmap.mem_of_bestFrom hcounted hvalue
        · cases hnone
        obtain ⟨hwithin, hlies⟩ :=
          IconPixmap.decodes_encodePng hfull (hcounted p hp) (hlimit p hp)
        refine ⟨?_, fun image himage => ?_⟩
        · rw [within_bind, hvalue, within_bind]
          exact ⟨hbest, hwithin, within_pure _⟩
        · rw [value_bind, hvalue, value_bind] at himage
          obtain ⟨png, hpng, rfl⟩ := Option.map_eq_some_iff.mp himage
          exact ⟨hp, hlies png hpng⟩

/-! ## Icons of X11 -/

theorem encodeRgbaPng_iff :
    Decodes limit (fun png => Png.LiesIn rgba (png.width * 4) 4 png) (encodeRgbaPng w h rgba) ↔
      w = 0 ∨ h = 0 ∨ w * h * 4 < 2 ^ 32 := by
  constructor
  · exact fun hdecodes => within_encodeRgbaPng.mp hdecodes.within
  · intro hcounted
    refine ⟨within_encodeRgbaPng.mpr hcounted, fun png hpng => ?_⟩
    rw [← or_assoc] at hcounted
    obtain hempty | hcounted := hcounted
    · rw [encodeRgbaPng, if_pos hempty] at hpng
      cases hpng
    · obtain ⟨rfl, rfl, hlong⟩ := value_encodeRgbaPng hcounted hpng
      exact png.liesIn_of_le hlong

/-- The sizes of an icon, cut to 32 bits, count its bytes in 32 bits. -/
def XembedCounted (item : Json) : Prop :=
  ∀ w h pixels, (item.get "width").asU64 = some w → (item.get "height").asU64 = some h →
    item.getStr "pixels" = some pixels →
      w % 2 ^ 32 = 0 ∨ h % 2 ^ 32 = 0 ∨ (w % 2 ^ 32) * (h % 2 ^ 32) * 4 < 2 ^ 32

/-- The bytes that an icon is sent with. -/
def xembedData (base64Decode : Text → List UInt8) (item : Json) : List UInt8 :=
  ((item.getStr "pixels").map base64Decode).getD []

theorem xembedIcon_iff (base64Decode : Text → List UInt8) (item : Json) :
    Decodes limit (fun png => Png.LiesIn (xembedData base64Decode item) (png.width * 4) 4 png)
      (xembedIcon base64Decode item) ↔ XembedCounted item := by
  rw [xembedIcon, XembedCounted, xembedData]
  generalize (item.get "width").asU64 = width
  generalize (item.get "height").asU64 = height
  generalize item.getStr "pixels" = pixels
  split
  case h_1 w h pixels =>
    refine encodeRgbaPng_iff.trans ⟨?_, fun hcounted => hcounted w h pixels rfl rfl rfl⟩
    rintro hcounted _ _ _ ⟨⟩ ⟨⟩ -
    exact hcounted
  case h_2 hnone =>
    refine iff_of_true ⟨within_pure _, fun _ h => (nomatch h)⟩ ?_
    rintro w h pixels rfl rfl rfl
    exact (hnone w h pixels rfl rfl rfl).elim

/-! ## Everything that is sent -/

theorem hintImage_iff (hints : List (Text × BusValue)) (limit : ImageHint → Nat) :
    (∀ a, imageHint hints = some a →
        Decodes (limit a) (Png.LiesIn a.data (size a.stride) (size a.channels)) (hintImage hints)) ↔
      ∀ a, imageHint hints = some a → a.Sound (limit a) := by
  refine forall_congr' fun a => imp_congr_right fun ha => ?_
  rw [hintImage, ha]
  exact a.readsPixels_iff (limit a)

/-- Whatever is sent, its pixels are decoded without an overflow, inside of the data and in memory
of at most `c` times its length, exactly if the bytes that its sizes claim can be counted; for an
image of a notification, these must also be no more than is reserved. -/
theorem decodes_iff (c : Nat) (hc : 0 < c) (base64Decode : Text → List UInt8) :
    (∀ hints, (∀ a, imageHint hints = some a → Decodes (c * a.data.length)
          (Png.LiesIn a.data (size a.stride) (size a.channels)) (hintImage hints)) ↔
        ∀ a, imageHint hints = some a → a.Sound (c * a.data.length)) ∧
      (∀ pixmaps, Decodes (c * (pixmaps.map fun p => p.pixels.length).sum)
          (fun (p, png) => p ∈ pixmaps ∧ Png.LiesIn p.pixels (png.width * 4) 4 png)
          (trayImage pixmaps) ↔ ∀ p ∈ pixmaps, p.Counted) ∧
      ∀ item, Decodes (c * (xembedData base64Decode item).length)
          (fun png => Png.LiesIn (xembedData base64Decode item) (png.width * 4) 4 png)
          (xembedIcon base64Decode item) ↔ XembedCounted item := by
  refine ⟨fun hints => hintImage_iff hints fun a => c * a.data.length, fun pixmaps => ?_,
    fun item => xembedIcon_iff base64Decode item⟩
  refine trayImage_iff fun p hp => ?_
  have hsum : p.pixels.length ≤ (pixmaps.map fun p => p.pixels.length).sum :=
    List.le_sum_of_mem (List.mem_map_of_mem hp)
  exact hsum.trans (Nat.le_mul_of_pos_left _ hc)

theorem decodes_iff_dot : Decodes 16 (fun (p, png) => p ∈ [⟨1, 1, [255, 1, 2, 3]⟩] ∧
    Png.LiesIn p.pixels (png.width * 4) 4 png) (trayImage [⟨1, 1, [255, 1, 2, 3]⟩]) := by
  refine ((decodes_iff 4 (by decide) fun _ => []).2.1 [⟨1, 1, [255, 1, 2, 3]⟩]).mpr fun p hp => ?_
  obtain rfl := List.mem_singleton.mp hp
  exact fun _ _ => by decide

/-- For an image that claims to be large, memory is reserved although no data are there. -/
theorem not_in_proportion : ¬∃ c : Nat, ∀ hints a, imageHint hints = some a →
    Decodes (c * a.data.length) (Png.LiesIn a.data (size a.stride) (size a.channels))
      (hintImage hints) := by
  rintro ⟨c, h⟩
  let hints : List (Text × BusValue) := [("image-data", .struct [.i32 Int32.maxValue,
    .i32 Int32.maxValue, .i32 1, .bool false, .i32 8, .i32 3, .array []])]
  let a : ImageHint := ⟨Int32.maxValue, Int32.maxValue, 1, false, 3, []⟩
  have hread : imageHint hints = some a := rfl
  obtain hrefused | hcounted := (a.readsPixels_iff _).mp (by
    have hdecodes := h hints a hread
    rw [hintImage, hread] at hdecodes
    exact hdecodes)
  · exact absurd hrefused (by decide)
  · exact absurd hcounted.reserved (by
      change ¬size Int32.maxValue * size Int32.maxValue * 4 ≤ c * 0
      rw [Nat.mul_zero]
      decide)

end MindOS.Shell
