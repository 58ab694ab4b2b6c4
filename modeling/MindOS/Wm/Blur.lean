import MindOS.Sliding
import Mathlib.Algebra.Field.Defs
import Mathlib.Algebra.Order.Ring.Nat

/-!
# The blur behind a text

A halo is the coverage of a text spread out by box passes, each of which keeps the sum of
what is near a pixel as it goes along a row or a column. The arithmetic is exact here. An
index outside a buffer would be a panic, which is `none`.
-/

namespace MindOS.Wm.Blur

open Sliding

variable {K : Type*} [Field K]

/-- `dst[i] = v`. -/
def writeAt (dst : List K) (i : ℕ) (v : K) : Option (List K) :=
  if i < dst.length then some (dst.set i v) else none

/-- A row or a column of a buffer. -/
structure Line where
  start : ℕ
  stride : ℕ
  length : ℕ

/-- Where a pixel of it is. -/
def Line.at (l : Line) (k : ℕ) : ℕ := l.start + k * l.stride

/-- The sum with the pixel that comes near behind a place, if there is one. -/
def entered (src : List K) (half : ℕ) (l : Line) (x : ℕ) (acc : K) : Option K :=
  if x + half + 1 < l.length then src[l.at (x + half + 1)]?.map (acc + ·) else some acc

/-- The sum without the pixel that is not near behind it any more. -/
def left (src : List K) (half : ℕ) (l : Line) (x : ℕ) (acc : K) : Option K :=
  if half ≤ x then src[l.at (x - half)]?.map (acc - ·) else some acc

/-- One pixel of a box pass, with the sum of what is near it. -/
def boxStep (src : List K) (half : ℕ) (l : Line) (s : List K × K) (x : ℕ) :
    Option (List K × K) := do
  let dst ← writeAt s.1 (l.at x) (s.2 / (2 * half + 1))
  let acc ← entered src half l x s.2
  let acc ← left src half l x acc
  return (dst, acc)

/-- A box pass along one line. -/
def boxLine (src : List K) (half : ℕ) (l : Line) (dst : List K) : Option (List K) := do
  let first ← (List.range (min (half + 1) l.length)).mapM fun k => src[l.at k]?
  let s ← (List.range l.length).foldlM (boxStep src half l) (dst, first.sum)
  return s.1

/-- The row `y` of an image of width `w`. -/
def row (w y : ℕ) : Line := ⟨y * w, 1, w⟩

/-- The column `x` of an image of the given size. -/
def col (w h x : ℕ) : Line := ⟨x, w, h⟩

/-- One horizontal box pass. -/
def boxRows (src dst : List K) (w h half : ℕ) : Option (List K) :=
  (List.range h).foldlM (fun dst y => boxLine src half (row w y) dst) dst

/-- One vertical box pass. -/
def boxCols (src dst : List K) (w h half : ℕ) : Option (List K) :=
  (List.range w).foldlM (fun dst x => boxLine src half (col w h x) dst) dst

/-- Half the width of a box that makes up for a radius, which is computed in single
precision. -/
def boxHalf (boxWidth : ℕ → ℕ) (radius : ℕ) : ℕ :=
  let n := max (boxWidth radius) 1
  (if n % 2 = 0 then n + 1 else n) / 2

/-- A horizontal and a vertical pass, over a field and a buffer beside it. -/
def boxPass (w h half : ℕ) (s : List K × List K) : Option (List K × List K) := do
  let tmp ← boxRows s.1 s.2 w h half
  let field ← boxCols tmp s.1 w h half
  return (field, tmp)

/-- Spread a field out over a radius, in place. -/
def spread (boxWidth : ℕ → ℕ) (field : List K) (w h radius : ℕ) : Option (List K) :=
  let half := boxHalf boxWidth radius
  if half < 1 ∨ w < 1 ∨ h < 1 then some field
  else do
    let s ← (List.range 3).foldlM (fun s _ => boxPass w h half s)
      (field, List.replicate field.length 0)
    return s.1

/-! ## One line -/

/-- The mean of what is near a place of a line, outside of which there is nothing. -/
noncomputable def mean (src : List K) (half : ℕ) (l : Line) (x : ℕ) : K :=
  windowSum (extend l.length fun k => src.getD (l.at k) 0) half x / (2 * half + 1)

/-- The places of a line are different ones of a buffer. -/
structure Line.Fits (l : Line) (size : ℕ) : Prop where
  at_lt : ∀ k < l.length, l.at k < size
  stride_pos : 0 < l.stride

variable {src dst : List K} {half : ℕ} {l : Line}

theorem Line.at_inj (h : 0 < l.stride) {j k : ℕ} : l.at j = l.at k ↔ j = k := by
  rw [Line.at, Line.at, Nat.add_left_cancel_iff]
  exact Nat.mul_left_inj (Nat.ne_of_gt h)

/-- What a line was set to as far as the pass has come, the others being as they were. -/
structure Passed (src dst : List K) (half : ℕ) (l : Line) (n : ℕ) (out : List K) : Prop where
  length : out.length = dst.length
  set : ∀ k < n, out[l.at k]? = some (mean src half l k)
  frame : ∀ i, (∀ k < n, i ≠ l.at k) → out[i]? = dst[i]?

theorem getElem?_eq_getD {i : ℕ} (h : i < src.length) : src[i]? = some (src.getD i 0) := by
  rw [List.getD_eq_getElem?_getD, List.getElem?_eq_getElem h]
  rfl

theorem entered_eq (hsrc : l.Fits src.length) (x : ℕ) (acc : K) : entered src half l x acc =
    some (acc + extend l.length (fun k => src.getD (l.at k) 0) (x + half + 1)) := by
  unfold entered
  split
  next hin =>
    rw [getElem?_eq_getD (hsrc.at_lt _ hin),
      show ((x : ℤ) + half + 1) = ((x + half + 1 : ℕ) : ℤ) by push_cast; rfl, extend_of_lt _ hin]
    rfl
  next hout => rw [extend_of_le _ (by omega), add_zero]

theorem left_eq (hsrc : l.Fits src.length) {x : ℕ} (hx : x < l.length) (acc : K) :
    left src half l x acc =
      some (acc - extend l.length (fun k => src.getD (l.at k) 0) (x - half)) := by
  unfold left
  split
  next hin =>
    rw [getElem?_eq_getD (hsrc.at_lt _ (by omega)),
      show ((x : ℤ) - half) = ((x - half : ℕ) : ℤ) by omega, extend_of_lt _ (by omega)]
    rfl
  next hout => rw [extend_of_neg _ (by omega), sub_zero]

theorem Passed.set_succ {n : ℕ} {out : List K} (h : Passed src dst half l n out)
    (hdst : l.Fits dst.length) (hn : n < l.length) :
    Passed src dst half l (n + 1) (out.set (l.at n) (mean src half l n)) where
  length := by rw [List.length_set, h.length]
  set k hk := by
    obtain hk | rfl := Nat.lt_succ_iff_lt_or_eq.mp hk
    · rw [List.getElem?_set_ne fun heq => absurd ((Line.at_inj hdst.stride_pos).mp heq) (by omega)]
      exact h.set k hk
    · exact List.getElem?_set_self (h.length ▸ hdst.at_lt k hn)
  frame i hi := by
    rw [List.getElem?_set_ne (hi n n.lt_succ_self).symm]
    exact h.frame i fun k hk => hi k (Nat.lt_succ_of_lt hk)

theorem boxStep_spec (hsrc : l.Fits src.length) (hdst : l.Fits dst.length) {x : ℕ}
    (hx : x < l.length) {s : List K × K}
    (hs : Passed src dst half l x s.1 ∧
      s.2 = windowSum (extend l.length fun k => src.getD (l.at k) 0) half x) :
    ∃ t, boxStep src half l s x = some t ∧ Passed src dst half l (x + 1) t.1 ∧
      t.2 = windowSum (extend l.length fun k => src.getD (l.at k) 0) half (x + 1 : ℕ) := by
  obtain ⟨hpassed, hacc⟩ := hs
  have hlt : l.at x < s.1.length := hpassed.length ▸ hdst.at_lt x hx
  refine ⟨(s.1.set (l.at x) (mean src half l x),
    windowSum (extend l.length fun k => src.getD (l.at k) 0) half (x + 1 : ℕ)), ?_,
    hpassed.set_succ hdst hx, rfl⟩
  rw [boxStep, writeAt, if_pos hlt, entered_eq hsrc, Nat.cast_succ, windowSum_succ, hacc]
  simp only [Option.bind_eq_bind, Option.bind_some, left_eq hsrc hx]
  rfl

theorem boxLine_spec (half : ℕ) (hsrc : l.Fits src.length) (hdst : l.Fits dst.length) :
    ∃ out, boxLine src half l dst = some out ∧ Passed src dst half l l.length out := by
  have hfirst : (List.range (min (half + 1) l.length)).mapM (fun k => src[l.at k]?) =
      some ((List.range (min (half + 1) l.length)).map fun k => src.getD (l.at k) 0) := by
    refine mapM_eq_some fun k hk => getElem?_eq_getD (hsrc.at_lt k ?_)
    rw [List.mem_range] at hk
    omega
  obtain ⟨t, ht, hpassed, -⟩ := exists_foldlM_range (n := l.length) (boxStep src half l)
    (fun x s => Passed src dst half l x s.1 ∧
      s.2 = windowSum (extend l.length fun k => src.getD (l.at k) 0) half x)
    (fun x hx s hs => boxStep_spec hsrc hdst hx hs)
    (s := (dst, ((List.range (min (half + 1) l.length)).map fun k => src.getD (l.at k) 0).sum))
    ⟨⟨rfl, fun k hk => absurd hk k.not_lt_zero, fun i _ => rfl⟩,
      (windowSum_extend_zero _ _ _).symm⟩
  refine ⟨t.1, ?_, hpassed⟩
  rw [boxLine, hfirst, Option.bind_eq_bind, Option.bind_some, ht]
  rfl

/-! ## All lines -/

theorem boxLines_spec (src dst : List K) (half : ℕ) (lines : ℕ → Line) {m : ℕ}
    (hsrc : ∀ j < m, (lines j).Fits src.length) (hdst : ∀ j < m, (lines j).Fits dst.length)
    (hapart : ∀ i < m, ∀ j < m, ∀ a < (lines i).length, ∀ b < (lines j).length,
      (lines i).at a = (lines j).at b → i = j) :
    ∃ out, (List.range m).foldlM (fun dst j => boxLine src half (lines j) dst) dst = some out ∧
      out.length = dst.length ∧ ∀ j < m, ∀ k < (lines j).length,
        out[(lines j).at k]? = some (mean src half (lines j) k) := by
  refine exists_foldlM_range _ (fun n (out : List K) => out.length = dst.length ∧ ∀ j < n,
    ∀ k < (lines j).length, out[(lines j).at k]? = some (mean src half (lines j) k)) ?_
    ⟨rfl, fun j hj => absurd hj j.not_lt_zero⟩
  rintro n hn s ⟨hlength, hset⟩
  obtain ⟨out, hout, hpassed⟩ := boxLine_spec half (hsrc n hn) (hlength ▸ hdst n hn)
  refine ⟨out, hout, hpassed.length.trans hlength, fun j hj k hk => ?_⟩
  obtain hj | rfl := Nat.lt_succ_iff_lt_or_eq.mp hj
  · rw [hpassed.frame]
    · exact hset j hj k hk
    · intro i hi heq
      exact absurd (hapart j (hj.trans hn) n hn k hk i hi heq) hj.ne
  · exact hpassed.set k hk

variable {w h : ℕ}

theorem fits_row {y : ℕ} (hy : y < h) : (row w y).Fits (w * h) where
  at_lt k hk := by
    have hk : k < w := hk
    have hend : (y + 1) * w ≤ h * w := Nat.mul_le_mul_right w hy
    rw [Nat.succ_mul, Nat.mul_comm h w] at hend
    simp only [row, Line.at, Nat.mul_one]
    omega
  stride_pos := Nat.one_pos

theorem fits_col {x : ℕ} (hx : x < w) : (col w h x).Fits (w * h) where
  at_lt k hk := by
    have hk : k < h := hk
    have hend : (k + 1) * w ≤ h * w := Nat.mul_le_mul_right w hk
    rw [Nat.succ_mul, Nat.mul_comm h w] at hend
    simp only [col, Line.at]
    omega
  stride_pos := Nat.zero_lt_of_lt hx

theorem row_apart {y y' k k' : ℕ} (hk : k < w) (hk' : k' < w)
    (heq : (row w y).at k = (row w y').at k') : y = y' := by
  simp only [row, Line.at, Nat.mul_one] at heq
  have hdiv := congrArg (· / w) heq
  simpa [Nat.mul_add_div (Nat.zero_lt_of_lt hk), Nat.mul_comm _ w, Nat.div_eq_of_lt hk,
    Nat.div_eq_of_lt hk'] using hdiv

theorem col_apart {x x' k k' : ℕ} (hx : x < w) (hx' : x' < w)
    (heq : (col w h x).at k = (col w h x').at k') : x = x' := by
  simp only [col, Line.at] at heq
  have hmod := congrArg (· % w) heq
  simpa [Nat.mod_eq_of_lt hx, Nat.mod_eq_of_lt hx'] using hmod

/-! ## The blur computed directly -/

/-- A pixel of an image, outside of which there is nothing. -/
def pixel (image : Vector K (w * h)) (x y : ℤ) : K :=
  if 0 ≤ x ∧ x < w ∧ 0 ≤ y ∧ y < h then image.toList.getD (y * w + x).toNat 0 else 0

/-- The mean of what is near a pixel in its row. -/
noncomputable def directRow (image : Vector K (w * h)) (half : ℕ) (x y : ℤ) : K :=
  (∑ i ∈ Finset.Icc (x - half) (x + half), pixel image i y) / (2 * half + 1)

/-- The mean of what is near a pixel in its column. -/
noncomputable def directCol (image : Vector K (w * h)) (half : ℕ) (x y : ℤ) : K :=
  (∑ i ∈ Finset.Icc (y - half) (y + half), pixel image x i) / (2 * half + 1)

theorem pixel_of_lt (image : Vector K (w * h)) {x y : ℕ} (hx : x < w) (hy : y < h) :
    pixel image x y = image.toList.getD (y * w + x) 0 := by
  rw [pixel, if_pos (by omega)]
  congr 1

theorem mean_row (image : Vector K (w * h)) {y : ℕ} (hy : y < h) (half x : ℕ) :
    mean image.toList half (row w y) x = directRow image half x y := by
  have hpixel : (extend w fun k => image.toList.getD ((row w y).at k) 0) = (pixel image · y) := by
    funext k
    by_cases hk : 0 ≤ k ∧ k < w
    · obtain ⟨i, rfl⟩ := Int.eq_ofNat_of_zero_le hk.1
      have hi : i < w := by omega
      rw [extend_of_lt _ hi, pixel_of_lt image hi hy, row, Line.at, Nat.mul_one]
    · rw [extend, if_neg hk, pixel, if_neg fun hin => hk ⟨hin.1, hin.2.1⟩]
  exact congrArg (windowSum · half x / (2 * half + 1 : K)) hpixel

theorem mean_col (image : Vector K (w * h)) {x : ℕ} (hx : x < w) (half y : ℕ) :
    mean image.toList half (col w h x) y = directCol image half x y := by
  have hpixel : (extend h fun k => image.toList.getD ((col w h x).at k) 0) = pixel image x := by
    funext k
    by_cases hk : 0 ≤ k ∧ k < h
    · obtain ⟨i, rfl⟩ := Int.eq_ofNat_of_zero_le hk.1
      have hi : i < h := by omega
      rw [extend_of_lt _ hi, pixel_of_lt image hx hi, col, Line.at, Nat.add_comm]
    · rw [extend, if_neg hk, pixel, if_neg fun hin => hk hin.2.2]
  exact congrArg (windowSum · half y / (2 * half + 1 : K)) hpixel

theorem boxRows_spec (src dst : Vector K (w * h)) (half : ℕ) :
    ∃ out : Vector K (w * h), boxRows src.toList dst.toList w h half = some out.toList ∧
      ∀ (x : Fin w) (y : Fin h), pixel out x y = directRow src half x y := by
  obtain ⟨out, hout, hlength, hset⟩ := boxLines_spec src.toList dst.toList half
    (row w) (m := h) (fun y hy => src.length_toList.symm ▸ fits_row hy)
    (fun y hy => dst.length_toList.symm ▸ fits_row hy)
    fun y _ y' _ k hk k' hk' heq => row_apart hk hk' heq
  rw [Vector.length_toList] at hlength
  refine ⟨⟨out.toArray, hlength⟩, hout, fun x y => ?_⟩
  have hpixel := hset y y.2 x x.2
  rw [mean_row src y.2, row, Line.at, Nat.mul_one] at hpixel
  rw [pixel_of_lt _ x.2 y.2, List.getD_eq_getElem?_getD]
  exact congrArg (Option.getD · 0) hpixel

theorem boxCols_spec (src dst : Vector K (w * h)) (half : ℕ) :
    ∃ out : Vector K (w * h), boxCols src.toList dst.toList w h half = some out.toList ∧
      ∀ (x : Fin w) (y : Fin h), pixel out x y = directCol src half x y := by
  obtain ⟨out, hout, hlength, hset⟩ := boxLines_spec src.toList dst.toList half
    (col w h) (m := w) (fun x hx => src.length_toList.symm ▸ fits_col hx)
    (fun x hx => dst.length_toList.symm ▸ fits_col hx)
    fun x hx x' hx' _ _ _ _ heq => col_apart hx hx' heq
  rw [Vector.length_toList] at hlength
  refine ⟨⟨out.toArray, hlength⟩, hout, fun x y => ?_⟩
  have hpixel := hset x x.2 y y.2
  rw [mean_col src x.2, col, Line.at, Nat.add_comm] at hpixel
  rw [pixel_of_lt _ x.2 y.2, List.getD_eq_getElem?_getD]
  exact congrArg (Option.getD · 0) hpixel

/-- For every image and radius the box passes index nothing outside of the buffers, and set
every pixel to what the window around it gives. -/
theorem box_passes_direct (src dst : Vector K (w * h)) (half : ℕ) :
    (∃ out : Vector K (w * h), boxRows src.toList dst.toList w h half = some out.toList ∧
      ∀ (x : Fin w) (y : Fin h), pixel out x y = directRow src half x y) ∧
    ∃ out : Vector K (w * h), boxCols src.toList dst.toList w h half = some out.toList ∧
      ∀ (x : Fin w) (y : Fin h), pixel out x y = directCol src half x y :=
  ⟨boxRows_spec src dst half, boxCols_spec src dst half⟩

/-- An image after a pass in both directions. -/
def Blurred (half : ℕ) (image out : Vector K (w * h)) : Prop :=
  ∃ tmp : Vector K (w * h), (∀ (x : Fin w) (y : Fin h), pixel tmp x y = directRow image half x y) ∧
    ∀ (x : Fin w) (y : Fin h), pixel out x y = directCol tmp half x y

theorem boxPass_spec (half : ℕ) (image tmp : Vector K (w * h)) :
    ∃ out tmp' : Vector K (w * h), Blurred half image out ∧
      boxPass w h half (image.toList, tmp.toList) = some (out.toList, tmp'.toList) := by
  obtain ⟨tmp', htmp, hrow⟩ := boxRows_spec image tmp half
  obtain ⟨out, hout, hcol⟩ := boxCols_spec tmp' image half
  refine ⟨out, tmp', ⟨tmp', hrow, hcol⟩, ?_⟩
  rw [boxPass, htmp, Option.bind_eq_bind, Option.bind_some, hout]
  rfl

/-- A field with a box to spread it by is blurred three times; every other one stays. -/
theorem spread_spec (boxWidth : ℕ → ℕ) (field : Vector K (w * h)) (radius : ℕ) :
    if boxHalf boxWidth radius = 0 ∨ w = 0 ∨ h = 0 then
      spread boxWidth field.toList w h radius = some field.toList
    else
      ∃ once twice out : Vector K (w * h),
        spread boxWidth field.toList w h radius = some out.toList ∧
          Blurred (boxHalf boxWidth radius) field once ∧
          Blurred (boxHalf boxWidth radius) once twice ∧
          Blurred (boxHalf boxWidth radius) twice out := by
  simp only [← Nat.lt_one_iff]
  split
  case isTrue hnothing => exact if_pos hnothing
  case isFalse hnothing =>
    let tmp : Vector K (w * h) := Vector.replicate (w * h) 0
    obtain ⟨once, tmp₁, honce, h₁⟩ := boxPass_spec (boxHalf boxWidth radius) field tmp
    obtain ⟨twice, tmp₂, htwice, h₂⟩ := boxPass_spec (boxHalf boxWidth radius) once tmp₁
    obtain ⟨out, tmp₃, hout, h₃⟩ := boxPass_spec (boxHalf boxWidth radius) twice tmp₂
    refine ⟨once, twice, out, ?_, honce, htwice, hout⟩
    have htmp : List.replicate field.toList.length (0 : K) = tmp.toList := by
      rw [Vector.length_toList, Vector.toList_replicate]
    rw [spread, if_neg hnothing, htmp]
    show ((boxPass w h _ _).bind fun s => (boxPass w h _ s).bind fun s =>
      (boxPass w h _ s).bind some).bind (fun s => some s.1) = _
    rw [h₁, Option.bind_some, h₂, Option.bind_some, h₃, Option.bind_some, Option.bind_some]

end MindOS.Wm.Blur
