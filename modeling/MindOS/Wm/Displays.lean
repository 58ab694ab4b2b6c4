import MindOS.Wm.Windows
import Mathlib.Algebra.Order.Group.Int
import Mathlib.Order.Lattice

/-!
# Where the outputs go

The outputs are placed in one pass from left to right. One whose position is pinned goes
there; the others go at the top, each to the right of all that came before it.
-/

namespace MindOS.Wm

/-- A pixel is in a rectangle. -/
def Rect.Contains (r : Rect) (p : Point) : Prop :=
  r.loc.x ≤ p.x ∧ p.x < r.loc.x + r.size.w ∧ r.loc.y ≤ p.y ∧ p.y < r.loc.y + r.size.h

def Rect.Overlaps (a b : Rect) : Prop := ∃ p, a.Contains p ∧ b.Contains p

theorem Rect.Overlaps.symm {a b : Rect} (h : a.Overlaps b) : b.Overlaps a := by
  obtain ⟨p, ha, hb⟩ := h
  exact ⟨p, hb, ha⟩

theorem Rect.not_overlaps_of_le {a b : Rect} (h : a.loc.x + a.size.w ≤ b.loc.x) :
    ¬a.Overlaps b := by
  rintro ⟨p, ⟨-, hright, -, -⟩, ⟨hleft, -, -, -⟩⟩
  omega

/-- An output, with the size it has in its mode and scale. -/
structure Display where
  name : Text
  width : Nat
  height : Nat
  width_lt : width < 2 ^ 31 := by decide

/-- The positions that the user pinned, by the name of the output. -/
abbrev Pins := Text → Option (Int32 × Int32)

namespace Display

def size (d : Display) : Size := ⟨d.width, d.height⟩

/-- Where an output goes; the offset is how far right those before it reach. -/
def location (pinned : Pins) (offset : Int) (d : Display) : Point :=
  match pinned d.name with
  | some (x, y) => ⟨x.toInt, y.toInt⟩
  | none => ⟨offset, 0⟩

/-- The offset behind an output. The sum wraps around. -/
def next (pinned : Pins) (offset : Int) (d : Display) : Int :=
  max offset (((location pinned offset d).x + d.width).bmod (2 ^ 32))

/-- Place the outputs. -/
def fixupPositions (pinned : Pins) (offset : Int) : List Display → List Rect
  | [] => []
  | d :: ds =>
      ⟨location pinned offset d, d.size⟩ :: fixupPositions pinned (next pinned offset d) ds

/-- What the places of the outputs should be like. -/
structure Placed (pinned : Pins) (ds : List Display) (places : List Rect) : Prop where
  /-- An output that is not pinned overlaps no other. -/
  apart : ∀ (i j : Nat) (d : Display) (a b : Rect), ds[i]? = some d → pinned d.name = none →
    places[i]? = some a → places[j]? = some b → i ≠ j → ¬a.Overlaps b
  /-- The outputs that are not pinned are where they were from left to right. -/
  ordered : ∀ (i j : Nat) (d e : Display) (a b : Rect), ds[i]? = some d →
    pinned d.name = none → ds[j]? = some e → pinned e.name = none → places[i]? = some a →
      places[j]? = some b → i < j → a.loc.x + a.size.w ≤ b.loc.x

/-! ### How far the outputs reach -/

/-- The width of the outputs that are not pinned. -/
def widths (pinned : Pins) : List Display → Int
  | [] => 0
  | d :: ds => (if pinned d.name = none then d.width else 0) + widths pinned ds

/-- The right edge of an output by itself, if it is within 32 bits. -/
def edge (pinned : Pins) (d : Display) : Int :=
  match pinned d.name with
  | some (x, _) => if x.toInt + d.width < 2 ^ 31 then x.toInt + d.width else 0
  | none => d.width

/-- How far right outputs reach: as far as one of them and those behind it that are not
pinned. -/
def reach (pinned : Pins) : List Display → Int
  | [] => 0
  | d :: ds => max (edge pinned d + widths pinned ds) (reach pinned ds)

/-- No output is pinned to where one goes that is not pinned, and the outputs are not too
wide. -/
structure Clear (pinned : Pins) (ds : List Display) : Prop where
  /-- Those that are not pinned end within 32 bits, but for the last one. -/
  fits : ∀ (i j : Nat) (d e : Display), ds[i]? = some d → pinned d.name = none →
    ds[j]? = some e → pinned e.name = none → i < j → reach pinned (ds.take i) + d.width < 2 ^ 31
  before : ∀ (i j : Nat) (d e : Display) (x y : Int32), ds[i]? = some d → pinned d.name = none →
    ds[j]? = some e → pinned e.name = some (x, y) → i < j →
      ¬Rect.Overlaps ⟨⟨reach pinned (ds.take i), 0⟩, d.size⟩ ⟨⟨x.toInt, y.toInt⟩, e.size⟩
  /-- Those that come later only take care of an output that ends within 32 bits. -/
  behind : ∀ (i j : Nat) (d e : Display) (x y : Int32), ds[i]? = some d → pinned d.name = none →
    ds[j]? = some e → pinned e.name = some (x, y) → j < i → 2 ^ 31 ≤ x.toInt + e.width →
      ¬Rect.Overlaps ⟨⟨reach pinned (ds.take i), 0⟩, d.size⟩ ⟨⟨x.toInt, y.toInt⟩, e.size⟩

variable {pinned : Pins} {offset : Int} {ds : List Display} {d e : Display} {i j : Nat}
  {a b : Rect} {x y : Int32}

theorem location_of_free (hfree : pinned d.name = none) :
    location pinned offset d = ⟨offset, 0⟩ := by
  rw [location, hfree]

theorem location_of_pinned (hpinned : pinned d.name = some (x, y)) :
    location pinned offset d = ⟨x.toInt, y.toInt⟩ := by
  rw [location, hpinned]

theorem widths_nonneg (pinned : Pins) (ds : List Display) : 0 ≤ widths pinned ds := by
  induction ds with
  | nil => exact Int.le_refl 0
  | cons d ds ih =>
      rw [widths]
      split <;> omega

theorem widths_le_reach (pinned : Pins) (ds : List Display) :
    widths pinned ds ≤ reach pinned ds := by
  induction ds with
  | nil => exact Int.le_refl 0
  | cons d ds ih =>
      rw [widths, reach]
      cases hd : pinned d.name with
      | none => simp [edge, hd]
      | some p =>
          rw [if_neg (Option.some_ne_none p), Nat.cast_zero, zero_add]
          exact le_max_of_le_right ih

theorem reach_nonneg (pinned : Pins) (ds : List Display) : 0 ≤ reach pinned ds :=
  (widths_nonneg pinned ds).trans (widths_le_reach pinned ds)

theorem reach_concat (ds : List Display) (d : Display) :
    reach pinned (ds ++ [d]) = max (reach pinned ds)
      ((if pinned d.name = none then reach pinned ds else 0) + edge pinned d) := by
  induction ds with
  | nil => simpa [reach, widths] using max_comm _ _
  | cons c ds ih =>
      have hwidths : widths pinned (ds ++ [d]) =
          widths pinned ds + if pinned d.name = none then d.width else 0 := by
        clear ih
        induction ds with
        | nil => simp [widths]
        | cons c ds ih => rw [List.cons_append, widths, ih, widths, add_assoc]
      rw [List.cons_append, reach, ih, hwidths, reach]
      cases hd : pinned d.name with
      | none =>
          simp only [edge, hd, if_pos]
          omega
      | some p =>
          simp only [reduceCtorEq, if_neg, not_false_iff]
          omega

theorem reach_take_mono (pinned : Pins) (ds : List Display) (h : i ≤ j) :
    reach pinned (ds.take i) ≤ reach pinned (ds.take j) := by
  induction h with
  | refl => exact le_refl _
  | @step m _ ih =>
      apply ih.trans
      rw [List.take_add_one]
      cases ds[m]? with
      | none => simp
      | some d =>
          rw [Option.toList_some, reach_concat]
          exact le_max_left _ _

theorem right_le (pinned : Pins) (hd : ds[i]? = some d) (hij : i < j) :
    (if pinned d.name = none then reach pinned (ds.take i) else 0) + edge pinned d ≤
      reach pinned (ds.take j) := by
  refine le_trans ?_ (reach_take_mono pinned ds hij)
  rw [List.take_add_one, hd, Option.toList_some, reach_concat]
  exact le_max_right _ _

/-! ### The places -/

/-- Where an output goes that is not pinned, the sums are within 32 bits. -/
theorem next_reach (hfits : pinned d.name = none → reach pinned ds + d.width < 2 ^ 31) :
    next pinned (reach pinned ds) d = reach pinned (ds ++ [d]) := by
  have hnonneg := reach_nonneg pinned ds
  have hwidth := d.width_lt
  rw [next, reach_concat]
  cases hd : pinned d.name with
  | none =>
      have hsum := hfits hd
      rw [location_of_free hd, if_pos rfl, edge, hd]
      dsimp only
      rw [Int.bmod_eq_of_le_mul_two (by omega) (by omega)]
  | some p =>
      have hlow := p.1.le_toInt
      have hhigh := p.1.toInt_lt
      rw [location_of_pinned hd, if_neg (Option.some_ne_none p), zero_add, edge, hd]
      dsimp only
      split
      next hin => rw [Int.bmod_eq_of_le_mul_two (by omega) (by omega)]
      next hout =>
        have hwrap : (p.1.toInt + d.width).bmod (2 ^ 32) = p.1.toInt + d.width - 2 ^ 32 := by
          rw [← Int.sub_bmod_right, Int.bmod_eq_of_le_mul_two (by omega) (by omega)]
          rfl
        omega

theorem getElem?_fixupPositions (ds : List Display) (offset : Int) (i : Nat) :
    (fixupPositions pinned offset ds)[i]? = ds[i]?.map fun d =>
      ⟨location pinned ((ds.take i).foldl (next pinned) offset) d, d.size⟩ := by
  induction ds generalizing offset i with
  | nil => rfl
  | cons c ds ih =>
      cases i with
      | zero => rfl
      | succ i => exact ih (next pinned offset c) i

theorem foldl_next_lt (ds : List Display) (h : offset < 2 ^ 31) :
    ds.foldl (next pinned) offset < 2 ^ 31 := by
  induction ds generalizing offset with
  | nil => exact h
  | cons d ds ih => exact ih (max_lt h (Int.bmod_lt (by decide)))

/-- The sums before the output at this place are within 32 bits. -/
def Exact (pinned : Pins) (ds : List Display) (i : Nat) : Prop :=
  ∀ k d, k < i → ds[k]? = some d → pinned d.name = none →
    reach pinned (ds.take k) + d.width < 2 ^ 31

theorem Exact.foldl_next (h : Exact pinned ds i) :
    (ds.take i).foldl (next pinned) 0 = reach pinned (ds.take i) := by
  induction i with
  | zero => rfl
  | succ i ih =>
      have ih := ih fun k d hk => h k d (Nat.lt_succ_of_lt hk)
      rw [List.take_add_one, List.foldl_append, ih]
      cases hd : ds[i]? with
      | none => simp
      | some d => exact next_reach (h i d (Nat.lt_succ_self i) hd)

theorem eq_of_place (hd : ds[i]? = some d) (ha : (fixupPositions pinned 0 ds)[i]? = some a) :
    a = ⟨location pinned ((ds.take i).foldl (next pinned) 0) d, d.size⟩ := by
  rw [getElem?_fixupPositions, hd] at ha
  exact (Option.some.inj ha).symm

theorem place_eq (hd : ds[i]? = some d) (ha : (fixupPositions pinned 0 ds)[i]? = some a)
    (h : Exact pinned ds i) : a = ⟨location pinned (reach pinned (ds.take i)) d, d.size⟩ := by
  rw [eq_of_place hd ha, h.foldl_next]

theorem exists_place (pinned : Pins) (hd : ds[i]? = some d) :
    ∃ a, (fixupPositions pinned 0 ds)[i]? = some a := by
  rw [getElem?_fixupPositions, hd]
  exact ⟨_, rfl⟩

theorem place_lt (hd : ds[i]? = some d) (hfree : pinned d.name = none)
    (ha : (fixupPositions pinned 0 ds)[i]? = some a) : a.loc.x < 2 ^ 31 := by
  rw [eq_of_place hd ha, location_of_free hfree]
  exact foldl_next_lt _ (by decide)

theorem Placed.exact (h : Placed pinned ds (fixupPositions pinned 0 ds))
    (hd : ds[i]? = some d) (hfree : pinned d.name = none) : Exact pinned ds i := by
  intro k c hk hc hcfree
  induction k using Nat.strong_induction_on generalizing c with
  | h k ih =>
      obtain ⟨a, ha⟩ := exists_place pinned hc
      obtain ⟨b, hb⟩ := exists_place pinned hd
      have hexact : Exact pinned ds k := fun m v hm hv hvfree => ih m hm v (hm.trans hk) hv hvfree
      have hright := h.ordered k i c d a b hc hcfree hd hfree ha hb hk
      rw [place_eq hc ha hexact, location_of_free hcfree] at hright
      exact hright.trans_lt (place_lt hd hfree hb)

theorem Placed.clear (h : Placed pinned ds (fixupPositions pinned 0 ds)) : Clear pinned ds := by
  have hpinned (i j : Nat) (d e : Display) (x y : Int32) (hd : ds[i]? = some d)
      (hfree : pinned d.name = none) (he : ds[j]? = some e)
      (hpinned : pinned e.name = some (x, y)) (hne : i ≠ j) :
      ¬Rect.Overlaps ⟨⟨reach pinned (ds.take i), 0⟩, d.size⟩ ⟨⟨x.toInt, y.toInt⟩, e.size⟩ := by
    obtain ⟨a, ha⟩ := exists_place pinned hd
    obtain ⟨b, hb⟩ := exists_place pinned he
    have hapart := h.apart i j d a b hd hfree ha hb hne
    rwa [place_eq hd ha (h.exact hd hfree), location_of_free hfree, eq_of_place he hb,
      location_of_pinned hpinned] at hapart
  constructor
  · intro i j d e hd hfree he hefree hij
    exact h.exact he hefree i d hij hd hfree
  · intro i j d e x y hd hfree he hp hij
    exact hpinned i j d e x y hd hfree he hp hij.ne
  · intro i j d e x y hd hfree he hp hji _
    exact hpinned i j d e x y hd hfree he hp hji.ne'

theorem Clear.placed (h : Clear pinned ds) : Placed pinned ds (fixupPositions pinned 0 ds) := by
  have hplace : ∀ {i : Nat} {d : Display} {a : Rect}, ds[i]? = some d → pinned d.name = none →
      (fixupPositions pinned 0 ds)[i]? = some a →
        a = ⟨⟨reach pinned (ds.take i), 0⟩, d.size⟩ := by
    intro i d a hd hfree ha
    rw [place_eq hd ha fun k c hk hc hcfree => h.fits k i c d hc hcfree hd hfree hk,
      location_of_free hfree]
  have hright : ∀ {i j : Nat} {d e : Display} {a b : Rect}, ds[i]? = some d →
      pinned d.name = none → ds[j]? = some e → pinned e.name = none →
        (fixupPositions pinned 0 ds)[i]? = some a → (fixupPositions pinned 0 ds)[j]? = some b →
          i < j → a.loc.x + a.size.w ≤ b.loc.x := by
    intro i j d e a b hd hfree he hefree ha hb hij
    have hle := right_le pinned hd hij
    rw [if_pos hfree, edge, hfree] at hle
    rw [hplace hd hfree ha, hplace he hefree hb]
    exact hle
  constructor
  · intro i j d a b hd hfree ha hb hne
    obtain ⟨e, he⟩ : ∃ e, ds[j]? = some e := by
      rw [getElem?_fixupPositions] at hb
      obtain ⟨e, he, -⟩ := Option.map_eq_some_iff.mp hb
      exact ⟨e, he⟩
    cases hpinned : pinned e.name with
    | none =>
        obtain hij | hji := Nat.lt_or_gt_of_ne hne
        · exact Rect.not_overlaps_of_le (hright hd hfree he hpinned ha hb hij)
        · exact fun hover =>
            Rect.not_overlaps_of_le (hright he hpinned hd hfree hb ha hji) hover.symm
    | some p =>
        rw [hplace hd hfree ha, eq_of_place he hb, location_of_pinned hpinned]
        obtain hij | hji := Nat.lt_or_gt_of_ne hne
        · exact h.before i j d e p.1 p.2 hd hfree he hpinned hij
        · by_cases hwide : 2 ^ 31 ≤ p.1.toInt + e.width
          · exact h.behind i j d e p.1 p.2 hd hfree he hpinned hji hwide
          · have hle := right_le pinned he hji
            rw [hpinned, if_neg (Option.some_ne_none p), edge, hpinned] at hle
            dsimp only at hle
            rw [if_pos (not_le.mp hwide), zero_add] at hle
            exact fun hover => Rect.not_overlaps_of_le hle hover.symm
  · intro i j d e a b hd hfree he hefree ha hb hij
    exact hright hd hfree he hefree ha hb hij

/-- The outputs are placed as they should be exactly when none is pinned to where one goes that
is not, and they are within 32 bits. -/
theorem placed_iff (pinned : Pins) (ds : List Display) :
    Placed pinned ds (fixupPositions pinned 0 ds) ↔ Clear pinned ds :=
  ⟨Placed.clear, Clear.placed⟩

/-- The second output is pinned to the corner, where the first one goes. -/
theorem not_always_placed : ¬∀ pinned ds, Placed pinned ds (fixupPositions pinned 0 ds) := by
  intro h
  let left : Display := { name := "left".toList, width := 1920, height := 1080 }
  let right : Display := { name := "right".toList, width := 2560, height := 1440 }
  let pinned : Pins := fun name => if name = "right".toList then some (0, 0) else none
  have hapart : ¬Rect.Overlaps ⟨⟨0, 0⟩, ⟨1920, 1080⟩⟩ ⟨⟨0, 0⟩, ⟨2560, 1440⟩⟩ :=
    (h pinned [left, right]).apart 0 1 left _ _ rfl (by decide) rfl rfl (by decide)
  exact hapart ⟨⟨0, 0⟩, by simp [Rect.Contains], by simp [Rect.Contains]⟩

end Display

end MindOS.Wm
