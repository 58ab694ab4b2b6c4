import MindOS.Wm.Dwindle
import Mathlib.Algebra.Order.BigOperators.Group.List
import Mathlib.Algebra.Order.Field.Basic
import Mathlib.Data.Rat.Floor
import Mathlib.Tactic.Linarith
import Mathlib.Tactic.NormNum

/-!
# The columns layout and its strip

Every window is a column of the full height, of a width that is a fraction of the area. The
columns stand side by side on a strip, which is scrolled so that the focused one is in view.
The arithmetic is exact here.
-/

namespace MindOS.Wm.Columns

open Dwindle (minTile)

/-- `f32::round`: a half is rounded away from zero. -/
def round (q : Rat) : Int := if 0 ≤ q then ⌊q + 1 / 2⌋ else -⌊-q + 1 / 2⌋

/-- The fraction that a column is made with: a half if there is none, and else not too near to
nothing. -/
def effective (q : Rat) : Rat := if q ≤ 0 then 1 / 2 else max (1 / 10) (min q 1)

/-- The width of a column, which takes a fraction of the area; `none` is not a number. -/
def columnWidth (areaW : Int) (frac : Option Rat) (gap : Int) : Int :=
  match frac with
  | none => minTile
  | some q =>
      if 999 / 1000 ≤ effective q then max areaW minTile
      else max (round ((areaW - gap : Int) * effective q)) minTile

/-- Columns from an abscissa on. -/
def columnsFrom (area : Rect) (gap : Int) (x : Int) : List (Option Rat) → List Rect
  | [] => []
  | frac :: widths =>
      let w := columnWidth area.size.w frac gap
      ⟨⟨x, area.loc.y⟩, ⟨w, area.size.h⟩⟩ :: columnsFrom area gap (x + w + gap) widths

def columnRects (area : Rect) (widths : List (Option Rat)) (gap scroll : Int) : List Rect :=
  columnsFrom area gap (area.loc.x - scroll) widths

/-- How long the strip is. -/
def total (areaW : Int) (widths : List (Option Rat)) (gap : Int) : Int :=
  (widths.map fun frac => columnWidth areaW frac gap).sum + gap * (widths.length - 1 : Nat)

/-- The scroll offset with the column of an index in view, the first one being at `x`. -/
def reveal (areaW gap scroll : Int) (f : Nat) (x : Int) : List (Option Rat) → Int
  | [] => scroll
  | frac :: widths =>
      let w := columnWidth areaW frac gap
      match f with
      | 0 => if x < scroll then x else if scroll + areaW < x + w then x + w - areaW else scroll
      | f + 1 => reveal areaW gap scroll f (x + w + gap) widths

/-- `i32::clamp` -/
def clamp (low high n : Int) : Int := max low (min high n)

/-- The scroll offset that keeps the focused column inside the area. -/
def scrollToShow (areaW : Int) (widths : List (Option Rat)) (gap scroll : Int)
    (focused : Option Nat) : Int :=
  let total := total areaW widths gap
  if total ≤ areaW then 0
  else
    let scroll := clamp 0 (total - areaW) scroll
    let scroll := match focused with
      | some f => reveal areaW gap scroll f 0 widths
      | none => scroll
    clamp 0 (total - areaW) scroll

/-! ## Widths -/

theorem round_le {q : Rat} {n : Int} (h : q ≤ n) : round q ≤ n := by
  unfold round
  split
  · rw [Int.floor_le_iff]
    linarith
  · rw [neg_le, Int.le_floor]
    push_cast
    linarith

variable {area : Rect} {areaW gap scroll x : Int} {frac : Option Rat} {widths : List (Option Rat)}
variable {f : Nat} {focused : Option Nat}

theorem effective_nonneg (q : Rat) : 0 ≤ effective q := by
  unfold effective
  split
  · norm_num
  · exact le_max_of_le_left (by norm_num)

theorem effective_le_one (q : Rat) : effective q ≤ 1 := by
  unfold effective
  split
  · norm_num
  · exact max_le (by norm_num) (min_le_right _ _)

theorem minTile_le_columnWidth (areaW : Int) (frac : Option Rat) (gap : Int) :
    minTile ≤ columnWidth areaW frac gap := by
  unfold columnWidth
  split
  · exact le_refl _
  · split
    · exact le_max_right _ _
    · exact le_max_right _ _

theorem columnWidth_le (frac : Option Rat) (harea : minTile ≤ areaW) (hgap : 0 ≤ gap) :
    columnWidth areaW frac gap ≤ areaW := by
  unfold columnWidth
  split
  · exact harea
  next q =>
    split
    · exact max_le (le_refl _) harea
    · refine max_le (round_le ?_) harea
      have hpos : (0 : Rat) ≤ areaW := by exact_mod_cast le_trans (by decide) harea
      have hle : ((areaW - gap : Int) : Rat) ≤ areaW := by exact_mod_cast sub_le_self areaW hgap
      calc ((areaW - gap : Int) : Rat) * effective q
          ≤ areaW * effective q := mul_le_mul_of_nonneg_right hle (effective_nonneg q)
        _ ≤ areaW := mul_le_of_le_one_right hpos (effective_le_one q)

theorem columnWidth_pos (areaW : Int) (frac : Option Rat) (gap : Int) :
    0 < columnWidth areaW frac gap :=
  lt_of_lt_of_le (by decide) (minTile_le_columnWidth areaW frac gap)

/-! ## Where the columns are -/

/-- How far a column is from where the strip starts. -/
def offset (areaW : Int) (widths : List (Option Rat)) (gap : Int) (f : Nat) : Int :=
  ((widths.take f).map fun frac => columnWidth areaW frac gap + gap).sum

theorem offset_succ (areaW : Int) (frac : Option Rat) (widths : List (Option Rat)) (gap : Int)
    (f : Nat) : offset areaW (frac :: widths) gap (f + 1) =
      columnWidth areaW frac gap + gap + offset areaW widths gap f := by
  rw [offset, List.take_succ_cons, List.map_cons, List.sum_cons]
  rfl

theorem offset_nonneg (areaW : Int) (widths : List (Option Rat)) (hgap : 0 ≤ gap) (f : Nat) :
    0 ≤ offset areaW widths gap f := by
  refine List.sum_nonneg fun w hw => ?_
  obtain ⟨frac, -, rfl⟩ := List.mem_map.mp hw
  exact add_nonneg (columnWidth_pos areaW frac gap).le hgap

theorem getElem?_columnsFrom (area : Rect) (gap x : Int) (widths : List (Option Rat)) (f : Nat) :
    (columnsFrom area gap x widths)[f]? = widths[f]?.map fun frac =>
      ⟨⟨x + offset area.size.w widths gap f, area.loc.y⟩,
        ⟨columnWidth area.size.w frac gap, area.size.h⟩⟩ := by
  induction widths generalizing x f with
  | nil => rfl
  | cons frac widths ih =>
      cases f with
      | zero => simp [columnsFrom, offset]
      | succ f =>
          rw [columnsFrom, List.getElem?_cons_succ, ih, List.getElem?_cons_succ, offset_succ]
          simp only [add_assoc]

theorem offset_add_le (areaW : Int) (hgap : 0 ≤ gap) (h : widths[f]? = some frac) :
    offset areaW widths gap f + columnWidth areaW frac gap ≤ total areaW widths gap := by
  induction widths generalizing f with
  | nil => cases h
  | cons first widths ih =>
      have hrest : 0 ≤ (widths.map fun frac => columnWidth areaW frac gap).sum := by
        refine List.sum_nonneg fun w hw => ?_
        obtain ⟨frac, -, rfl⟩ := List.mem_map.mp hw
        exact (columnWidth_pos areaW frac gap).le
      cases f with
      | zero =>
          obtain rfl := Option.some.inj h
          have hgaps : 0 ≤ gap * (widths.length : Nat) := mul_nonneg hgap (Int.natCast_nonneg _)
          simp only [offset, List.take_zero, List.map_nil, List.sum_nil, total, List.map_cons,
            List.sum_cons, List.length_cons, Nat.add_sub_cancel]
          omega
      | succ f =>
          have hlength : 0 < widths.length := by
            rw [List.getElem?_cons_succ] at h
            exact Nat.zero_lt_of_lt (List.getElem?_eq_some_iff.mp h).1
          have hih := ih h
          have hgaps : gap * (widths.length : Nat) = gap * (widths.length - 1 : Nat) + gap := by
            rw [← mul_add_one]
            congr 1
            omega
          simp only [total, List.map_cons, List.sum_cons, List.length_cons,
            Nat.add_sub_cancel] at hih ⊢
          rw [offset_succ]
          omega

/-! ## Where the strip is scrolled to -/

theorem reveal_eq (areaW gap scroll : Int) (f : Nat) (x : Int) (widths : List (Option Rat)) :
    reveal areaW gap scroll f x widths =
      match widths[f]? with
      | none => scroll
      | some frac =>
          let left := x + offset areaW widths gap f
          let right := left + columnWidth areaW frac gap
          if left < scroll then left else if scroll + areaW < right then right - areaW
          else scroll := by
  induction widths generalizing f x with
  | nil => cases f <;> rfl
  | cons first widths ih =>
      cases f with
      | zero => simp [reveal, offset]
      | succ f =>
          rw [reveal, ih, List.getElem?_cons_succ, offset_succ]
          simp only [add_assoc]

theorem scrollToShow_eq (hlong : ¬total areaW widths gap ≤ areaW) (scroll : Int)
    (focused : Option Nat) : scrollToShow areaW widths gap scroll focused =
      clamp 0 (total areaW widths gap - areaW)
        (match focused with
        | some f =>
            reveal areaW gap (clamp 0 (total areaW widths gap - areaW) scroll) f 0 widths
        | none => clamp 0 (total areaW widths gap - areaW) scroll) := by
  rw [scrollToShow, if_neg hlong]

/-- The offsets at which there is no more beyond either end than there must be. -/
def InRange (areaW : Int) (widths : List (Option Rat)) (gap scroll : Int) : Prop :=
  0 ≤ scroll ∧ scroll ≤ max 0 (total areaW widths gap - areaW)

/-- A column is fully inside the area. -/
def InView (area column : Rect) : Prop :=
  area.loc.x ≤ column.loc.x ∧ column.loc.x + column.size.w ≤ area.loc.x + area.size.w

/-- What the focused index stands for is in view, if it is there. -/
def Shows (area : Rect) (widths : List (Option Rat)) (gap scroll : Int) (focused : Option Nat) :
    Prop :=
  ∀ f ∈ focused, ∀ column, (columnRects area widths gap scroll)[f]? = some column →
    InView area column

theorem shows_iff : Shows area widths gap scroll focused ↔ ∀ f ∈ focused, ∀ frac,
    widths[f]? = some frac → scroll ≤ offset area.size.w widths gap f ∧
      offset area.size.w widths gap f + columnWidth area.size.w frac gap ≤
        scroll + area.size.w := by
  refine forall₂_congr fun f _ => ?_
  rw [columnRects]
  simp only [getElem?_columnsFrom, Option.map_eq_some_iff, InView]
  constructor
  · intro h frac hfrac
    have hview := h _ ⟨frac, hfrac, rfl⟩
    simp only at hview
    omega
  · rintro h _ ⟨frac, hfrac, rfl⟩
    have hview := h frac hfrac
    simp only
    omega

theorem clamp_of_mem {low high n : Int} (hlow : low ≤ n) (hhigh : n ≤ high) :
    clamp low high n = n := by
  rw [clamp, min_eq_right hhigh, max_eq_right hlow]

theorem le_clamp (low high n : Int) : low ≤ clamp low high n := le_max_left _ _

theorem clamp_le {low high : Int} (h : low ≤ high) (n : Int) : clamp low high n ≤ high :=
  max_le h (min_le_left _ _)

/-- On a strip that is longer than the area the offset is the one in range, unless the focused
column begins before it or ends beyond it. -/
theorem scrollToShow_cases (harea : minTile ≤ areaW) (hgap : 0 ≤ gap)
    (hlong : areaW < total areaW widths gap) (scroll : Int) (focused : Option Nat) :
    let inRange := clamp 0 (total areaW widths gap - areaW) scroll
    let next := scrollToShow areaW widths gap scroll focused
    (next = inRange ∧ (∀ f ∈ focused, ∀ frac, widths[f]? = some frac →
        inRange ≤ offset areaW widths gap f ∧
          offset areaW widths gap f + columnWidth areaW frac gap ≤ inRange + areaW)) ∨
      ∃ f ∈ focused, ∃ frac, widths[f]? = some frac ∧
        (offset areaW widths gap f < inRange ∧ next = offset areaW widths gap f ∨
          inRange + areaW < offset areaW widths gap f + columnWidth areaW frac gap ∧
            next = offset areaW widths gap f + columnWidth areaW frac gap - areaW) := by
  intro inRange next
  have hlow : 0 ≤ inRange := le_clamp _ _ _
  have hhigh : inRange ≤ total areaW widths gap - areaW := clamp_le (by omega) _
  have hnext : next = _ := scrollToShow_eq (by omega) scroll focused
  cases focused with
  | none => exact .inl ⟨hnext.trans (clamp_of_mem hlow hhigh), fun f hf => nomatch hf⟩
  | some f =>
      simp only [reveal_eq, zero_add] at hnext
      cases hfrac : widths[f]? with
      | none =>
          rw [hfrac] at hnext
          refine .inl ⟨hnext.trans (clamp_of_mem hlow hhigh), ?_⟩
          rintro _ ⟨⟩ frac hsome
          exact nomatch hfrac.symm.trans hsome
      | some frac =>
          rw [hfrac] at hnext
          replace hnext : next = clamp 0 (total areaW widths gap - areaW)
              (if offset areaW widths gap f < inRange then offset areaW widths gap f
              else if inRange + areaW < offset areaW widths gap f + columnWidth areaW frac gap then
                offset areaW widths gap f + columnWidth areaW frac gap - areaW
              else inRange) := hnext
          have hpos := offset_nonneg areaW widths hgap f
          have hend := offset_add_le areaW hgap hfrac
          have hwidth := columnWidth_le frac harea hgap
          by_cases hbefore : offset areaW widths gap f < inRange
          · rw [if_pos hbefore, clamp_of_mem (by omega) (by omega)] at hnext
            exact .inr ⟨f, rfl, frac, hfrac, .inl ⟨hbefore, hnext⟩⟩
          · rw [if_neg hbefore] at hnext
            by_cases hbeyond : inRange + areaW <
                offset areaW widths gap f + columnWidth areaW frac gap
            · rw [if_pos hbeyond, clamp_of_mem (by omega) (by omega)] at hnext
              exact .inr ⟨f, rfl, frac, hfrac, .inr ⟨hbeyond, hnext⟩⟩
            · rw [if_neg hbeyond, clamp_of_mem (by omega) (by omega)] at hnext
              refine .inl ⟨hnext, ?_⟩
              rintro _ ⟨⟩ other hother
              obtain rfl := Option.some.inj (hfrac.symm.trans hother)
              omega

theorem scrollToShow_of_short (h : total areaW widths gap ≤ areaW) (scroll : Int)
    (focused : Option Nat) : scrollToShow areaW widths gap scroll focused = 0 := if_pos h

theorem scrollToShow_inRange (widths : List (Option Rat)) (harea : minTile ≤ areaW)
    (hgap : 0 ≤ gap) (scroll : Int) (focused : Option Nat) :
    InRange areaW widths gap (scrollToShow areaW widths gap scroll focused) := by
  by_cases hshort : total areaW widths gap ≤ areaW
  · rw [scrollToShow_of_short hshort]
    exact ⟨le_refl _, le_max_left _ _⟩
  · have hlow : 0 ≤ clamp 0 (total areaW widths gap - areaW) scroll := le_clamp _ _ _
    have hhigh : clamp 0 (total areaW widths gap - areaW) scroll ≤
        total areaW widths gap - areaW := clamp_le (by omega) _
    rw [InRange, max_eq_right (by omega)]
    obtain ⟨hnext, -⟩ | ⟨f, -, frac, hfrac, hmove⟩ :=
      scrollToShow_cases harea hgap (not_le.mp hshort) scroll focused
    · rw [hnext]
      exact ⟨hlow, hhigh⟩
    · have hpos := offset_nonneg areaW widths hgap f
      have hend := offset_add_le areaW hgap hfrac
      omega

theorem scrollToShow_shows (widths : List (Option Rat)) (harea : minTile ≤ area.size.w)
    (hgap : 0 ≤ gap) (scroll : Int) (focused : Option Nat) : Shows area widths gap
      (scrollToShow area.size.w widths gap scroll focused) focused := by
  rw [shows_iff]
  intro f hf frac hfrac
  have hpos := offset_nonneg area.size.w widths hgap f
  have hend := offset_add_le area.size.w hgap hfrac
  by_cases hshort : total area.size.w widths gap ≤ area.size.w
  · rw [scrollToShow_of_short hshort]
    omega
  · obtain ⟨hnext, hview⟩ | ⟨g, hg, other, hother, hmove⟩ :=
      scrollToShow_cases harea hgap (not_le.mp hshort) scroll focused
    · rw [hnext]
      exact hview f hf frac hfrac
    · obtain rfl := Option.mem_unique hf hg
      obtain rfl := Option.some.inj (hfrac.symm.trans hother)
      have hwidth := columnWidth_le frac harea hgap
      omega

theorem scrollToShow_of_shows (harea : minTile ≤ area.size.w) (hgap : 0 ≤ gap)
    (hrange : InRange area.size.w widths gap scroll)
    (hshows : Shows area widths gap scroll focused) :
    scrollToShow area.size.w widths gap scroll focused = scroll := by
  obtain ⟨hlow, hhigh⟩ := hrange
  by_cases hshort : total area.size.w widths gap ≤ area.size.w
  · rw [scrollToShow_of_short hshort]
    rw [max_eq_left (by omega)] at hhigh
    omega
  · rw [max_eq_right (by omega)] at hhigh
    obtain ⟨hnext, -⟩ | ⟨f, hf, frac, hfrac, hmove⟩ :=
      scrollToShow_cases harea hgap (not_le.mp hshort) scroll focused
    · exact hnext.trans (clamp_of_mem hlow hhigh)
    · rw [clamp_of_mem hlow hhigh] at hmove
      have hview := shows_iff.mp hshows f hf frac hfrac
      omega

/-- The strip is scrolled no further than to its ends, has the focused column in view, stays
where it is from then on, and moves only for a reason. -/
theorem scrollToShow_correct (area : Rect) (widths : List (Option Rat)) (gap scroll : Int)
    (focused : Option Nat) (harea : minTile ≤ area.size.w) (hgap : 0 ≤ gap) :
    let next := scrollToShow area.size.w widths gap scroll focused
    InRange area.size.w widths gap next ∧ Shows area widths gap next focused ∧
      scrollToShow area.size.w widths gap next focused = next ∧
      (next ≠ scroll →
        ¬Shows area widths gap scroll focused ∨ ¬InRange area.size.w widths gap scroll) := by
  intro next
  have hrange := scrollToShow_inRange widths harea hgap scroll focused
  have hshows := scrollToShow_shows widths harea hgap scroll focused
  refine ⟨hrange, hshows, scrollToShow_of_shows harea hgap hrange hshows, fun hmoved => ?_⟩
  by_contra hreason
  rw [not_or, not_not, not_not] at hreason
  exact hmoved (scrollToShow_of_shows harea hgap hreason.2 hreason.1)

/-- Three columns of half an area, of which the last is focused. -/
theorem scrollToShow_correct_last :
    let area : Rect := ⟨⟨0, 0⟩, ⟨1000, 800⟩⟩
    let widths := [none, some (1 / 2), some 1]
    let next := scrollToShow 1000 widths 8 0 (some 2)
    InRange 1000 widths 8 next ∧ Shows area widths 8 next (some 2) ∧
      scrollToShow 1000 widths 8 next (some 2) = next ∧
      (next ≠ 0 → ¬Shows area widths 8 0 (some 2) ∨ ¬InRange 1000 widths 8 0) :=
  scrollToShow_correct ⟨⟨0, 0⟩, ⟨1000, 800⟩⟩ [none, some (1 / 2), some 1] 8 0 (some 2) (by decide)
    (by decide)

end MindOS.Wm.Columns
