import MindOS.Wm.Dwindle
import Mathlib.Data.List.Count
import Mathlib.Data.List.Pairwise

/-!
# How the dwindle layout fills its area

Every tile is large enough to be used and no two overlap. A split of a side on which two tiles
and the gap have room gives the whole of it to its tile, to the gap and to what comes after;
if all splits are such, every point of the area is in one tile or in one gap.
-/

namespace MindOS.Wm

/-- A coordinate of a point. -/
def Point.along (p : Point) (vertical : Bool) : Int := if vertical then p.x else p.y

/-- A point is in a rectangle, which has its near edges but not its far ones. -/
def Rect.holds (r : Rect) (p : Point) : Bool :=
  [true, false].all fun b =>
    decide (r.start b ≤ p.along b ∧ p.along b < r.start b + r.extent b)

/-- All of the rectangle is in an area. -/
def Rect.Inside (r area : Rect) : Prop :=
  ∀ b, area.start b ≤ r.start b ∧ r.start b + r.extent b ≤ area.start b + area.extent b

/-- One of the rectangles ends, one way or the other, a gap before the other begins. -/
def Rect.Apart (gap : Int) (r s : Rect) : Prop :=
  ∃ b, r.start b + r.extent b + gap ≤ s.start b ∨ s.start b + s.extent b + gap ≤ r.start b

theorem Rect.holds_iff {r : Rect} {p : Point} (b : Bool) : r.holds p = true ↔
    (r.start b ≤ p.along b ∧ p.along b < r.start b + r.extent b) ∧
      r.start (!b) ≤ p.along (!b) ∧ p.along (!b) < r.start (!b) + r.extent (!b) := by
  cases b <;> simp [Rect.holds, and_comm]

namespace Dwindle

variable {F : Type} {f : Fractions F} {gap : Int} {rest : Rect} {frac next : F} {fracs : List F}
variable {i : Nat} {r : Rect} {b v : Bool} {p : Point}

/-- The gap beside the tile of a split. -/
def strip (f : Fractions F) (gap : Int) (rest : Rect) (frac : F) : Rect :=
  let tile := tile f gap rest frac
  if vertical rest then ⟨⟨rest.loc.x + tile.size.w, rest.loc.y⟩, ⟨gap, rest.size.h⟩⟩
  else ⟨⟨rest.loc.x, rest.loc.y + tile.size.h⟩, ⟨rest.size.w, gap⟩⟩

/-- The gaps beside all tiles but the last. -/
def strips (f : Fractions F) (gap : Int) (rest : Rect) : List F → List Rect
  | frac :: next :: fracs =>
      strip f gap rest frac :: strips f gap (remainder f gap rest frac) (next :: fracs)
  | _ => []

/-- Every side that is split has room for two tiles and the gap. -/
def Roomy (f : Fractions F) (gap : Int) (area : Rect) (fracs : List F) : Prop :=
  ∀ j, j + 1 < fracs.length →
    2 * minTile + gap ≤ (region f gap area fracs j).extent (vertical (region f gap area fracs j))

/-- Every point of the area is in exactly one of some pieces, and every other in none. -/
def Covers (area : Rect) (pieces : List Rect) : Prop :=
  ∀ p, pieces.countP (·.holds p) = if area.holds p then 1 else 0

/-! ## One split -/

theorem start_strip (f : Fractions F) (gap : Int) (rest : Rect) (frac : F) :
    (strip f gap rest frac).start (vertical rest) =
      rest.start (vertical rest) + (tile f gap rest frac).extent (vertical rest) := by
  cases h : vertical rest <;> simp [strip, h, Rect.start, Rect.extent]

theorem extent_strip (f : Fractions F) (gap : Int) (rest : Rect) (frac : F) :
    (strip f gap rest frac).extent (vertical rest) = gap := by
  cases h : vertical rest <;> simp [strip, h, Rect.extent]

theorem start_strip_of_ne (hb : b ≠ vertical rest) :
    (strip f gap rest frac).start b = rest.start b := by
  cases h : vertical rest <;> cases b <;> simp_all [strip, Rect.start]

theorem extent_strip_of_ne (hb : b ≠ vertical rest) :
    (strip f gap rest frac).extent b = rest.extent b := by
  cases h : vertical rest <;> cases b <;> simp_all [strip, Rect.extent]

theorem extent_remainder (f : Fractions F) (gap : Int) (rest : Rect) (frac : F) :
    (remainder f gap rest frac).extent (vertical rest) =
      max (rest.extent (vertical rest) - (tile f gap rest frac).extent (vertical rest) - gap)
        minTile := by
  rw [extent_tile]
  cases h : vertical rest <;> simp [remainder, h, Rect.extent]

theorem splitAt_le_max (f : Fractions F) (span : Int) (frac : F) (gap : Int) :
    splitAt f span frac gap ≤ max (span - gap) (2 * minTile) - minTile := by
  have hroom : minTile ≤ max (span - gap) (2 * minTile) - minTile := by
    have hle := le_max_right (span - gap) (2 * minTile)
    simp only [minTile] at hle ⊢
    omega
  exact max_le hroom (min_le_left _ _)

theorem splitAt_le {span : Int} (hroom : 2 * minTile + gap ≤ span) (frac : F) :
    splitAt f span frac gap ≤ span - gap - minTile := by
  have hle := splitAt_le_max f span frac gap
  rwa [max_eq_left (by omega)] at hle

theorem end_remainder
    (hroom : 2 * minTile + gap ≤ rest.extent (vertical rest)) (frac : F) (b : Bool) :
    (remainder f gap rest frac).start b + (remainder f gap rest frac).extent b =
      rest.start b + rest.extent b := by
  obtain rfl | hb := eq_or_ne b (vertical rest)
  · have hspan := splitAt_le (f := f) hroom (f.effective frac)
    rw [start_remainder, extent_remainder, extent_tile, max_eq_left (by omega)]
    omega
  · rw [start_remainder_of_ne hb, extent_remainder_of_ne hb]

theorem holds_split (hgap : 0 ≤ gap) (hroom : 2 * minTile + gap ≤ rest.extent (vertical rest))
    (frac : F) (p : Point) :
    (if (tile f gap rest frac).holds p then 1 else 0) +
        (if (strip f gap rest frac).holds p then 1 else 0) +
        (if (remainder f gap rest frac).holds p then 1 else 0) =
      if rest.holds p then 1 else 0 := by
  have hne : (!vertical rest) ≠ vertical rest := Bool.not_ne_self _
  have hfirst := minTile_le_splitAt f (rest.extent (vertical rest)) (f.effective frac) gap
  have hend := end_remainder (f := f) hroom frac (vertical rest)
  have hremainder := minTile_le_extent_remainder f gap rest frac
  have hstart := start_remainder f gap rest frac
  rw [← extent_tile f gap rest frac] at hfirst
  simp only [Rect.holds_iff (vertical rest), start_tile, extent_tile_of_ne hne, start_strip,
    extent_strip, start_strip_of_ne hne, extent_strip_of_ne hne, start_remainder_of_ne hne,
    extent_remainder_of_ne hne]
  simp only [minTile] at hfirst hremainder
  by_cases hacross : rest.start (!vertical rest) ≤ p.along (!vertical rest) ∧
      p.along (!vertical rest) < rest.start (!vertical rest) + rest.extent (!vertical rest)
  · simp only [hacross, and_true]
    -- the tile, the gap and the rest follow one another
    split <;> split <;> split <;> split <;> omega
  · simp only [hacross, and_false, if_false]

/-! ## All splits -/

theorem roomy_cons : Roomy f gap rest (frac :: next :: fracs) ↔
    2 * minTile + gap ≤ rest.extent (vertical rest) ∧
      Roomy f gap (remainder f gap rest frac) (next :: fracs) := by
  constructor
  · intro h
    exact ⟨h 0 (by simp), fun j hj => h (j + 1) (Nat.succ_lt_succ hj)⟩
  · rintro ⟨hfirst, hrest⟩ (_ | j) hj
    · exact hfirst
    · exact hrest j (Nat.lt_of_succ_lt_succ hj)

/-- The tiles of a layout. -/
def tiles (f : Fractions F) (gap : Int) (rest : Rect) (fracs : List F) : List Rect :=
  (dwindleRects f gap rest fracs).map Prod.fst

theorem tiles_cons (f : Fractions F) (gap : Int) (rest : Rect) (frac next : F) (fracs : List F) :
    tiles f gap rest (frac :: next :: fracs) =
      tile f gap rest frac :: tiles f gap (remainder f gap rest frac) (next :: fracs) := by
  rw [tiles, dwindleRects_cons, List.map_cons]
  rfl

theorem exists_getElem?_of_mem_tiles (h : r ∈ tiles f gap rest fracs) :
    ∃ (i : Nat) (v : Bool), (dwindleRects f gap rest fracs)[i]? = some (r, v) := by
  obtain ⟨⟨s, v⟩, hs, rfl⟩ := List.mem_map.mp h
  obtain ⟨i, hi⟩ := List.mem_iff_getElem?.mp hs
  exact ⟨i, v, hi⟩

theorem apart_tiles (hgap : 0 ≤ gap) (rest : Rect) (fracs : List F) :
    (tiles f gap rest fracs).Pairwise (Rect.Apart gap) := by
  induction fracs generalizing rest with
  | nil => exact .nil
  | cons frac fracs ih =>
      cases fracs with
      | nil => exact List.pairwise_singleton _ _
      | cons next fracs =>
          rw [tiles_cons, List.pairwise_cons]
          refine ⟨fun r hr => ⟨vertical rest, .inl ?_⟩, ih _⟩
          obtain ⟨i, v, hi⟩ := exists_getElem?_of_mem_tiles hr
          rw [start_tile, ← start_remainder]
          exact start_le hgap hi _

theorem inside_tiles (hroom : Roomy f gap rest fracs) (hgap : 0 ≤ gap) :
    ∀ r ∈ tiles f gap rest fracs, r.Inside rest := by
  induction fracs generalizing rest with
  | nil => exact fun r hr => nomatch hr
  | cons frac fracs ih =>
      cases fracs with
      | nil =>
          intro r hr b
          rw [List.mem_singleton.mp hr]
          exact ⟨le_refl _, le_refl _⟩
      | cons next fracs =>
          obtain ⟨hfirst, hrest⟩ := roomy_cons.mp hroom
          rw [tiles_cons]
          intro r hr b
          have hend := end_remainder (f := f) hfirst frac b
          have hmin := minTile_le_extent_remainder f gap rest frac
          obtain rfl | hr := List.mem_cons.mp hr
          · rw [start_tile]
            refine ⟨le_refl _, ?_⟩
            obtain rfl | hb := eq_or_ne b (vertical rest)
            · rw [start_remainder] at hend
              simp only [minTile] at hmin
              omega
            · rw [extent_tile_of_ne hb]
          · have hin := ih hrest r hr b
            have hstart : rest.start b ≤ (remainder f gap rest frac).start b := by
              obtain rfl | hb := eq_or_ne b (vertical rest)
              · have hspan := minTile_le_splitAt f (rest.extent (vertical rest))
                  (f.effective frac) gap
                rw [start_remainder, extent_tile]
                simp only [minTile] at hspan
                omega
              · rw [start_remainder_of_ne hb]
            omega

theorem covers_tiles (hroom : Roomy f gap rest fracs) (hgap : 0 ≤ gap) (hsome : fracs ≠ []) :
    Covers rest (tiles f gap rest fracs ++ strips f gap rest fracs) := by
  induction fracs generalizing rest with
  | nil => exact absurd rfl hsome
  | cons frac fracs ih =>
      cases fracs with
      | nil =>
          intro p
          simp [tiles, dwindleRects, strips, List.countP_cons]
      | cons next fracs =>
          obtain ⟨hfirst, hrest⟩ := roomy_cons.mp hroom
          intro p
          have hcover := ih hrest (List.cons_ne_nil _ _) p
          have hsplit := holds_split (f := f) hgap hfirst frac p
          rw [List.countP_append] at hcover ⊢
          rw [tiles_cons, strips, List.countP_cons, List.countP_cons]
          omega

/-- Every tile can be used and is a gap away from every other; and if every side that is split
has room, the tiles of one window or more are inside the area and leave nothing of it but the
gaps. -/
theorem dwindleRects_tile (f : Fractions F) (gap : Int) (area : Rect) (fracs : List F)
    (hgap : 0 ≤ gap) (harea : ∀ b, minTile ≤ area.extent b) :
    (dwindleRects f gap area fracs).length = fracs.length ∧
      (∀ r ∈ tiles f gap area fracs, ∀ b, minTile ≤ r.extent b) ∧
      (tiles f gap area fracs).Pairwise (Rect.Apart gap) ∧
      (Roomy f gap area fracs → (∀ r ∈ tiles f gap area fracs, r.Inside area) ∧
        (fracs ≠ [] → Covers area (tiles f gap area fracs ++ strips f gap area fracs))) := by
  refine ⟨length_dwindleRects f gap area fracs, fun r hr => ?_, apart_tiles hgap area fracs,
    fun hroom => ⟨inside_tiles hroom hgap, covers_tiles hroom hgap⟩⟩
  obtain ⟨i, v, hi⟩ := exists_getElem?_of_mem_tiles hr
  exact le_extent (le_refl _) harea hi

/-- Three windows with gaps of 8 pixels. -/
theorem dwindleRects_tile_three :
    (dwindleRects sixteenths 8 ⟨⟨0, 0⟩, ⟨1600, 900⟩⟩ [9, 8, 8]).length = 3 ∧
      (∀ r ∈ tiles sixteenths 8 ⟨⟨0, 0⟩, ⟨1600, 900⟩⟩ [9, 8, 8], ∀ b, minTile ≤ r.extent b) ∧
      (tiles sixteenths 8 ⟨⟨0, 0⟩, ⟨1600, 900⟩⟩ [9, 8, 8]).Pairwise (Rect.Apart 8) ∧
      (Roomy sixteenths 8 ⟨⟨0, 0⟩, ⟨1600, 900⟩⟩ [9, 8, 8] →
        (∀ r ∈ tiles sixteenths 8 ⟨⟨0, 0⟩, ⟨1600, 900⟩⟩ [9, 8, 8],
          r.Inside ⟨⟨0, 0⟩, ⟨1600, 900⟩⟩) ∧
        ([9, 8, 8] ≠ ([] : List Int) → Covers ⟨⟨0, 0⟩, ⟨1600, 900⟩⟩
          (tiles sixteenths 8 ⟨⟨0, 0⟩, ⟨1600, 900⟩⟩ [9, 8, 8] ++
            strips sixteenths 8 ⟨⟨0, 0⟩, ⟨1600, 900⟩⟩ [9, 8, 8]))) :=
  dwindleRects_tile sixteenths 8 ⟨⟨0, 0⟩, ⟨1600, 900⟩⟩ [9, 8, 8] (by decide) (by decide)

/-- No window covers nothing. -/
theorem not_always_covered : ¬∀ (F : Type) (f : Fractions F) (gap : Int) (area : Rect)
    (fracs : List F), 0 ≤ gap → (∀ b, minTile ≤ area.extent b) → Roomy f gap area fracs →
      Covers area (tiles f gap area fracs ++ strips f gap area fracs) := by
  intro h
  have hcover := h Int sixteenths 0 ⟨⟨0, 0⟩, ⟨1600, 900⟩⟩ [] (le_refl 0) (by decide)
    (fun j hj => absurd hj (Nat.not_lt_zero _)) ⟨0, 0⟩
  exact absurd hcover (by decide)

end Dwindle

end MindOS.Wm
