import MindOS.Wm.Windows
import Mathlib.Algebra.Order.Group.Int
import Mathlib.Order.Lattice

/-!
# The dwindle layout and its dividers

Each tile takes a fraction of what is left, along the longer side, and the rest goes to the
tiles after it. A drag on an edge of a tile moves the divider of the split that the edge
lies on, which is found again from the rectangles. Coordinates are unbounded here.
-/

namespace MindOS.Wm

/-- Where a rectangle starts: at its left, or at its top. -/
def Rect.start (r : Rect) (vertical : Bool) : Int := if vertical then r.loc.x else r.loc.y

/-- How far a rectangle goes from there. -/
def Rect.extent (r : Rect) (vertical : Bool) : Int := if vertical then r.size.w else r.size.h

namespace Dwindle

/-- The least that a split leaves on either side. -/
def minTile : Int := 120

/-- The arithmetic of the fractions, which is in single precision. -/
structure Fractions (F : Type) where
  /-- The fraction that a split is made with: a half if there is none, and else not too near
  to nothing or to everything. -/
  effective : F → F
  /-- That much of a length, rounded to a pixel. -/
  portion : Int → F → Int

variable {F : Type}

/-- Where a split falls. -/
def splitAt (f : Fractions F) (span : Int) (frac : F) (gap : Int) : Int :=
  let usable := max (span - gap) (2 * minTile)
  max minTile (min (usable - minTile) (f.portion usable frac))

/-- The tiles of what is left, each with whether it was split off by a vertical divider. -/
def dwindleRects (f : Fractions F) (gap : Int) (rest : Rect) : List F → List (Rect × Bool)
  | [] => []
  | [_] => [(rest, decide (rest.size.h ≤ rest.size.w))]
  | frac :: next :: fracs =>
      if rest.size.h ≤ rest.size.w then
        let w1 := splitAt f rest.size.w (f.effective frac) gap
        (⟨rest.loc, ⟨w1, rest.size.h⟩⟩, true) :: dwindleRects f gap
          ⟨⟨rest.loc.x + w1 + gap, rest.loc.y⟩,
            ⟨max (rest.size.w - w1 - gap) minTile, rest.size.h⟩⟩ (next :: fracs)
      else
        let h1 := splitAt f rest.size.h (f.effective frac) gap
        (⟨rest.loc, ⟨rest.size.w, h1⟩⟩, false) :: dwindleRects f gap
          ⟨⟨rest.loc.x, rest.loc.y + h1 + gap⟩,
            ⟨rest.size.w, max (rest.size.h - h1 - gap) minTile⟩⟩ (next :: fracs)

/-- The edges of a tile that are dragged. -/
structure ResizeEdge where
  left : Bool := false
  right : Bool := false
  top : Bool := false
  bottom : Bool := false

def near (a b : Int) : Bool := decide ((a - b).natAbs ≤ 1)

/-- The first split with its divider on one side of a tile: on the far side, which is that of
its own split, or on the near one. -/
def find (rects : List Rect) (splitX : List Bool) (i : Nat) (r : Rect) (gap : Int)
    (vertical far : Bool) : Option Nat :=
  (List.range (rects.length - 1)).find? fun j =>
    splitX[j]? == some vertical &&
      if far then j == i
      else decide (j < i) && rects[j]?.any fun s =>
        if vertical then near (s.loc.x + s.size.w + gap) r.loc.x
        else near (s.loc.y + s.size.h + gap) r.loc.y

/-- The split whose divider lies along the edges of a tile. -/
def dwindleDivider (rects : List Rect) (splitX : List Bool) (i : Nat) (edges : ResizeEdge)
    (gap : Int) : Option Nat :=
  rects[i]?.bind fun r =>
    let find := find rects splitX i r gap
    let sideways :=
      if edges.left then find true false
      else if edges.right then find true true
      else none
    sideways.or
      (if edges.top then find false false
      else if edges.bottom then find false true
      else none)

/-! ## One split -/

/-- What is left is split by a vertical divider. -/
def vertical (rest : Rect) : Bool := decide (rest.size.h ≤ rest.size.w)

/-- The tile that is split off. -/
def tile (f : Fractions F) (gap : Int) (rest : Rect) (frac : F) : Rect :=
  let span := splitAt f (rest.extent (vertical rest)) (f.effective frac) gap
  if vertical rest then ⟨rest.loc, ⟨span, rest.size.h⟩⟩ else ⟨rest.loc, ⟨rest.size.w, span⟩⟩

/-- What goes to the tiles after it. -/
def remainder (f : Fractions F) (gap : Int) (rest : Rect) (frac : F) : Rect :=
  let span := splitAt f (rest.extent (vertical rest)) (f.effective frac) gap
  if vertical rest then
    ⟨⟨rest.loc.x + span + gap, rest.loc.y⟩, ⟨max (rest.size.w - span - gap) minTile, rest.size.h⟩⟩
  else
    ⟨⟨rest.loc.x, rest.loc.y + span + gap⟩, ⟨rest.size.w, max (rest.size.h - span - gap) minTile⟩⟩

variable {f : Fractions F} {gap : Int} {rest : Rect} {frac next : F} {fracs : List F}

theorem dwindleRects_cons (f : Fractions F) (gap : Int) (rest : Rect) (frac next : F)
    (fracs : List F) : dwindleRects f gap rest (frac :: next :: fracs) =
      (tile f gap rest frac, vertical rest) ::
        dwindleRects f gap (remainder f gap rest frac) (next :: fracs) := by
  rw [dwindleRects]
  by_cases h : rest.size.h ≤ rest.size.w <;>
    simp [h, tile, remainder, vertical, Rect.extent]

theorem minTile_le_splitAt (f : Fractions F) (span : Int) (frac : F) (gap : Int) :
    minTile ≤ splitAt f span frac gap := le_max_left _ _

@[simp] theorem start_tile (b : Bool) : (tile f gap rest frac).start b = rest.start b := by
  cases h : vertical rest <;> simp [tile, h, Rect.start]

theorem extent_tile (f : Fractions F) (gap : Int) (rest : Rect) (frac : F) :
    (tile f gap rest frac).extent (vertical rest) =
      splitAt f (rest.extent (vertical rest)) (f.effective frac) gap := by
  cases h : vertical rest <;> simp [tile, h, Rect.extent]

theorem extent_tile_of_ne {b : Bool} (hb : b ≠ vertical rest) :
    (tile f gap rest frac).extent b = rest.extent b := by
  cases h : vertical rest <;> cases b <;> simp_all [tile, Rect.extent]

theorem start_remainder (f : Fractions F) (gap : Int) (rest : Rect) (frac : F) :
    (remainder f gap rest frac).start (vertical rest) =
      rest.start (vertical rest) + (tile f gap rest frac).extent (vertical rest) + gap := by
  rw [extent_tile]
  cases h : vertical rest <;> simp [remainder, h, Rect.start]

theorem start_remainder_of_ne {b : Bool} (hb : b ≠ vertical rest) :
    (remainder f gap rest frac).start b = rest.start b := by
  cases h : vertical rest <;> cases b <;> simp_all [remainder, Rect.start]

theorem minTile_le_extent_remainder (f : Fractions F) (gap : Int) (rest : Rect) (frac : F) :
    minTile ≤ (remainder f gap rest frac).extent (vertical rest) := by
  cases h : vertical rest <;> simp [remainder, h, Rect.extent]

theorem extent_remainder_of_ne {b : Bool} (hb : b ≠ vertical rest) :
    (remainder f gap rest frac).extent b = rest.extent b := by
  cases h : vertical rest <;> cases b <;> simp_all [remainder, Rect.extent]

/-! ## The tiles of a layout -/

/-- What the split `j` divides: its own tile and everything after it. -/
def region (f : Fractions F) (gap : Int) (rest : Rect) : List F → Nat → Rect
  | frac :: fracs, j + 1 => region f gap (remainder f gap rest frac) fracs j
  | _, _ => rest

variable {i j : Nat} {r s : Rect} {b v : Bool}

theorem length_dwindleRects (f : Fractions F) (gap : Int) (rest : Rect) (fracs : List F) :
    (dwindleRects f gap rest fracs).length = fracs.length := by
  induction fracs generalizing rest with
  | nil => rfl
  | cons frac fracs ih =>
      cases fracs with
      | nil => rfl
      | cons next fracs => rw [dwindleRects_cons, List.length_cons, ih]; rfl

theorem drop_dwindleRects (f : Fractions F) (gap : Int) (rest : Rect) (fracs : List F) (j : Nat) :
    (dwindleRects f gap rest fracs).drop j =
      dwindleRects f gap (region f gap rest fracs j) (fracs.drop j) := by
  induction fracs generalizing rest j with
  | nil => cases j <;> rfl
  | cons frac fracs ih =>
      cases j with
      | zero => rfl
      | succ j =>
          cases fracs with
          | nil => simp [dwindleRects]
          | cons next fracs =>
              rw [dwindleRects_cons, List.drop_succ_cons, ih, List.drop_succ_cons, region]

theorem getElem?_dwindleRects (f : Fractions F) (gap : Int) (rest : Rect) (fracs : List F)
    (j : Nat) : (dwindleRects f gap rest fracs)[j]? =
      (dwindleRects f gap (region f gap rest fracs j) (fracs.drop j))[0]? := by
  rw [← drop_dwindleRects, List.getElem?_drop, add_zero]

/-- What holds of what is left as a tile and of the tile that a split splits off, and passes
on from what a split leaves, holds of every tile. -/
theorem tile_induction {P : Rect → Rect → Prop} (last : ∀ rest, P rest rest)
    (first : ∀ rest frac, P rest (tile f gap rest frac))
    (later : ∀ rest frac r, P (remainder f gap rest frac) r → P rest r)
    (h : (dwindleRects f gap rest fracs)[i]? = some (r, v)) : P rest r := by
  induction fracs generalizing rest i with
  | nil => simp [dwindleRects] at h
  | cons frac fracs ih =>
      cases fracs with
      | nil =>
          cases i with
          | zero =>
              obtain ⟨rfl, -⟩ := Prod.mk.inj (Option.some.inj h)
              exact last rest
          | succ i => simp [dwindleRects] at h
      | cons next fracs =>
          rw [dwindleRects_cons] at h
          cases i with
          | zero =>
              obtain ⟨rfl, -⟩ := Prod.mk.inj (Option.some.inj h)
              exact first rest frac
          | succ i => exact later rest frac r (ih h)

theorem start_le (hgap : 0 ≤ gap) (h : (dwindleRects f gap rest fracs)[i]? = some (r, v))
    (b : Bool) : rest.start b ≤ r.start b := by
  refine tile_induction (P := fun rest r => rest.start b ≤ r.start b) (fun _ => le_refl _)
    (fun rest frac => (start_tile b).ge) (fun rest frac r hr => le_trans ?_ hr) h
  obtain rfl | hb := eq_or_ne b (vertical rest)
  · have hspan := minTile_le_splitAt f (rest.extent (vertical rest)) (f.effective frac) gap
    rw [start_remainder, extent_tile]
    simp only [minTile] at hspan
    omega
  · rw [start_remainder_of_ne hb]

theorem start_eq_or (h : (dwindleRects f gap rest fracs)[i]? = some (r, v)) (b : Bool) :
    r.start b = rest.start b ∨ ∃ j < i, ∃ s, (dwindleRects f gap rest fracs)[j]? = some (s, b) ∧
      r.start b = s.start b + s.extent b + gap := by
  induction fracs generalizing rest i with
  | nil => simp [dwindleRects] at h
  | cons frac fracs ih =>
      cases fracs with
      | nil =>
          cases i with
          | zero => simp_all [dwindleRects]
          | succ i => simp [dwindleRects] at h
      | cons next fracs =>
          rw [dwindleRects_cons] at h ⊢
          cases i with
          | zero =>
              obtain ⟨rfl, -⟩ := Prod.mk.inj (Option.some.inj h)
              exact .inl (start_tile b)
          | succ i =>
              obtain hstart | ⟨j, hj, s, hs, hstart⟩ := ih h
              · obtain rfl | hb := eq_or_ne b (vertical rest)
                · refine .inr ⟨0, i.succ_pos, _, rfl, ?_⟩
                  rw [hstart, start_remainder, start_tile]
                · exact .inl (hstart.trans (start_remainder_of_ne hb))
              · exact .inr ⟨j + 1, Nat.succ_lt_succ hj, s, hs, hstart⟩

theorem start_eq (h : (dwindleRects f gap rest fracs)[i]? = some (r, v))
    (hnone : ∀ j < i, ∀ s, (dwindleRects f gap rest fracs)[j]? ≠ some (s, b)) :
    r.start b = rest.start b := by
  obtain hstart | ⟨j, hj, s, hs, -⟩ := start_eq_or h b
  · exact hstart
  · exact absurd hs (hnone j hj s)

theorem tile_region (h : (dwindleRects f gap rest fracs)[j]? = some (s, b))
    (hj : j + 1 < fracs.length) :
    ∃ frac, fracs[j]? = some frac ∧ s = tile f gap (region f gap rest fracs j) frac ∧
      b = vertical (region f gap rest fracs j) ∧
      region f gap rest fracs (j + 1) = remainder f gap (region f gap rest fracs j) frac := by
  induction fracs generalizing rest j with
  | nil => simp at hj
  | cons frac fracs ih =>
      cases fracs with
      | nil => simp at hj
      | cons next fracs =>
          rw [dwindleRects_cons] at h
          cases j with
          | zero =>
              obtain ⟨hs, hb⟩ := Prod.mk.inj (Option.some.inj h)
              exact ⟨frac, rfl, hs.symm, hb.symm, rfl⟩
          | succ j => exact ih h (Nat.lt_of_succ_lt_succ hj)

theorem minTile_le_extent (h : (dwindleRects f gap rest fracs)[j]? = some (s, b))
    (hj : j + 1 < fracs.length) : minTile ≤ s.extent b := by
  obtain ⟨frac, -, rfl, rfl, -⟩ := tile_region h hj
  rw [extent_tile]
  exact minTile_le_splitAt _ _ _ _

theorem start_region (h : (dwindleRects f gap rest fracs)[j]? = some (s, b))
    (hj : j + 1 < fracs.length) :
    (region f gap rest fracs (j + 1)).start b = s.start b + s.extent b + gap := by
  obtain ⟨frac, -, rfl, rfl, hnext⟩ := tile_region h hj
  rw [hnext, start_remainder, start_tile]

theorem divider_le (hgap : 0 ≤ gap) (h : (dwindleRects f gap rest fracs)[j]? = some (s, b))
    (hi : (dwindleRects f gap rest fracs)[i]? = some (r, v)) (hj : j < i) :
    s.start b + s.extent b + gap ≤ r.start b := by
  have hlength : i < fracs.length := by
    rw [← length_dwindleRects f gap rest]
    exact (List.getElem?_eq_some_iff.mp hi).1
  obtain ⟨k, rfl⟩ := Nat.exists_eq_add_of_le hj
  rw [← start_region h (by omega)]
  have hk : (dwindleRects f gap (region f gap rest fracs (j + 1)) (fracs.drop (j + 1)))[k]? =
      some (r, v) := by
    rw [← drop_dwindleRects, List.getElem?_drop, hi]
  exact start_le hgap hk b

theorem start_eq_divider (h : (dwindleRects f gap rest fracs)[j]? = some (s, b))
    (hi : (dwindleRects f gap rest fracs)[i]? = some (r, v)) (hj : j < i)
    (hnone : ∀ k, j < k → k < i → ∀ t, (dwindleRects f gap rest fracs)[k]? ≠ some (t, b)) :
    r.start b = s.start b + s.extent b + gap := by
  have hlength : i < fracs.length := by
    rw [← length_dwindleRects f gap rest]
    exact (List.getElem?_eq_some_iff.mp hi).1
  obtain ⟨k, rfl⟩ := Nat.exists_eq_add_of_le hj
  rw [← start_region h (by omega)]
  have hk : (dwindleRects f gap (region f gap rest fracs (j + 1)) (fracs.drop (j + 1)))[k]? =
      some (r, v) := by
    rw [← drop_dwindleRects, List.getElem?_drop, hi]
  refine start_eq hk fun m hm t => ?_
  rw [← drop_dwindleRects, List.getElem?_drop]
  exact hnone (j + 1 + m) (by omega) (by omega) t

theorem le_extent {m : Int} (hm : m ≤ minTile) (hrest : ∀ b, m ≤ rest.extent b)
    (h : (dwindleRects f gap rest fracs)[i]? = some (r, v)) : ∀ b, m ≤ r.extent b := by
  refine tile_induction (P := fun rest r => (∀ b, m ≤ rest.extent b) → ∀ b, m ≤ r.extent b)
    (fun _ hrest => hrest) (fun rest frac hrest b => ?_)
    (fun rest frac r hr hrest => hr fun b => ?_) h hrest
  · obtain rfl | hb := eq_or_ne b (vertical rest)
    · rw [extent_tile]
      exact hm.trans (minTile_le_splitAt _ _ _ _)
    · rw [extent_tile_of_ne hb]
      exact hrest b
  · obtain rfl | hb := eq_or_ne b (vertical rest)
    · exact hm.trans (minTile_le_extent_remainder f gap rest frac)
    · rw [extent_remainder_of_ne hb]
      exact hrest b

theorem extent_pos (hrest : ∀ b, 0 < rest.extent b)
    (h : (dwindleRects f gap rest fracs)[i]? = some (r, v)) : ∀ b, 0 < r.extent b :=
  le_extent (m := 1) (by decide) hrest h

/-! ## The edges of a tile -/

inductive Edge
  | left
  | right
  | top
  | bottom
  deriving DecidableEq

namespace Edge

/-- A divider along it is vertical. -/
def vertical : Edge → Bool
  | left | right => true
  | top | bottom => false

def far : Edge → Bool
  | left | top => false
  | right | bottom => true

/-- The one edge as what is dragged. -/
def only : Edge → ResizeEdge
  | left => { left := true }
  | right => { right := true }
  | top => { top := true }
  | bottom => { bottom := true }

end Edge

/-- Where an edge of a rectangle is. -/
def edgeAt (r : Rect) (e : Edge) : Int :=
  r.start e.vertical + if e.far then r.extent e.vertical else 0

/-- The divider of the split `j` lies along an edge of a tile: it runs that way, the edge is
on one of its two sides, and it is one of what the divider divides that it goes along. -/
structure Along (tiles : List (Rect × Bool)) (gap : Int) (r : Rect) (e : Edge) (j : Nat) :
    Prop where
  split : j + 1 < tiles.length
  touches : ∃ s, tiles[j]? = some (s, e.vertical) ∧
    edgeAt r e = s.start e.vertical + s.extent e.vertical + if e.far then 0 else gap
  spans : ∃ low ∈ tiles.drop j, ∃ high ∈ tiles.drop j,
    low.1.start (!e.vertical) ≤ r.start (!e.vertical) ∧
      r.start (!e.vertical) + r.extent (!e.vertical) ≤
        high.1.start (!e.vertical) + high.1.extent (!e.vertical)

/-- An edge is at the outside of the layout: where the area starts, or with no tile beyond it
that has a row (or a column) in common with its tile. -/
def Outside (area : Rect) (tiles : List (Rect × Bool)) (r : Rect) (e : Edge) : Prop :=
  if e.far then
    ∀ t ∈ tiles, edgeAt r e ≤ t.1.start e.vertical →
      ¬(r.start (!e.vertical) < t.1.start (!e.vertical) + t.1.extent (!e.vertical) ∧
        t.1.start (!e.vertical) < r.start (!e.vertical) + r.extent (!e.vertical))
  else edgeAt r e = area.start e.vertical

/-- The divider of an edge of a tile of the layout. -/
def dividerOf (tiles : List (Rect × Bool)) (gap : Int) (i : Nat) (e : Edge) : Option Nat :=
  dwindleDivider (tiles.map Prod.fst) (tiles.map Prod.snd) i e.only gap

variable {e : Edge} {area : Rect} {tiles : List (Rect × Bool)}

theorem dividerOf_eq (hi : tiles[i]? = some (r, v)) : dividerOf tiles gap i e =
    (List.range (tiles.length - 1)).find? fun j =>
      (tiles.map Prod.snd)[j]? == some e.vertical &&
        if e.far then j == i
        else decide (j < i) && tiles[j]?.any fun s =>
          near (s.1.start e.vertical + s.1.extent e.vertical + gap) (r.start e.vertical) := by
  have hr : (tiles.map Prod.fst)[i]? = some r := by rw [List.getElem?_map, hi]; rfl
  rw [dividerOf, dwindleDivider, hr]
  cases e <;>
    simp [Edge.only, Edge.vertical, Edge.far, find, Rect.start, Rect.extent, Option.any_map]

theorem dividerOf_far (he : e.far = true) (hi : tiles[i]? = some (r, v)) :
    dividerOf tiles gap i e = some j ↔ j = i ∧ v = e.vertical ∧ i + 1 < tiles.length := by
  rw [dividerOf_eq hi, List.find?_range_eq_some]
  simp only [he, if_true, List.getElem?_map, Bool.and_eq_true, beq_iff_eq, List.mem_range]
  constructor
  · rintro ⟨⟨hv, rfl⟩, hj, -⟩
    rw [hi] at hv
    exact ⟨rfl, Option.some.inj hv, by omega⟩
  · rintro ⟨rfl, rfl, hlength⟩
    refine ⟨⟨by rw [hi]; rfl, rfl⟩, by omega, fun k hk => ?_⟩
    simp [hk.ne]

theorem divider_lt (hgap : 0 ≤ gap) {k : Nat} {t : Rect}
    (h : (dwindleRects f gap rest fracs)[j]? = some (s, b))
    (ht : (dwindleRects f gap rest fracs)[k]? = some (t, b))
    (hi : (dwindleRects f gap rest fracs)[i]? = some (r, v)) (hj : j < k) (hk : k < i) :
    s.start b + s.extent b + gap + minTile ≤ r.start b := by
  have hlength : i < fracs.length := by
    rw [← length_dwindleRects f gap rest]
    exact (List.getElem?_eq_some_iff.mp hi).1
  have hextent := minTile_le_extent ht (by omega)
  have hfirst := divider_le hgap h ht hj
  have hsecond := divider_le hgap ht hi hk
  omega

/-- What looks like the divider at the start of a tile is the divider of the last split that
way. -/
theorem near_iff (hgap : 0 ≤ gap) (h : (dwindleRects f gap rest fracs)[j]? = some (s, b))
    (hi : (dwindleRects f gap rest fracs)[i]? = some (r, v)) (hj : j < i) :
    near (s.start b + s.extent b + gap) (r.start b) = true ↔
      ∀ k, j < k → k < i → ∀ t, (dwindleRects f gap rest fracs)[k]? ≠ some (t, b) := by
  constructor
  · intro hnear k hjk hki t ht
    have hfar := divider_lt hgap h ht hi hjk hki
    rw [near, decide_eq_true_eq] at hnear
    simp only [minTile] at hfar
    omega
  · intro hnone
    rw [start_eq_divider h hi hj hnone, near, decide_eq_true_eq]
    omega

theorem dividerOf_near (hgap : 0 ≤ gap) (he : e.far = false)
    (hi : (dwindleRects f gap area fracs)[i]? = some (r, v)) :
    dividerOf (dwindleRects f gap area fracs) gap i e = some j ↔
      j < i ∧ ∃ s, (dwindleRects f gap area fracs)[j]? = some (s, e.vertical) ∧
        r.start e.vertical = s.start e.vertical + s.extent e.vertical + gap := by
  have hlength := (List.getElem?_eq_some_iff.mp hi).1
  have hfound : ∀ k, ((((dwindleRects f gap area fracs).map Prod.snd)[k]? == some e.vertical &&
      (decide (k < i) && (dwindleRects f gap area fracs)[k]?.any fun s =>
        near (s.1.start e.vertical + s.1.extent e.vertical + gap) (r.start e.vertical))) = true ↔
      k < i ∧ ∃ s, (dwindleRects f gap area fracs)[k]? = some (s, e.vertical) ∧
        r.start e.vertical = s.start e.vertical + s.extent e.vertical + gap) := by
    intro k
    rw [List.getElem?_map, Bool.and_eq_true, Bool.and_eq_true, decide_eq_true_eq, beq_iff_eq]
    constructor
    · rintro ⟨hflag, hk, hnear⟩
      obtain ⟨⟨s, u⟩, hs, rfl⟩ := Option.map_eq_some_iff.mp hflag
      rw [hs, Option.any_some] at hnear
      exact ⟨hk, s, hs, start_eq_divider hs hi hk ((near_iff hgap hs hi hk).mp hnear)⟩
    · rintro ⟨hk, s, hs, hstart⟩
      refine ⟨by rw [hs]; rfl, hk, ?_⟩
      rw [hs, Option.any_some, hstart, near, sub_self]
      rfl
  rw [dividerOf_eq hi, List.find?_range_eq_some]
  simp only [he, Bool.false_eq_true, if_false]
  rw [hfound]
  refine ⟨fun h => h.1, fun h => ⟨h, List.mem_range.mpr (by omega), fun k hk => ?_⟩⟩
  -- An earlier split that way has its divider further back, with this one between.
  obtain ⟨hj, s, hs, -⟩ := h
  rw [Bool.not_eq_true', ← Bool.not_eq_true, hfound]
  rintro ⟨hki, t, ht, hstart⟩
  have hfar := divider_lt hgap ht hs hi hk hj
  simp only [minTile] at hfar
  omega

theorem start_mono (hgap : 0 ≤ gap) (hi : (dwindleRects f gap rest fracs)[i]? = some (r, v))
    (hj : (dwindleRects f gap rest fracs)[j]? = some (s, b)) (hij : i ≤ j) (c : Bool) :
    r.start c ≤ s.start c := by
  obtain ⟨k, rfl⟩ := Nat.exists_eq_add_of_le hij
  have hk : (dwindleRects f gap (region f gap rest fracs i) (fracs.drop i))[k]? = some (s, b) := by
    rw [← drop_dwindleRects, List.getElem?_drop, hj]
  have hstart : r.start c = (region f gap rest fracs i).start c := by
    rw [getElem?_dwindleRects] at hi
    exact start_eq hi fun j hj => absurd hj (Nat.not_lt_zero j)
  rw [hstart]
  exact start_le hgap hk c

theorem start_next (hi : (dwindleRects f gap rest fracs)[i]? = some (r, v))
    (hj : (dwindleRects f gap rest fracs)[i + 1]? = some (s, b)) {c : Bool} (hc : c ≠ v) :
    s.start c = r.start c := by
  have hlength := (List.getElem?_eq_some_iff.mp hj).1
  rw [length_dwindleRects] at hlength
  obtain ⟨frac, -, rfl, rfl, hnext⟩ := tile_region hi hlength
  rw [getElem?_dwindleRects] at hj
  rw [start_eq hj fun j hj => absurd hj (Nat.not_lt_zero j), hnext, start_remainder_of_ne hc,
    start_tile]

theorem dividerOf_eq_some_iff (hgap : 0 ≤ gap) (harea : ∀ b, 0 < area.extent b)
    (hi : (dwindleRects f gap area fracs)[i]? = some (r, v)) :
    dividerOf (dwindleRects f gap area fracs) gap i e = some j ↔
      Along (dwindleRects f gap area fracs) gap r e j := by
  have hlength := (List.getElem?_eq_some_iff.mp hi).1
  have hself : j ≤ i → (r, v) ∈ (dwindleRects f gap area fracs).drop j := by
    intro hji
    apply List.mem_of_getElem? (i := i - j)
    rw [List.getElem?_drop, Nat.add_sub_cancel' hji, hi]
  have hspans : j ≤ i → ∃ low ∈ (dwindleRects f gap area fracs).drop j,
      ∃ high ∈ (dwindleRects f gap area fracs).drop j,
        low.1.start (!e.vertical) ≤ r.start (!e.vertical) ∧
          r.start (!e.vertical) + r.extent (!e.vertical) ≤
            high.1.start (!e.vertical) + high.1.extent (!e.vertical) :=
    fun hji => ⟨_, hself hji, _, hself hji, le_refl _, le_refl _⟩
  have hdivides : ∀ s, j + 1 < (dwindleRects f gap area fracs).length →
      (dwindleRects f gap area fracs)[j]? = some (s, e.vertical) → 0 < s.extent e.vertical := by
    intro s hj hs
    rw [length_dwindleRects] at hj
    exact lt_of_lt_of_le (by decide) (minTile_le_extent hs hj)
  cases he : e.far with
  | false =>
      rw [dividerOf_near hgap he hi]
      constructor
      · rintro ⟨hj, s, hs, hstart⟩
        exact ⟨by omega, ⟨s, hs, by simpa [edgeAt, he] using hstart⟩, hspans hj.le⟩
      · rintro ⟨hsplit, ⟨s, hs, hedge⟩, -⟩
        simp only [edgeAt, he, Bool.false_eq_true, if_false, add_zero] at hedge
        refine ⟨Nat.lt_of_not_le fun hij => ?_, s, hs, hedge⟩
        have hstart := start_mono hgap hi hs hij e.vertical
        have hextent := hdivides s hsplit hs
        omega
  | true =>
      rw [dividerOf_far he hi]
      constructor
      · rintro ⟨rfl, rfl, hsplit⟩
        exact ⟨hsplit, ⟨r, hi, by simp [edgeAt, he]⟩, hspans (le_refl _)⟩
      · rintro ⟨hsplit, ⟨s, hs, hedge⟩, low, hlow, -, -, hspan, -⟩
        simp only [edgeAt, he, if_true, add_zero] at hedge
        have hpos := extent_pos harea hi
        obtain hji | rfl | hij := Nat.lt_trichotomy j i
        · have hdivider := divider_le hgap hs hi hji
          have hextent := hpos e.vertical
          omega
        · rw [hi] at hs
          exact ⟨rfl, (Prod.mk.inj (Option.some.inj hs)).2, hsplit⟩
        · -- All that split `j` divides is beyond the divider of the tile itself.
          obtain ⟨m, hm⟩ := List.mem_iff_getElem?.mp hlow
          rw [List.getElem?_drop] at hm
          obtain rfl | hv := eq_or_ne v e.vertical
          · have hdivider := divider_le hgap hi hs hij
            have hextent := hdivides s hsplit hs
            omega
          · obtain rfl : v = !e.vertical := by
              cases v <;> cases hvertical : e.vertical <;> simp_all
            have hdivider := divider_le hgap hi (i := j + m) (v := low.2) hm (by omega)
            have hextent := hpos (!e.vertical)
            omega

theorem dividerOf_eq_none_iff (hgap : 0 ≤ gap) (harea : ∀ b, 0 < area.extent b)
    (hi : (dwindleRects f gap area fracs)[i]? = some (r, v)) :
    dividerOf (dwindleRects f gap area fracs) gap i e = none ↔
      Outside area (dwindleRects f gap area fracs) r e := by
  have hlength := (List.getElem?_eq_some_iff.mp hi).1
  have hpos := extent_pos harea hi
  rw [Option.eq_none_iff_forall_ne_some, Outside]
  cases he : e.far with
  | false =>
      simp only [edgeAt, he, Bool.false_eq_true, if_false, add_zero]
      constructor
      · intro hnone
        obtain hstart | ⟨j, hj, s, hs, hdivider⟩ := start_eq_or hi e.vertical
        · exact hstart
        · exact absurd ((dividerOf_near hgap he hi).mpr ⟨hj, s, hs, hdivider⟩) (hnone j)
      · intro hstart j hj
        obtain ⟨hji, s, hs, hdivider⟩ := (dividerOf_near hgap he hi).mp hj
        have hextent := minTile_le_extent hs (by rw [← length_dwindleRects f gap area]; omega)
        have hfirst := start_le hgap hs e.vertical
        simp only [minTile] at hextent
        omega
  | true =>
      simp only [if_true]
      constructor
      · intro hnone t ht hbeyond hrows
        obtain ⟨k, hk⟩ := List.mem_iff_getElem?.mp ht
        have hklength := (List.getElem?_eq_some_iff.mp hk).1
        simp only [edgeAt, he, if_true] at hbeyond
        obtain hik | hki := Nat.lt_or_ge i k
        · obtain rfl | hv := eq_or_ne v e.vertical
          · exact hnone i ((dividerOf_far he hi).mpr ⟨rfl, rfl, by omega⟩)
          · obtain rfl : v = !e.vertical := by
              cases v <;> cases hvertical : e.vertical <;> simp_all
            have hdivider := divider_le hgap hi (v := t.2) hk hik
            omega
        · have hstart := start_mono hgap (v := t.2) hk hi hki e.vertical
          have hextent := hpos e.vertical
          omega
      · intro hout j hj
        obtain ⟨rfl, rfl, hsplit⟩ := (dividerOf_far he hi).mp hj
        obtain ⟨⟨t, u⟩, ht⟩ : ∃ t, (dwindleRects f gap area fracs)[j + 1]? = some t :=
          ⟨_, List.getElem?_eq_getElem hsplit⟩
        have hacross : t.start e.vertical = r.start e.vertical + r.extent e.vertical + gap :=
          start_eq_divider hi ht j.lt_succ_self fun k hjk hkj => by omega
        have hlevel : t.start (!e.vertical) = r.start (!e.vertical) :=
          start_next hi ht (by cases e.vertical <;> decide)
        have hthere := extent_pos harea ht (!e.vertical)
        have hhere := hpos (!e.vertical)
        refine hout _ (List.mem_of_getElem? ht) ?_ ⟨?_, ?_⟩
        · simp only [edgeAt, he, if_true]
          omega
        · simp only
          omega
        · simp only
          omega

/-! ## Moving a divider -/

theorem region_take (f : Fractions F) (gap : Int) (rest : Rect) (fracs : List F) (j : Nat) :
    region f gap rest (fracs.take j) j = region f gap rest fracs j := by
  induction j generalizing rest fracs with
  | zero => simp [region]
  | succ j ih =>
      cases fracs with
      | nil => rfl
      | cons frac fracs => exact ih _ _

/-- With other fractions from the split `j` on, the edge of a tile that lies along its divider
goes as far as the divider does, while it lies along it; on the far side it always does. -/
def MovesWith (f : Fractions F) (area : Rect) (gap : Int) (fracs : List F) (i : Nat) (r : Rect)
    (e : Edge) (j : Nat) : Prop :=
  ∀ fracs' : List F, fracs'.length = fracs.length → fracs'.take j = fracs.take j →
    ∀ r' v', (dwindleRects f gap area fracs')[i]? = some (r', v') →
      (e.far = true → dividerOf (dwindleRects f gap area fracs') gap i e = some j) ∧
      (dividerOf (dwindleRects f gap area fracs') gap i e = some j →
        ∀ a b, fracs[j]? = some a → fracs'[j]? = some b →
          let span := (region f gap area fracs j).extent e.vertical
          edgeAt r' e - edgeAt r e =
            splitAt f span (f.effective b) gap - splitAt f span (f.effective a) gap)

theorem Along.edge_eq (h : Along (dwindleRects f gap area fracs) gap r e j) :
    vertical (region f gap area fracs j) = e.vertical ∧ ∃ frac, fracs[j]? = some frac ∧
      edgeAt r e = (region f gap area fracs j).start e.vertical +
        splitAt f ((region f gap area fracs j).extent e.vertical) (f.effective frac) gap +
          if e.far then 0 else gap := by
  obtain ⟨hsplit, ⟨s, hs, hedge⟩, -⟩ := h
  rw [length_dwindleRects] at hsplit
  obtain ⟨frac, hfrac, rfl, hvertical, -⟩ := tile_region hs hsplit
  refine ⟨hvertical.symm, frac, hfrac, ?_⟩
  rw [hedge, hvertical, start_tile, extent_tile]

theorem moves_with (hgap : 0 ≤ gap) (harea : ∀ b, 0 < area.extent b)
    (hi : (dwindleRects f gap area fracs)[i]? = some (r, v))
    (hj : dividerOf (dwindleRects f gap area fracs) gap i e = some j) :
    MovesWith f area gap fracs i r e j := by
  intro fracs' hlength hsame r' v' hi'
  have hregion : region f gap area fracs' j = region f gap area fracs j := by
    rw [← region_take f gap area fracs', hsame, region_take]
  obtain ⟨hvertical, frac, hfrac, hedge⟩ :=
    ((dividerOf_eq_some_iff hgap harea hi).mp hj).edge_eq
  constructor
  · intro he
    obtain ⟨rfl, -, hsplit⟩ := (dividerOf_far he hi).mp hj
    rw [length_dwindleRects] at hsplit
    obtain ⟨-, -, -, hv', -⟩ := tile_region hi' (hlength ▸ hsplit)
    refine (dividerOf_far he hi').mpr ⟨rfl, ?_, ?_⟩
    · rw [hv', hregion, hvertical]
    · rw [length_dwindleRects, hlength]
      exact hsplit
  · intro hj' a b ha hb
    obtain ⟨-, frac', hfrac', hedge'⟩ :=
      ((dividerOf_eq_some_iff hgap harea hi').mp hj').edge_eq
    obtain rfl := Option.some.inj (hfrac.symm.trans ha)
    obtain rfl := Option.some.inj (hfrac'.symm.trans hb)
    rw [hedge, hedge', hregion]
    omega

/-- For an edge of a tile the split is found whose divider lies along it, and none exactly at
the outside; the edge moves with that divider. -/
theorem dwindleDivider_correct (f : Fractions F) (area : Rect) (gap : Int) (fracs : List F)
    (i : Nat) (r : Rect) (v : Bool) (e : Edge) (hgap : 0 ≤ gap)
    (harea : ∀ b, 0 < area.extent b) (hi : (dwindleRects f gap area fracs)[i]? = some (r, v)) :
    (∀ j, dividerOf (dwindleRects f gap area fracs) gap i e = some j ↔
      Along (dwindleRects f gap area fracs) gap r e j) ∧
    (dividerOf (dwindleRects f gap area fracs) gap i e = none ↔
      Outside area (dwindleRects f gap area fracs) r e) ∧
    ∀ j, dividerOf (dwindleRects f gap area fracs) gap i e = some j →
      MovesWith f area gap fracs i r e j :=
  ⟨fun _ => dividerOf_eq_some_iff hgap harea hi, dividerOf_eq_none_iff hgap harea hi,
    fun _ hj => moves_with hgap harea hi hj⟩

/-- Fractions in sixteenths, which single precision has exactly. -/
def sixteenths : Fractions Int where
  effective frac := if frac ≤ 0 then 8 else max 2 (min 14 frac)
  portion span frac := (span * frac + 8) / 16

/-- The third of three tiles has one on its left. -/
theorem dwindleDivider_correct_left :
    dividerOf (dwindleRects sixteenths 0 ⟨⟨0, 0⟩, ⟨1600, 900⟩⟩ [9, 8, 8]) 0 2 .left = some 0 :=
  ((dwindleDivider_correct sixteenths ⟨⟨0, 0⟩, ⟨1600, 900⟩⟩ 0 [9, 8, 8] 2
    ⟨⟨900, 450⟩, ⟨700, 450⟩⟩ true .left (le_refl 0) (by decide) (by decide)).1 0).mpr (by
      refine ⟨by decide, ⟨⟨⟨0, 0⟩, ⟨900, 900⟩⟩, by decide, by decide⟩, ?_⟩
      exact ⟨(⟨⟨900, 450⟩, ⟨700, 450⟩⟩, true), by decide, (⟨⟨900, 450⟩, ⟨700, 450⟩⟩, true),
        by decide, by decide, by decide⟩)

/-- With less for the first tile what is left is split the other way, and the third tile stays
where it was. -/
theorem not_always_moved : ¬∀ (F : Type) (f : Fractions F) (area : Rect) (gap : Int)
    (fracs : List F) (i j : Nat) (e : Edge) (a b : F) (r r' : Rect) (v v' : Bool), 0 ≤ gap →
      (∀ b, 0 < area.extent b) → (dwindleRects f gap area fracs)[i]? = some (r, v) →
        dividerOf (dwindleRects f gap area fracs) gap i e = some j → fracs[j]? = some a →
          (dwindleRects f gap area (fracs.set j b))[i]? = some (r', v') →
            edgeAt r' e = edgeAt r e →
              let span := (region f gap area fracs j).extent e.vertical
              splitAt f span (f.effective b) gap = splitAt f span (f.effective a) gap := by
  intro h
  have hsame := h Int sixteenths ⟨⟨0, 0⟩, ⟨1600, 900⟩⟩ 0 [9, 8, 8] 2 0 .left 9 2
    ⟨⟨900, 450⟩, ⟨700, 450⟩⟩ ⟨⟨900, 0⟩, ⟨700, 900⟩⟩ true false (le_refl 0) (by decide) (by decide)
    (by decide) rfl (by decide) rfl
  exact absurd hsame (by decide)

end Dwindle

end MindOS.Wm
