import Mathlib.Tactic.Linarith
import MindOS.Noted
import MindOS.Shell.Layout.Basic

/-!
# Panels

## Where panels are

The host places a panel's window, and the page in the window computes for itself where that is. All
lengths are logical pixels. The host counts in 32 bits, the page in numbers that are exact here.
-/

namespace MindOS.Shell

open Noted

/-- `Math.round(n / d)`: halves go up. -/
def mathRound (n d : Int) : Int := (2 * n + d) / (2 * d)

/-- `(n / d).round()`: halves go away from zero. -/
def round (n d : Int) : Int := if 0 ≤ n then mathRound n d else -mathRound (-n) d

def clamp (v lo hi : Int) : Int := max lo (min v hi)

structure Rect where
  x : Int
  y : Int
  w : Int
  h : Int
  deriving DecidableEq

/-- An output, with the size of its monitor. -/
structure Output where
  name : Text
  width : Int
  height : Int
  wide : 1 ≤ width ∧ width < 2 ^ 31
  high : 1 ≤ height ∧ height < 2 ^ 31

def Panel.isVertical (p : Panel) : Bool := decide (p.edge = "left" ∨ p.edge = "right")

/-- The horizontal panels beside `p` that are at the top, or that are not. -/
def Panel.beside (p : Panel) (top : Bool) (all : List Panel) : List Panel :=
  all.filter fun o => decide (o.id ≠ p.id) && !o.isVertical && decide (o.edge = "top") == top

/-- The largest of the zones. -/
def inset (zones : List Int) : Int := zones.foldl max 0

/-! ### The page -/

/-- `EDIT_EXTRA` -/
def editExtra : Int := 140

/-- Panels that apply to an output: its own and the ones for every output. -/
def panelsOn (all : List Panel) (output : Text) : List Panel :=
  all.filter fun p => decide (p.output = "*" ∨ p.output = output)

/-- `inset0` and `inset1` -/
def pageInsets (p : Panel) (out : Output) (all : List Panel) : Int × Int :=
  if p.isVertical then
    (inset ((p.beside true (panelsOn all out.name)).map fun o => o.margin + o.size),
      inset ((p.beside false (panelsOn all out.name)).map fun o => o.margin + o.size))
  else (0, 0)

/-- The length of a panel of a span; `fitLen` is the measured one. -/
def pageLen (p : Panel) (editing : Bool) (fitLen : Option Int) (span : Int) : Int :=
  if p.length ≤ 0 then
    if editing then span
    else match fitLen with
      | some len => clamp len 1 span
      -- `span / 3`, in thirds
      | none => mathRound (clamp span (3 * 1) (3 * span)) 3
  else mathRound (span * clamp p.length 10 100) 100

def pageOffset (p : Panel) (inset0 span len : Int) : Int :=
  inset0 + (if p.length ≤ 0 ∨ p.align = "center" then mathRound (span - len) 2
    else if p.align = "start" then 0 else span - len)

def panelWindowRect (p : Panel) (out : Output) (editing : Bool) (all : List Panel)
    (fitLen : Option Int) (flyout : Int) : Rect :=
  let thick := p.size + (if editing then editExtra else 0) + max 0 flyout
  let (inset0, inset1) := pageInsets p out all
  let span := (if p.isVertical then out.height else out.width) - inset0 - inset1
  let len := pageLen p editing fitLen span
  let offset := pageOffset p inset0 span len
  if p.isVertical then
    ⟨if p.edge = "left" then p.margin else out.width - p.margin - thick, offset, thick, len⟩
  else ⟨offset, if p.edge = "top" then p.margin else out.height - p.margin - thick, len, thick⟩

/-! ### The host -/

/-- `EDIT_STRIP` -/
def editStrip : Int := 140

def panelsFor (all : List Panel) (name : Text) (primary : Bool) : List Panel :=
  all.filter fun p => decide (p.output = "*" ∨ p.output = name) ||
    (primary && decide (p.output = "primary" ∨ p.output = []))

/-- The part of a panel that decides the geometry. -/
structure PanelSpec where
  edge : Text
  size : Int
  length : Int
  align : Text
  margin : Int
  /-- Exclusive zones of the horizontal panels that a vertical panel sits between. -/
  insetStart : Int
  insetEnd : Int
  /-- The length that the page measured, 0 until it reports one. -/
  fit : Int
  flyout : Int

/-- The insets of a panel among those that are wanted on an output. -/
def hostInsets (p : Panel) (wanted : List Panel) : Int × Int :=
  if p.isVertical then
    (inset ((p.beside true wanted).map fun o => o.size + max o.margin 0),
      inset ((p.beside false wanted).map fun o => o.size + max o.margin 0))
  else (0, 0)

/-- What is kept of the panels that `sync_windows` wants on an output, and of the page's reports. -/
def PanelSpec.sync (wanted : List Panel) (p : Panel) (fit flyout : Int) : PanelSpec where
  edge := p.edge
  size := p.size
  length := p.length
  align := p.align
  margin := p.margin
  insetStart := (hostInsets p wanted).1
  insetEnd := (hostInsets p wanted).2
  fit := fit
  flyout := flyout

/-- `as i32`, of a float -/
def asI32 (n : Int) : Int := max (-2 ^ 31) (min n (2 ^ 31 - 1))

namespace PanelSpec

def isFit (spec : PanelSpec) : Bool := decide (spec.length ≤ 0)

def vertical (spec : PanelSpec) : Bool := decide (spec.edge = "left" ∨ spec.edge = "right")

def extent (out : Output) (spec : PanelSpec) : Int :=
  max 1 (if spec.vertical then out.height else out.width)

/-- What the insets leave of the edge. -/
def spanOf (out : Output) (spec : PanelSpec) : Noted Int := do
  let most ← signed 32 (spec.extent out - spec.insetStart)
  signed 32 (most - spec.insetEnd)

def isFull (spec : PanelSpec) (editMode : Bool) : Bool :=
  decide (100 ≤ spec.length) || (spec.isFit && editMode)

def lengthIn (spec : PanelSpec) (editMode : Bool) (span : Int) : Noted Int :=
  if spec.isFull editMode then pure span
  else if spec.isFit then pure (if 0 < spec.fit then min spec.fit span else span.tdiv 3)
  else do
    let product ← signed 32 (span * clamp spec.length 10 100)
    return round product 100

/-- Thickness and length of the window in the panel's own terms, and whether it has its whole
edge. -/
def panelBox (out : Output) (spec : PanelSpec) (editMode : Bool) : Noted (Int × Int × Bool) := do
  let strip ← signed 32 (spec.size + if editMode then editStrip else 0)
  let thickness ← signed 32 (strip + max spec.flyout 0)
  let span ← spec.spanOf out
  let length ← spec.lengthIn editMode span
  return (thickness, max length 1, spec.isFull editMode)

/-- Where the window lies along its edge. -/
def along (out : Output) (spec : PanelSpec) (length : Int) (full : Bool) : Noted Int := do
  let span ← spec.spanOf out
  let rest ← signed 32 (span - length)
  signed 32 (spec.insetStart +
    if full then 0
    else if spec.isFit then rest.tdiv 2
    else if spec.align = "start" then 0
    else if spec.align = "end" then rest
    else rest.tdiv 2)

/-- How far a window is from the start of an extent, at the far edge. -/
def across (spec : PanelSpec) (extent thickness : Int) : Noted Int := do
  let far ← signed 32 (extent - max spec.margin 0)
  signed 32 (far - thickness)

def place (out : Output) (spec : PanelSpec) (along thickness : Int) : Noted (Int × Int) := do
  if spec.edge = "top" then return (along, max spec.margin 0)
  else if spec.edge = "left" then return (max spec.margin 0, along)
  else if spec.edge = "right" then return (← spec.across (max 1 out.width) thickness, along)
  else return (along, ← spec.across (max 1 out.height) thickness)

def origin (out : Output) (spec : PanelSpec) (editMode : Bool) : Noted (Int × Int) := do
  let (thickness, length, full) ← spec.panelBox out editMode
  let along ← spec.along out length full
  spec.place out along thickness

/-- The window, from its origin and its box. -/
def rect (out : Output) (spec : PanelSpec) (editMode : Bool) : Noted Rect := do
  let (x, y) ← spec.origin out editMode
  let (thickness, length, _) ← spec.panelBox out editMode
  return if spec.vertical then ⟨x, y, thickness, length⟩ else ⟨x, y, length, thickness⟩

end PanelSpec

/-- The host's rectangle of a panel on the primary output, when the page has reported a measured
length (0 until then) and a flyout. -/
def hostRect (all : List Panel) (out : Output) (p : Panel) (fitLen flyout : Nat)
    (editing : Bool) : Noted Rect :=
  (PanelSpec.sync (panelsFor all out.name true) p (asI32 fitLen) (asI32 flyout)).rect out editing

/-- The measured length as the page passes it on: `fitLen || undefined`. -/
def measured (fitLen : Nat) : Option Int := if fitLen = 0 then none else some (fitLen : Int)

/-- The page's. -/
def pageRect (all : List Panel) (out : Output) (p : Panel) (fitLen flyout : Nat)
    (editing : Bool) : Rect :=
  panelWindowRect p out editing all (measured fitLen) flyout

/-!
## What the host computes of a panel

The rectangle of a panel's window by exact numbers, and when 32 bits are enough for these.
-/

/-! ### Arithmetic -/

theorem fits_iff {n : Int} : Fits 32 n ↔ -2147483648 ≤ n ∧ n ≤ 2147483647 := by
  simp only [Fits]
  omega

theorem round_of_nonneg {n d : Int} (h : 0 ≤ n) : round n d = mathRound n d := if_pos h

theorem round_of_neg {n d : Int} (h : n < 0) : round n d = -mathRound (-n) d :=
  if_neg (Int.not_le.mpr h)

theorem tdiv_of_neg {n : Int} (d : Int) (h : n < 0) : n.tdiv d = -(-n / d) := by
  rw [← Int.tdiv_eq_ediv_of_nonneg (by omega : 0 ≤ -n), Int.neg_tdiv, Int.neg_neg]

theorem inset_le_iff {zones : List Int} {n : Int} :
    inset zones ≤ n ↔ 0 ≤ n ∧ ∀ z ∈ zones, z ≤ n := by
  have hfold : ∀ zones : List Int, ∀ m : Int,
      zones.foldl max m ≤ n ↔ m ≤ n ∧ ∀ z ∈ zones, z ≤ n := by
    intro zones
    induction zones with
    | nil => simp
    | cons z zones ih =>
        intro m
        rw [List.foldl_cons, ih, List.forall_mem_cons, max_le_iff, and_assoc]
  exact hfold zones 0

theorem inset_nonneg (zones : List Int) : 0 ≤ inset zones := (inset_le_iff.1 le_rfl).1

theorem inset_mono {zones zones' : List Int} (h : zones ⊆ zones') : inset zones ≤ inset zones' :=
  inset_le_iff.2 ⟨inset_nonneg _, fun _ hz => (inset_le_iff.1 le_rfl).2 _ (h hz)⟩

/-! ### The host's numbers -/

namespace PanelSpec

/-- The numbers of a spec as they come from a repaired layout and from the page. -/
structure Small (spec : PanelSpec) : Prop where
  size : 16 ≤ spec.size ∧ spec.size ≤ 400
  length : spec.length = 0 ∨ 10 ≤ spec.length ∧ spec.length ≤ 100
  margin : 0 ≤ spec.margin ∧ spec.margin ≤ 200
  insetStart : 0 ≤ spec.insetStart ∧ spec.insetStart ≤ 600
  insetEnd : 0 ≤ spec.insetEnd ∧ spec.insetEnd ≤ 600
  fit : 0 ≤ spec.fit ∧ spec.fit < 2 ^ 31
  flyout : 0 ≤ spec.flyout ∧ spec.flyout < 2 ^ 31

def thickness (spec : PanelSpec) (editMode : Bool) : Int :=
  spec.size + (if editMode then editStrip else 0) + spec.flyout

def span (out : Output) (spec : PanelSpec) : Int :=
  (if spec.vertical then out.height else out.width) - spec.insetStart - spec.insetEnd

/-- The length, where a product of a span and a percentage fits. -/
def len (out : Output) (spec : PanelSpec) (editMode : Bool) : Int :=
  max (if spec.isFull editMode then spec.span out
    else if spec.isFit then (if 0 < spec.fit then min spec.fit (spec.span out)
      else (spec.span out).tdiv 3)
    else round (spec.span out * spec.length) 100) 1

/-- 32 bits are enough for the box. -/
structure Counted (out : Output) (spec : PanelSpec) (editMode : Bool) : Prop where
  thick : spec.thickness editMode < 2 ^ 31
  part : spec.length ≠ 0 → spec.length < 100 → spec.span out * spec.length < 2 ^ 31

variable {out : Output} {spec : PanelSpec} {editMode : Bool}

theorem extent_eq : spec.extent out = if spec.vertical then out.height else out.width := by
  have hwide := out.wide
  have hhigh := out.high
  rw [extent]
  split <;> omega

theorem span_bounds (h : spec.Small) : -1200 < spec.span out ∧ spec.span out < 2 ^ 31 := by
  have hwide := out.wide
  have hhigh := out.high
  have hstart := h.insetStart
  have hend := h.insetEnd
  rw [span]
  split <;> omega

theorem spanOf_eq (h : spec.Small) : spec.spanOf out = pure (spec.span out) := by
  have hspan := @span_bounds out _ h
  have hstart := h.insetStart
  have hend := h.insetEnd
  have hwide := out.wide
  have hhigh := out.high
  have hextent : spec.extent out < 2 ^ 31 := by
    rw [extent_eq]
    split <;> omega
  rw [span, ← extent_eq] at hspan
  rw [spanOf, signed_eq_pure (fits_iff.2 (by omega)) (by decide), pure_bind,
    signed_eq_pure (fits_iff.2 (by omega)) (by decide), extent_eq]
  rfl

theorem within_lengthIn (h : spec.Small) : (spec.lengthIn editMode (spec.span out)).Within 0 ↔
    (spec.length ≠ 0 → spec.length < 100 → spec.span out * spec.length < 2 ^ 31) := by
  have hlength := h.length
  rw [lengthIn]
  by_cases hpart : spec.length ≠ 0 ∧ spec.length < 100
  · have hclamp : clamp spec.length 10 100 = spec.length := by
      rw [clamp]
      omega
    have hfull : ¬spec.isFull editMode = true := by
      simp only [isFull, isFit, Bool.or_eq_true, Bool.and_eq_true, decide_eq_true_eq]
      omega
    have hfit : ¬spec.isFit = true := by
      rw [isFit, decide_eq_true_eq]
      omega
    have hlow : -2147483648 ≤ spec.span out * spec.length := by
      have hspan := @span_bounds out _ h
      have hten : 10 ≤ spec.length := by omega
      nlinarith
    rw [if_neg hfull, if_neg hfit, within_bind, within_signed, hclamp, fits_iff]
    simp only [within_pure, and_true]
    omega
  · refine iff_of_true ?_ fun hne hlt => absurd ⟨hne, hlt⟩ hpart
    split
    · exact within_pure _
    · rw [if_pos]
      · exact within_pure _
      · rw [isFit, decide_eq_true_eq]
        simp only [isFull, Bool.or_eq_true, decide_eq_true_eq] at *
        omega

theorem value_lengthIn (h : spec.Small)
    (hpart : spec.length ≠ 0 → spec.length < 100 → spec.span out * spec.length < 2 ^ 31) :
    max (spec.lengthIn editMode (spec.span out)).value 1 = spec.len out editMode := by
  have hwithin := (@within_lengthIn _ _ editMode h).mpr hpart
  have hlength := h.length
  rw [len]
  rw [lengthIn] at hwithin ⊢
  split
  · rfl
  · split
    · rfl
    · next hfull hfit =>
        rw [if_neg hfull, if_neg hfit, within_bind, within_signed] at hwithin
        have hclamp : clamp spec.length 10 100 = spec.length := by
          simp only [isFull, isFit, Bool.or_eq_true, decide_eq_true_eq] at hfull hfit
          rw [clamp]
          omega
        rw [value_bind, value_signed hwithin.1 (by decide), hclamp]
        rfl

theorem panelBox_eq (h : spec.Small) : spec.panelBox out editMode = (do
    let thickness ← signed 32 (spec.thickness editMode)
    let length ← spec.lengthIn editMode (spec.span out)
    return (thickness, max length 1, spec.isFull editMode)) := by
  have hsize := h.size
  have hflyout := h.flyout
  have hstrip : Fits 32 (spec.size + if editMode then editStrip else 0) := by
    rw [fits_iff, editStrip]
    split <;> omega
  have hmax : max spec.flyout 0 = spec.flyout := max_eq_left hflyout.1
  rw [panelBox, signed_eq_pure hstrip (by decide), pure_bind, spanOf_eq h, hmax]
  rfl

theorem within_panelBox (h : spec.Small) :
    (spec.panelBox out editMode).Within 0 ↔ spec.Counted out editMode := by
  have hsize := h.size
  have hflyout := h.flyout
  have hthick : -2147483648 ≤ spec.thickness editMode := by
    rw [thickness, editStrip]
    split <;> omega
  rw [panelBox_eq h, within_bind, within_bind, within_signed, within_lengthIn h, fits_iff]
  constructor
  · rintro ⟨⟨-, hfits⟩, hpart, -⟩
    exact ⟨by omega, hpart⟩
  · rintro ⟨hfits, hpart⟩
    exact ⟨⟨hthick, by omega⟩, hpart, within_pure _⟩

theorem value_panelBox (h : spec.Small) (hcounted : spec.Counted out editMode) :
    (spec.panelBox out editMode).value =
      (spec.thickness editMode, spec.len out editMode, spec.isFull editMode) := by
  have hwithin := (within_panelBox h).mpr hcounted
  rw [panelBox_eq h] at hwithin ⊢
  rw [within_bind, within_signed] at hwithin
  rw [value_bind, value_bind, value_signed hwithin.1 (by decide)]
  exact congrArg (fun len => (_, len, _)) (value_lengthIn h hcounted.part)

theorem tdiv_bounds (n : Int) {d : Int} (hd : 0 < d) :
    min n 0 ≤ n.tdiv d ∧ n.tdiv d ≤ max n 0 := by
  rcases Int.le_total 0 n with h | h
  · rw [Int.tdiv_eq_ediv_of_nonneg h]
    have hle := Int.ediv_le_self d h
    have hnonneg := Int.ediv_nonneg h hd.le
    omega
  · obtain ⟨m, rfl⟩ : ∃ m, n = -m := ⟨-n, (Int.neg_neg n).symm⟩
    have hm : 0 ≤ m := by omega
    rw [Int.neg_tdiv, Int.tdiv_eq_ediv_of_nonneg hm]
    have hle := Int.ediv_le_self d hm
    have hnonneg := Int.ediv_nonneg hm hd.le
    omega

theorem len_bounds (hcounted : spec.Counted out editMode) :
    1 ≤ spec.len out editMode ∧ spec.len out editMode ≤ max (spec.span out) (2 ^ 30) := by
  have hpart := hcounted.part
  have hthird := tdiv_bounds (spec.span out) (by decide : (0 : Int) < 3)
  rw [len]
  refine ⟨le_max_right _ _, ?_⟩
  split
  · omega
  · split
    · split <;> omega
    · next hfull hfit =>
        simp only [isFull, isFit, Bool.or_eq_true, decide_eq_true_eq] at hfull hfit
        have hproduct := hpart (by omega) (by omega)
        rcases lt_or_ge (spec.span out * spec.length) 0 with hneg | hnonneg
        · rw [round_of_neg hneg, mathRound]
          omega
        · rw [round_of_nonneg hnonneg, mathRound]
          omega

/-- Where the window lies along its edge. -/
def offset (out : Output) (spec : PanelSpec) (editMode : Bool) : Int :=
  let rest := spec.span out - spec.len out editMode
  spec.insetStart +
    if spec.isFull editMode then 0
    else if spec.isFit then rest.tdiv 2
    else if spec.align = "start" then 0
    else if spec.align = "end" then rest
    else rest.tdiv 2

theorem along_eq (h : spec.Small) (hcounted : spec.Counted out editMode) :
    spec.along out (spec.len out editMode) (spec.isFull editMode) =
      pure (spec.offset out editMode) := by
  have hspan := @span_bounds out _ h
  have hlen := len_bounds hcounted
  have hstart := h.insetStart
  have hextent : spec.insetStart + spec.span out < 2 ^ 31 := by
    have hwide := out.wide
    have hhigh := out.high
    have hend := h.insetEnd
    rw [span]
    split <;> omega
  have hhalf := tdiv_bounds (spec.span out - spec.len out editMode) (by decide : (0 : Int) < 2)
  rw [along, spanOf_eq h, pure_bind, signed_eq_pure (fits_iff.2 (by omega)) (by decide),
    pure_bind]
  refine signed_eq_pure (fits_iff.2 ?_) (by decide)
  split_ifs <;> omega

/-- The window, where 32 bits are enough. -/
def exactRect (out : Output) (spec : PanelSpec) (editMode : Bool) : Rect :=
  let thick := spec.thickness editMode
  let offset := spec.offset out editMode
  let len := spec.len out editMode
  if spec.vertical then
    ⟨if spec.edge = "left" then spec.margin else out.width - spec.margin - thick, offset, thick,
      len⟩
  else ⟨offset, if spec.edge = "top" then spec.margin else out.height - spec.margin - thick, len,
    thick⟩

/-- 32 bits are enough for the place of a window at a far edge. -/
def Far (out : Output) (spec : PanelSpec) (editMode : Bool) : Prop :=
  spec.edge = "top" ∨ spec.edge = "left" ∨
    -2 ^ 31 ≤ (if spec.vertical then out.width else out.height) - spec.margin -
      spec.thickness editMode

theorem across_eq {extent : Int} (h : spec.Small) (hextent : 1 ≤ extent ∧ extent < 2 ^ 31)
    (thickness : Int) :
    spec.across extent thickness = signed 32 (extent - spec.margin - thickness) := by
  have hmargin := h.margin
  have hmax : max spec.margin 0 = spec.margin := max_eq_left hmargin.1
  rw [across, hmax, signed_eq_pure (fits_iff.2 (by omega)) (by decide), pure_bind]

theorem within_place (h : spec.Small) (hthick : spec.thickness editMode < 2 ^ 31) (along : Int) :
    (spec.place out along (spec.thickness editMode)).Within 0 ↔ spec.Far out editMode := by
  have hpos : 0 < spec.thickness editMode := by
    have hsize := h.size
    have hflyout := h.flyout
    rw [thickness, editStrip]
    split <;> omega
  have hmargin := h.margin
  have hwide := out.wide
  have hhigh := out.high
  rw [place, Far, vertical]
  by_cases htop : spec.edge = "top"
  · simp [htop]
  by_cases hleft : spec.edge = "left"
  · simp [hleft]
  by_cases hright : spec.edge = "right"
  · rw [if_neg htop, if_neg hleft, if_pos hright, max_eq_right hwide.1, across_eq h hwide,
      within_bind, within_signed, fits_iff, or_iff_right htop, or_iff_right hleft,
      if_pos (decide_eq_true (Or.inr hright)), and_iff_left (within_pure _)]
    omega
  · rw [if_neg htop, if_neg hleft, if_neg hright, max_eq_right hhigh.1, across_eq h hhigh,
      within_bind, within_signed, fits_iff, or_iff_right htop, or_iff_right hleft,
      if_neg fun hside => (of_decide_eq_true hside).elim hleft hright, and_iff_left (within_pure _)]
    omega

theorem value_place (h : spec.Small) (hthick : spec.thickness editMode < 2 ^ 31)
    (hfar : spec.Far out editMode) :
    (spec.place out (spec.offset out editMode) (spec.thickness editMode)).value =
      ((spec.exactRect out editMode).x, (spec.exactRect out editMode).y) := by
  have hwithin := (within_place h hthick (spec.offset out editMode)).mpr hfar
  have hmargin : max spec.margin 0 = spec.margin := max_eq_left h.margin.1
  have hwide := out.wide
  have hhigh := out.high
  rw [place] at hwithin ⊢
  rw [exactRect, vertical]
  by_cases htop : spec.edge = "top"
  · simp [htop, hmargin]
  by_cases hleft : spec.edge = "left"
  · simp [hleft, hmargin]
  by_cases hright : spec.edge = "right"
  · rw [if_neg htop, if_neg hleft, if_pos hright, max_eq_right hwide.1, across_eq h hwide] at *
    rw [within_bind, within_signed] at hwithin
    rw [value_bind, value_signed hwithin.1 (by decide),
      if_pos (decide_eq_true (Or.inr hright)), if_neg hleft]
    rfl
  · rw [if_neg htop, if_neg hleft, if_neg hright, max_eq_right hhigh.1, across_eq h hhigh] at *
    rw [within_bind, within_signed] at hwithin
    rw [value_bind, value_signed hwithin.1 (by decide),
      if_neg fun hside => (of_decide_eq_true hside).elim hleft hright, if_neg htop]
    rfl

theorem within_origin (h : spec.Small) : (spec.origin out editMode).Within 0 ↔
    spec.Counted out editMode ∧ spec.Far out editMode := by
  rw [origin, within_bind, within_panelBox h]
  refine and_congr_right fun hcounted => ?_
  rw [value_panelBox h hcounted]
  dsimp only
  rw [along_eq h hcounted, pure_bind]
  exact within_place h hcounted.thick _

theorem within_rect (h : spec.Small) : (spec.rect out editMode).Within 0 ↔
    spec.Counted out editMode ∧ spec.Far out editMode := by
  rw [rect, within_bind, within_origin h]
  refine and_iff_left_of_imp fun hfits => ?_
  rw [within_bind, within_panelBox h]
  exact ⟨hfits.1, within_pure _⟩

theorem value_rect (h : spec.Small) (hcounted : spec.Counted out editMode)
    (hfar : spec.Far out editMode) :
    (spec.rect out editMode).value = spec.exactRect out editMode := by
  have horigin : (spec.origin out editMode).value =
      ((spec.exactRect out editMode).x, (spec.exactRect out editMode).y) := by
    rw [origin, value_bind, value_panelBox h hcounted]
    dsimp only
    rw [along_eq h hcounted, pure_bind]
    exact value_place h hcounted.thick hfar
  rw [rect, value_bind, horigin]
  dsimp only
  rw [value_bind, value_panelBox h hcounted]
  dsimp only [value_pure]
  rw [exactRect]
  split <;> rfl

end PanelSpec

end MindOS.Shell
