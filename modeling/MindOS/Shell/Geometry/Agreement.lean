import MindOS.Shell.Geometry.Along

/-!
# The page's geometry against the host's

Both count the same but for roundings, as long as 32 bits are enough for the host and the page
leaves out no panel that takes more than a pixel of an edge.
-/

namespace MindOS.Shell

open Noted

variable {p : Panel} {out : Output} {wanted all : List Panel} {fitLen : Nat} {editing : Bool}

/-! ## The rectangles -/

/-- The extent of an output that a panel's thickness counts against. -/
def Panel.depth (p : Panel) (out : Output) : Int := if p.isVertical then out.width else out.height

def Panel.extent (p : Panel) (out : Output) : Int := if p.isVertical then out.height else out.width

def pageSpan (all : List Panel) (out : Output) (p : Panel) : Int :=
  p.extent out - pageStart all out p - pageEnd all out p

def hostSpan (all : List Panel) (out : Output) (p : Panel) : Int :=
  p.extent out - hostStart all out p - hostEnd all out p

/-- The rectangle of a window, by its thickness and its place along the edge. -/
def Panel.rectAt (p : Panel) (out : Output) (thick offset len : Int) : Rect :=
  if p.isVertical then
    ⟨if p.edge = "left" then p.margin else out.width - p.margin - thick, offset, thick, len⟩
  else ⟨offset, if p.edge = "top" then p.margin else out.height - p.margin - thick, len, thick⟩

def pageThick (p : Panel) (flyout : Nat) (editing : Bool) : Int :=
  p.size + (if editing then editExtra else 0) + max 0 (flyout : Int)

theorem pageRect_eq (all : List Panel) (out : Output) (p : Panel) (fitLen flyout : Nat)
    (editing : Bool) : pageRect all out p fitLen flyout editing =
      let len := pageLen p editing (measured fitLen) (pageSpan all out p)
      p.rectAt out (pageThick p flyout editing)
        (pageOffset p (pageStart all out p) (pageSpan all out p) len) len :=
  rfl

theorem exactRect_eq (out : Output) (wanted : List Panel) (p : Panel) (fitLen flyout : Nat)
    (editing : Bool) : (specOf wanted p fitLen flyout).exactRect out editing =
      p.rectAt out (pageThick p flyout editing)
        ((specOf wanted p fitLen flyout).offset out editing)
        ((specOf wanted p fitLen flyout).len out editing) := by
  rw [pageThick, max_eq_right (Int.natCast_nonneg flyout)]
  rfl

theorem span_specOf (all : List Panel) (out : Output) (p : Panel) (fitLen : Nat) (flyout : Int) :
    (specOf (panelsFor all out.name true) p fitLen flyout).span out = hostSpan all out p := rfl

/-- At most one pixel between them in each coordinate. -/
structure Rect.Near (r s : Rect) : Prop where
  x : Shell.Near r.x s.x
  y : Shell.Near r.y s.y
  w : Shell.Near r.w s.w
  h : Shell.Near r.h s.h

/-- A rectangle inside of an output, at a panel's margin from its edge. -/
structure Rect.Lies (r : Rect) (out : Output) (p : Panel) : Prop where
  inside : 0 ≤ r.x ∧ r.x + r.w ≤ out.width ∧ 0 ≤ r.y ∧ r.y + r.h ≤ out.height
  edge : if p.edge = "top" then r.y = p.margin else if p.edge = "left" then r.x = p.margin
    else if p.edge = "right" then r.x + r.w = out.width - p.margin
    else r.y + r.h = out.height - p.margin

/-- The sizes and margins fit on the output. -/
def Roomy (all : List Panel) (out : Output) (p : Panel) (flyout : Nat) (editing : Bool) : Prop :=
  p.margin + p.size + (if editing then editExtra else 0) + flyout ≤ p.depth out ∧
    1 ≤ hostSpan all out p

/-- The host computes what the page does, up to a pixel, and both are where the panel is to be. -/
structure Agrees (all : List Panel) (out : Output) (p : Panel) (fitLen flyout : Nat)
    (editing : Bool) : Prop where
  computed : (hostRect all out p fitLen flyout editing).Within 0
  near : (hostRect all out p fitLen flyout editing).value.Near
    (pageRect all out p fitLen flyout editing)
  lies : Roomy all out p flyout editing →
    (hostRect all out p fitLen flyout editing).value.Lies out p ∧
      (pageRect all out p fitLen flyout editing).Lies out p

/-- 32 bits are enough for a panel of any length, and the page leaves out no zones that matter. -/
structure Alike (all : List Panel) (out : Output) (p : Panel) (flyout : Nat) : Prop where
  thick : p.size + editStrip + flyout < 2 ^ 31
  far : p.edge = "top" ∨ p.edge = "left" ∨
    -2 ^ 31 ≤ p.depth out - p.margin - (p.size + editStrip + flyout)
  product : hostSpan all out p * 99 < 2 ^ 31
  close : Close (pageSpan all out p) (hostStart all out p - pageStart all out p)
    (hostEnd all out p - pageEnd all out p)

theorem near_rfl (n : Int) : Near n n := by simp [Near]

theorem near_rect_iff {flyout : Nat} :
    ((specOf wanted p fitLen flyout).exactRect out editing).Near
        (pageRect all out p fitLen flyout editing) ↔
      NearAlong out wanted p fitLen flyout editing (pageStart all out p) (pageSpan all out p) := by
  rw [pageRect_eq, exactRect_eq, NearAlong, Panel.rectAt, Panel.rectAt]
  by_cases hside : p.isVertical = true
  · simp only [hside, if_true]
    exact ⟨fun h => ⟨h.h, h.y⟩, fun h => ⟨near_rfl _, h.2, near_rfl _, h.1⟩⟩
  · simp only [hside, Bool.false_eq_true, if_false]
    exact ⟨fun h => ⟨h.w, h.x⟩, fun h => ⟨h.2, near_rfl _, h.1, near_rfl _⟩⟩

theorem lies_rectAt {thick offset len : Int} (hmargin : 0 ≤ p.margin)
    (hacross : p.margin + thick ≤ p.depth out) (hlow : 0 ≤ offset)
    (hhigh : offset + len ≤ p.extent out) : (p.rectAt out thick offset len).Lies out p := by
  rw [Panel.depth] at hacross
  rw [Panel.extent] at hhigh
  by_cases hleft : p.edge = "left"
  · have hside : p.isVertical = true := decide_eq_true (.inl hleft)
    have htop : ¬p.edge = "top" := by simp [hleft]
    rw [if_pos hside] at hacross hhigh
    rw [Panel.rectAt, if_pos hside, if_pos hleft]
    refine ⟨⟨hmargin, hacross, hlow, hhigh⟩, ?_⟩
    rw [if_neg htop, if_pos hleft]
  by_cases hright : p.edge = "right"
  · have hside : p.isVertical = true := decide_eq_true (.inr hright)
    have htop : ¬p.edge = "top" := by simp [hright]
    rw [if_pos hside] at hacross hhigh
    rw [Panel.rectAt, if_pos hside, if_neg hleft]
    refine ⟨⟨by dsimp only; omega, by dsimp only; omega, hlow, hhigh⟩, ?_⟩
    rw [if_neg htop, if_neg hleft, if_pos hright]
    dsimp only
    omega
  have hside : ¬p.isVertical = true := fun h => (of_decide_eq_true h).elim hleft hright
  rw [if_neg hside] at hacross hhigh
  rw [Panel.rectAt, if_neg hside]
  by_cases htop : p.edge = "top"
  · rw [if_pos htop]
    refine ⟨⟨hlow, hhigh, hmargin, hacross⟩, ?_⟩
    rw [if_pos htop]
  · rw [if_neg htop]
    refine ⟨⟨hlow, hhigh, by dsimp only; omega, by dsimp only; omega⟩, ?_⟩
    rw [if_neg htop, if_neg hleft, if_neg hright]
    dsimp only
    omega

theorem lies_of_roomy (hall : ∀ o ∈ all, o.Sized) (h : p.Sized) {flyout : Nat}
    (hflyout : flyout < 2 ^ 31) (hroomy : Roomy all out p flyout editing) :
    ((specOf (panelsFor all out.name true) p fitLen flyout).exactRect out editing).Lies out p ∧
      (pageRect all out p fitLen flyout editing).Lies out p := by
  obtain ⟨hdepth, hspan⟩ := hroomy
  have hinsets := insets_le hall out p
  have hacross : p.margin + pageThick p flyout editing ≤ p.depth out := by
    rw [pageThick, max_eq_right (Int.natCast_nonneg flyout)]
    omega
  constructor
  · have hsmall := small_specOf hall h out fitLen
      (⟨Int.natCast_nonneg flyout, by exact_mod_cast hflyout⟩ : 0 ≤ (flyout : Int) ∧ _)
    obtain ⟨hlow, hhigh⟩ := PanelSpec.offset_bounds hsmall hspan editing
    rw [exactRect_eq]
    refine lies_rectAt h.margin.1 hacross (hsmall.insetStart.1.trans hlow) (hhigh.trans ?_)
    rw [span_specOf, hostSpan]
    change hostStart all out p + _ ≤ _
    omega
  · have hspan' : 1 ≤ pageSpan all out p := by
      rw [hostSpan] at hspan
      rw [pageSpan]
      omega
    obtain ⟨hlen, hlow, hhigh⟩ := page_bounds h hspan' fitLen editing (pageStart all out p)
    rw [pageRect_eq]
    refine lies_rectAt h.margin.1 hacross (hinsets.1.trans hlow) (hhigh.trans ?_)
    rw [pageSpan]
    omega

theorem asI32_natCast {n : Nat} (h : n < 2 ^ 31) : asI32 n = n := by
  rw [asI32]
  omega

theorem hostRect_eq {flyout : Nat} (hflyout : flyout < 2 ^ 31) :
    hostRect all out p fitLen flyout editing =
      (specOf (panelsFor all out.name true) p fitLen flyout).rect out editing := by
  rw [hostRect, asI32_natCast hflyout]
  rfl

theorem Alike.agrees {flyout : Nat} (hall : ∀ o ∈ all, o.Sized) (h : p.Sized)
    (halike : Alike all out p flyout) (fitLen : Nat) (editing : Bool) :
    Agrees all out p fitLen flyout editing := by
  have hsize := h.size
  have hthick := halike.thick
  have hproduct := halike.product
  have hclose := halike.close
  have hlength := h.length
  have hflyout : flyout < 2 ^ 31 := by
    rw [editStrip] at hthick
    omega
  have hsmall := small_specOf hall h out fitLen
    (⟨Int.natCast_nonneg flyout, by exact_mod_cast hflyout⟩ : 0 ≤ (flyout : Int) ∧ _)
  have hthickness : (specOf (panelsFor all out.name true) p fitLen flyout).thickness editing ≤
      p.size + editStrip + flyout := by
    change p.size + (if editing then editStrip else 0) + (flyout : Int) ≤ _
    rw [editStrip]
    split <;> omega
  have hspans : hostSpan all out p = pageSpan all out p -
      (hostStart all out p - pageStart all out p) - (hostEnd all out p - pageEnd all out p) := by
    rw [hostSpan, pageSpan]
    omega
  have hcounted : (specOf (panelsFor all out.name true) p fitLen flyout).Counted out editing := by
    refine ⟨by omega, fun hne hlt => ?_⟩
    change hostSpan all out p * p.length < _
    have hten : 10 ≤ p.length ∧ p.length ≤ 99 := ⟨(hlength.resolve_left hne).1, by
      change p.length < 100 at hlt
      omega⟩
    nlinarith
  have hfar : (specOf (panelsFor all out.name true) p fitLen flyout).Far out editing := by
    refine halike.far.imp_right fun hfar => hfar.imp_right fun hfar => ?_
    change -2 ^ 31 ≤ p.depth out - p.margin - _
    omega
  have hvalue := PanelSpec.value_rect hsmall hcounted hfar
  refine ⟨?_, ?_, fun hroomy => ?_⟩
  · rw [hostRect_eq hflyout]
    exact (PanelSpec.within_rect hsmall).mpr ⟨hcounted, hfar⟩
  · rw [hostRect_eq hflyout, hvalue, near_rect_iff]
    have hinset : (specOf (panelsFor all out.name true) p fitLen flyout).insetStart =
        pageStart all out p + (hostStart all out p - pageStart all out p) := by
      change hostStart all out p = _
      omega
    exact near_along h hclose hspans hinset
  · rw [hostRect_eq hflyout, hvalue]
    exact lies_of_roomy hall h hflyout hroomy

theorem asI32_bounds (n : Nat) : 0 ≤ asI32 n ∧ asI32 n < 2 ^ 31 := by
  rw [asI32]
  omega

theorem Agrees.numbers {flyout : Nat} (hall : ∀ o ∈ all, o.Sized) (h : p.Sized)
    (hagrees : Agrees all out p fitLen flyout editing) (hediting : flyout < 2 ^ 31 ∨ editing) :
    flyout < 2 ^ 31 ∧ (specOf (panelsFor all out.name true) p fitLen flyout).Counted out editing ∧
      (specOf (panelsFor all out.name true) p fitLen flyout).Far out editing ∧
      NearAlong out (panelsFor all out.name true) p fitLen flyout editing (pageStart all out p)
        (pageSpan all out p) := by
  have hsmall := small_specOf hall h out fitLen (asI32_bounds flyout)
  obtain ⟨hcounted, hfar⟩ := (PanelSpec.within_rect hsmall).mp hagrees.computed
  have hflyout : flyout < 2 ^ 31 := by
    refine hediting.elim id fun hedit => ?_
    have hthick := hcounted.thick
    change p.size + (if editing then editStrip else 0) + asI32 flyout < 2 ^ 31 at hthick
    have hsize := h.size
    rw [if_pos hedit, editStrip, asI32] at hthick
    omega
  rw [asI32_natCast hflyout] at hcounted hfar hsmall
  refine ⟨hflyout, hcounted, hfar, ?_⟩
  have hnear := hagrees.near
  rw [hostRect_eq hflyout, PanelSpec.value_rect hsmall hcounted hfar] at hnear
  exact near_rect_iff.mp hnear

theorem NearAlong.whole {flyout : Nat} (hnear : NearAlong out (panelsFor all out.name true)
      { p with length := 100, align := "start" } fitLen flyout editing (pageStart all out p)
      (pageSpan all out p)) :
    Near (max (hostSpan all out p) 1) (pageSpan all out p) ∧
      Near (hostStart all out p) (pageStart all out p) := by
  obtain ⟨hlen, hoffset⟩ := hnear
  have hpage : pageLen { p with length := 100, align := "start" } editing (measured fitLen)
      (pageSpan all out p) = pageSpan all out p := by
    have hclamp : clamp 100 10 100 = 100 := by decide
    unfold pageLen
    rw [if_neg (by decide : ¬(100 : Int) ≤ 0), hclamp, mathRound]
    omega
  rw [hpage] at hlen hoffset
  refine ⟨hlen, ?_⟩
  have hhost : (specOf (panelsFor all out.name true) { p with length := 100, align := "start" }
      fitLen flyout).offset out editing = hostStart all out p := Int.add_zero _
  have hpage : pageOffset { p with length := 100, align := "start" } (pageStart all out p)
      (pageSpan all out p) (pageSpan all out p) = pageStart all out p := Int.add_zero _
  rwa [hhost, hpage] at hoffset

theorem NearAlong.tenth {flyout : Nat} (hnear : NearAlong out (panelsFor all out.name true)
      { p with length := 10, align := "end" } fitLen flyout editing (pageStart all out p)
      (pageSpan all out p)) :
    Near (hostStart all out p + (hostSpan all out p - max (round (hostSpan all out p * 10) 100) 1))
      (pageStart all out p + (pageSpan all out p - mathRound (pageSpan all out p * 10) 100)) :=
  hnear.2

/-- The host's and the page's rectangle of a panel, however long and however aligned it is, agree
exactly if 32 bits are enough for them and they count the same zones, up to a pixel. -/
theorem agrees_iff (hall : ∀ o ∈ all, o.Sized) (h : p.Sized) (flyout : Nat) :
    (∀ length align, length = 0 ∨ 10 ≤ length ∧ length ≤ 100 →
        align ∈ (["start", "center", "end"] : List Text) → ∀ fitLen editing,
          Agrees all out { p with length, align } fitLen flyout editing) ↔
      Alike all out p flyout := by
  have hsized : ∀ length align, length = 0 ∨ 10 ≤ length ∧ length ≤ 100 →
      align ∈ (["start", "center", "end"] : List Text) → { p with length, align : Panel }.Sized :=
    fun _ _ hlength halign => ⟨h.size, hlength, h.margin, halign⟩
  constructor
  · intro hagrees
    have hstart : ("start" : Text) ∈ (["start", "center", "end"] : List Text) := by decide
    have hend : ("end" : Text) ∈ (["start", "center", "end"] : List Text) := by decide
    -- All of the edge in edit mode, almost all of it, and a tenth of it at the end.
    obtain ⟨hflyout, hcounted, hfar, hfull⟩ :=
      (hagrees 100 "start" (by decide) hstart 0 true).numbers hall
        (hsized _ _ (by decide) hstart) (.inr rfl)
    obtain ⟨-, hproduct, -, -⟩ := (hagrees 99 "end" (by decide) hend 0 false).numbers hall
        (hsized _ _ (by decide) hend) (.inl hflyout)
    obtain ⟨-, -, -, htenth⟩ := (hagrees 10 "end" (by decide) hend 0 false).numbers hall
        (hsized _ _ (by decide) hend) (.inl hflyout)
    have hinsets := insets_le hall out p
    obtain ⟨hwhole, hstarts⟩ := hfull.whole
    have htenth := htenth.tenth
    refine ⟨hcounted.thick, hfar, hproduct.part (by decide : (99 : Int) ≠ 0)
      (by decide : (99 : Int) < 100), ?_⟩
    have hspans : hostSpan all out p = pageSpan all out p -
        (hostStart all out p - pageStart all out p) - (hostEnd all out p - pageEnd all out p) := by
      rw [hostSpan, pageSpan]
      omega
    have hfits : pageSpan all out p < 2 ^ 31 := by
      have hwide := out.wide
      have hhigh := out.high
      rw [pageSpan, Panel.extent]
      split <;> omega
    have hround : round (hostSpan all out p * 10) 100 = if 0 ≤ hostSpan all out p * 10 then
        mathRound (hostSpan all out p * 10) 100 else -mathRound (-(hostSpan all out p * 10)) 100 :=
      rfl
    rw [Near] at hwhole hstarts htenth
    rw [hround] at htenth
    simp only [mathRound] at htenth
    constructor <;> split_ifs at htenth <;> omega
  · intro halike length align hlength halign fitLen editing
    exact Alike.agrees hall (hsized length align hlength halign)
      ⟨halike.thick, halike.far, halike.product, halike.close⟩ fitLen editing

theorem sized_of_sanitized (floats : Floats) (l : Layout) :
    ∀ p ∈ (l.sanitized floats).panels, p.Sized := by
  intro p hp
  have hrange := (inRange_repaired floats l.migrated).panels p hp
  exact ⟨hrange.size, hrange.length, hrange.margin, hrange.align⟩

/-- For the panels of a layout on the primary output, however long and however aligned they are. -/
theorem panels_agree_iff (floats : Floats) (l : Layout) (out : Output) (flyout : Nat) (p : Panel)
    (hp : p ∈ panelsFor (l.sanitized floats).panels out.name true) :
    (∀ length align, length = 0 ∨ 10 ≤ length ∧ length ≤ 100 →
        align ∈ (["start", "center", "end"] : List Text) → ∀ fitLen editing,
          Agrees (l.sanitized floats).panels out { p with length, align } fitLen flyout editing) ↔
      Alike (l.sanitized floats).panels out p flyout :=
  agrees_iff (sized_of_sanitized floats l)
    (sized_of_sanitized floats l p (List.mem_of_mem_filter hp)) flyout

/-- A bar at the top for the primary output, and a dock at the left for every output. -/
def barAndDock (barOutput : Text) : Layout where
  panels := [{ id := "bar", output := barOutput, edge := "top" }, { id := "dock", edge := "left" }]
  desktop := { extra := .ofFields [] }
  extra := .ofFields []

def fullHd : Output := ⟨"DP-1", 1920, 1080, by decide, by decide⟩

def plainFloats : Floats :=
  ⟨fun n => decimal n.toNat ++ ".0", fun p => decide (p = "0.92"), by decide⟩

theorem panels_agree_dock : Agrees ((barAndDock "*").sanitized plainFloats).panels fullHd
    { id := "dock", edge := "left", length := 50, align := "start" } 0 0 true := by
  have hsame : ((barAndDock "*").sanitized plainFloats).panels = (barAndDock "*").panels := rfl
  have hinsets : hostStart (barAndDock "*").panels fullHd { id := "dock", edge := "left" } = 48 ∧
      hostEnd (barAndDock "*").panels fullHd { id := "dock", edge := "left" } = 0 ∧
      pageStart (barAndDock "*").panels fullHd { id := "dock", edge := "left" } = 48 ∧
      pageEnd (barAndDock "*").panels fullHd { id := "dock", edge := "left" } = 0 := by decide
  obtain ⟨hstart, hend, hstart', hend'⟩ := hinsets
  refine (panels_agree_iff plainFloats (barAndDock "*") fullHd 0 { id := "dock", edge := "left" }
    ?_).mpr ?_ 50 "start" (by decide) (by decide) 0 true
  · rw [hsame]
    exact List.mem_cons_of_mem _ List.mem_cons_self
  · rw [hsame]
    refine ⟨by decide, .inr (.inl rfl), ?_, ?_⟩
    · rw [hostSpan, hstart, hend]
      decide
    · rw [hstart, hend, hstart', hend', pageSpan, hstart', hend']
      exact ⟨by decide, by decide, by decide, by decide, by decide⟩

/-- The page leaves out the bar, and takes the dock to be behind it. -/
theorem panels_differ : ¬∀ (floats : Floats) (l : Layout) (out : Output),
    ∀ p ∈ panelsFor (l.sanitized floats).panels out.name true, ∀ fitLen flyout editing,
      Agrees (l.sanitized floats).panels out p fitLen flyout editing := by
  intro h
  have hsame : ((barAndDock "primary").sanitized plainFloats).panels =
      (barAndDock "primary").panels := rfl
  have hagrees := h plainFloats (barAndDock "primary") fullHd
  rw [hsame] at hagrees
  have hy := (hagrees { id := "dock", edge := "left" } (List.mem_cons_of_mem _ List.mem_cons_self)
    0 0 false).near.y
  have hhost : (hostRect (barAndDock "primary").panels fullHd { id := "dock", edge := "left" }
      0 0 false).value.y = 48 := by decide
  have hpage : (pageRect (barAndDock "primary").panels fullHd { id := "dock", edge := "left" }
      0 0 false).y = 0 := by decide
  rw [hhost, hpage] at hy
  exact absurd hy (by decide : ¬((48 : Int) - 0).natAbs ≤ 1)

end MindOS.Shell
