import MindOS.Shell.Geometry.Panels
import MindOS.Shell.Layout.Repairs

/-!
# Lengths and places along an edge

The page and the host round differently, and their spans may differ by a pixel. What they compute
of a span is near each other for every length and alignment of the panel.
-/

namespace MindOS.Shell

open Noted

/-! ## Along the edge -/

/-- The numbers of a repaired panel. -/
structure Panel.Sized (p : Panel) : Prop where
  size : 16 ≤ p.size ∧ p.size ≤ 400
  length : p.length = 0 ∨ 10 ≤ p.length ∧ p.length ≤ 100
  margin : 0 ≤ p.margin ∧ p.margin ≤ 200
  align : p.align ∈ (["start", "center", "end"] : List Text)

/-- Two spans of one edge, of which the second starts `start` further in and ends `stop` before
the first. They are close enough for every length and alignment. -/
structure Close (span start stop : Int) : Prop where
  fits : 0 ≤ span ∧ span < 2 ^ 31
  starts : 0 ≤ start
  stops : 0 ≤ stop
  pixel : start + stop ≤ 1
  room : stop ≠ 0 → 5 ≤ span

def Near (m n : Int) : Prop := (m - n).natAbs ≤ 1

variable {p : Panel} {out : Output} {wanted : List Panel} {fitLen : Nat} {flyout inset0 : Int}
  {editing : Bool} {span start stop : Int}

/-- The host's spec of a panel, from what the page reports. -/
def specOf (wanted : List Panel) (p : Panel) (fitLen : Nat) (flyout : Int) : PanelSpec :=
  PanelSpec.sync wanted p (asI32 fitLen) flyout

/-- Length and place of a panel by the host and by the page are near each other. -/
def NearAlong (out : Output) (wanted : List Panel) (p : Panel) (fitLen : Nat) (flyout : Int)
    (editing : Bool) (inset0 span : Int) : Prop :=
  let len := pageLen p editing (measured fitLen) span
  Near ((specOf wanted p fitLen flyout).len out editing) len ∧
    Near ((specOf wanted p fitLen flyout).offset out editing) (pageOffset p inset0 span len)

theorem near_full (hclose : Close span start stop) (hfull : p.length = 100 ∨ p.length = 0 ∧ editing)
    (hspan : (specOf wanted p fitLen flyout).span out = span - start - stop)
    (hinset : (specOf wanted p fitLen flyout).insetStart = inset0 + start) :
    NearAlong out wanted p fitLen flyout editing inset0 span := by
  obtain ⟨hspan', hstart, hstop, hpixel, hroom⟩ := hclose
  have hfull' : (specOf wanted p fitLen flyout).isFull editing = true := by
    change (decide (100 ≤ p.length) || (decide (p.length ≤ 0) && editing)) = true
    rcases hfull with hlength | ⟨hlength, hediting⟩
    · simp [hlength]
    · simp [hlength, hediting]
  have hlen : pageLen p editing (measured fitLen) span = span := by
    unfold pageLen
    rcases hfull with hlength | ⟨hlength, hediting⟩
    · have hclamp : clamp 100 10 100 = 100 := by decide
      rw [if_neg (by omega), hlength, hclamp, mathRound]
      omega
    · rw [if_pos (by omega), if_pos hediting]
  have hoffset : pageOffset p inset0 span span = inset0 := by
    rw [pageOffset, Int.sub_self, mathRound]
    split_ifs <;> omega
  simp only [NearAlong, Near]
  rw [hlen, hoffset, PanelSpec.len, PanelSpec.offset, if_pos hfull', if_pos hfull', hspan, hinset]
  omega

theorem tdiv_two (n : Int) : n.tdiv 2 = if 0 ≤ n then n / 2 else -(-n / 2) := by
  split
  · next h => exact Int.tdiv_eq_ediv_of_nonneg h
  · next h => exact tdiv_of_neg 2 (Int.not_le.mp h)

theorem near_fit (hclose : Close span start stop) (hlength : p.length = 0) (hediting : ¬editing)
    (hspan : (specOf wanted p fitLen flyout).span out = span - start - stop)
    (hinset : (specOf wanted p fitLen flyout).insetStart = inset0 + start) :
    NearAlong out wanted p fitLen flyout editing inset0 span := by
  obtain ⟨hspan', hstart, hstop, hpixel, hroom⟩ := hclose
  have hfit : (specOf wanted p fitLen flyout).isFit = true := decide_eq_true hlength.le
  have hfull : ¬(specOf wanted p fitLen flyout).isFull editing = true := by
    simp [PanelSpec.isFull, hediting, specOf, PanelSpec.sync, hlength]
  have hthird : (span - start - stop).tdiv 3 = max 0 (span - start - stop) / 3 := by
    rcases lt_or_ge (span - start - stop) 0 with hneg | hnonneg
    · rw [tdiv_of_neg 3 hneg]
      omega
    · rw [Int.tdiv_eq_ediv_of_nonneg hnonneg]
      omega
  have hreported : (specOf wanted p fitLen flyout).fit = asI32 fitLen := rfl
  simp only [NearAlong, Near]
  rw [PanelSpec.len, PanelSpec.offset, PanelSpec.len, if_neg hfull, if_neg hfull, if_pos hfit,
    if_pos hfit, hspan, hinset, hreported, hthird, pageOffset,
    if_pos (Or.inl hlength.le : p.length ≤ 0 ∨ p.align = "center"), measured, tdiv_two, asI32]
  unfold pageLen
  rw [if_pos hlength.le, if_neg hediting]
  by_cases hzero : fitLen = 0
  · simp only [hzero, if_true, mathRound, clamp]
    split_ifs <;> omega
  · simp only [hzero, if_false, mathRound, clamp]
    split_ifs <;> omega

theorem near_part (hclose : Close span start stop) (hlength : 10 ≤ p.length ∧ p.length < 100)
    (halign : p.align ∈ (["start", "center", "end"] : List Text))
    (hspan : (specOf wanted p fitLen flyout).span out = span - start - stop)
    (hinset : (specOf wanted p fitLen flyout).insetStart = inset0 + start) :
    NearAlong out wanted p fitLen flyout editing inset0 span := by
  obtain ⟨hspan', hstart, hstop, hpixel, hroom⟩ := hclose
  have hfit : ¬(specOf wanted p fitLen flyout).isFit = true := by
    change ¬decide (p.length ≤ 0) = true
    rw [decide_eq_true_eq]
    omega
  have hfull : ¬(specOf wanted p fitLen flyout).isFull editing = true := by
    change ¬(decide (100 ≤ p.length) || (decide (p.length ≤ 0) && editing)) = true
    simp only [Bool.or_eq_true, Bool.and_eq_true, decide_eq_true_eq]
    omega
  have hclamp : clamp p.length 10 100 = p.length := by
    rw [clamp]
    omega
  have hnarrow : (span - start - stop) * p.length =
      span * p.length - (start + stop) * p.length := by
    rw [Int.sub_sub, Int.sub_mul]
  -- The lengths in hundredths are those of the spans.
  have hbounds : 10 * span ≤ span * p.length ∧ span * p.length ≤ 99 * span := by
    constructor <;> nlinarith
  have hmissed : (start + stop) * p.length = 0 ∧ start + stop = 0 ∨
      (start + stop) * p.length = p.length ∧ start + stop = 1 := by
    rcases (by omega : start + stop = 0 ∨ start + stop = 1) with hsum | hsum <;> simp [hsum]
  have hlen : pageLen p editing (measured fitLen) span = mathRound (span * p.length) 100 := by
    unfold pageLen
    rw [if_neg (by omega), hclamp]
  have hlen' : (specOf wanted p fitLen flyout).length = p.length := rfl
  have halign' : (specOf wanted p fitLen flyout).align = p.align := rfl
  simp only [NearAlong, Near]
  rw [hlen, PanelSpec.offset, PanelSpec.len, if_neg hfull, if_neg hfull, if_neg hfit, if_neg hfit,
    hspan, hinset, hlen', halign', hnarrow, tdiv_two, pageOffset]
  generalize span * p.length = product at *
  generalize (start + stop) * p.length = missed at *
  -- What is missed is less than a pixel of the length.
  have hlengths : 0 ≤ mathRound product 100 ∧ mathRound product 100 ≤ span ∧
      (stop ≠ 0 → 1 ≤ mathRound product 100) ∧
        mathRound product 100 - (start + stop) ≤ max (round (product - missed) 100) 1 ∧
          max (round (product - missed) 100) 1 ≤ max (mathRound product 100) 1 := by
    have hround : round (product - missed) 100 = if 0 ≤ product - missed then
        mathRound (product - missed) 100 else -mathRound (-(product - missed)) 100 := rfl
    rw [hround]
    simp only [mathRound]
    split <;> omega
  generalize mathRound product 100 = len at *
  generalize max (round (product - missed) 100) 1 = len' at *
  have hneither : ¬p.length ≤ 0 := by omega
  simp only [List.mem_cons, List.not_mem_nil, or_false] at halign
  obtain halign | halign | halign := halign
  · simp [halign, hneither]
    omega
  · simp [halign, hneither, mathRound]
    split <;> omega
  · simp [halign, hneither]
    omega

theorem near_along (h : p.Sized) (hclose : Close span start stop)
    (hspan : (specOf wanted p fitLen flyout).span out = span - start - stop)
    (hinset : (specOf wanted p fitLen flyout).insetStart = inset0 + start) :
    NearAlong out wanted p fitLen flyout editing inset0 span := by
  by_cases hfull : p.length = 100 ∨ p.length = 0 ∧ editing
  · exact near_full hclose hfull hspan hinset
  · obtain ⟨hlength, hediting⟩ := not_or.mp hfull
    rcases h.length with hzero | hpart
    · exact near_fit hclose hzero (fun hedit => hediting ⟨hzero, hedit⟩) hspan hinset
    · exact near_part hclose ⟨hpart.1, by omega⟩ h.align hspan hinset

/-! ## Insets -/

/-- The insets of the page. -/
def pageStart (all : List Panel) (out : Output) (p : Panel) : Int := (pageInsets p out all).1

def pageEnd (all : List Panel) (out : Output) (p : Panel) : Int := (pageInsets p out all).2

/-- The insets of the host, on the primary output. -/
def hostStart (all : List Panel) (out : Output) (p : Panel) : Int :=
  (hostInsets p (panelsFor all out.name true)).1

def hostEnd (all : List Panel) (out : Output) (p : Panel) : Int :=
  (hostInsets p (panelsFor all out.name true)).2

variable {all : List Panel}

theorem beside_subset (p : Panel) (top : Bool) (all : List Panel) (name : Text) :
    p.beside top (panelsOn all name) ⊆ p.beside top (panelsFor all name true) := by
  intro o ho
  simp only [Panel.beside, panelsOn, panelsFor, List.mem_filter, Bool.or_eq_true] at ho ⊢
  exact ⟨⟨ho.1.1, .inl ho.1.2⟩, ho.2⟩

theorem zones_subset (hall : ∀ o ∈ all, o.Sized) (p : Panel) (top : Bool) (name : Text) :
    (p.beside top (panelsOn all name)).map (fun o => o.margin + o.size) ⊆
      (p.beside top (panelsFor all name true)).map fun o => o.size + max o.margin 0 := by
  intro zone hzone
  obtain ⟨o, ho, rfl⟩ := List.mem_map.mp hzone
  refine List.mem_map.mpr ⟨o, beside_subset p top all name ho, ?_⟩
  have hmem : o ∈ all := List.mem_of_mem_filter (List.mem_of_mem_filter ho)
  rw [max_eq_left (hall o hmem).margin.1, Int.add_comm]

theorem zones_le (hall : ∀ o ∈ all, o.Sized) (p : Panel) (top : Bool) (name : Text) :
    inset ((p.beside top (panelsFor all name true)).map fun o => o.size + max o.margin 0) ≤
      600 := by
  refine inset_le_iff.mpr ⟨by decide, fun zone hzone => ?_⟩
  obtain ⟨o, ho, rfl⟩ := List.mem_map.mp hzone
  have hmem : o ∈ all := List.mem_of_mem_filter (List.mem_of_mem_filter ho)
  have hsize := (hall o hmem).size
  have hmargin := (hall o hmem).margin
  omega

theorem insets_le (hall : ∀ o ∈ all, o.Sized) (out : Output) (p : Panel) :
    0 ≤ pageStart all out p ∧ pageStart all out p ≤ hostStart all out p ∧
      hostStart all out p ≤ 600 ∧ 0 ≤ pageEnd all out p ∧
        pageEnd all out p ≤ hostEnd all out p ∧ hostEnd all out p ≤ 600 := by
  simp only [pageStart, pageEnd, hostStart, hostEnd, pageInsets, hostInsets]
  split
  · exact ⟨inset_nonneg _, inset_mono (zones_subset hall p true out.name), zones_le hall p true _,
      inset_nonneg _, inset_mono (zones_subset hall p false out.name), zones_le hall p false _⟩
  · decide

theorem small_specOf (hall : ∀ o ∈ all, o.Sized) (h : p.Sized) (out : Output) (fitLen : Nat)
    {flyout : Int} (hflyout : 0 ≤ flyout ∧ flyout < 2 ^ 31) :
    (specOf (panelsFor all out.name true) p fitLen flyout).Small where
  size := h.size
  length := h.length
  margin := h.margin
  insetStart := by
    have hinsets := insets_le hall out p
    exact ⟨hinsets.1.trans hinsets.2.1, hinsets.2.2.1⟩
  insetEnd := by
    have hinsets := insets_le hall out p
    exact ⟨hinsets.2.2.2.1.trans hinsets.2.2.2.2.1, hinsets.2.2.2.2.2⟩
  fit := by
    change 0 ≤ asI32 fitLen ∧ asI32 fitLen < 2 ^ 31
    rw [asI32]
    omega
  flyout := hflyout

/-! ## Inside of the span -/

theorem PanelSpec.offset_bounds {spec : PanelSpec} (h : spec.Small) (hspan : 1 ≤ spec.span out)
    (editing : Bool) :
    spec.insetStart ≤ spec.offset out editing ∧
      spec.offset out editing + spec.len out editing ≤ spec.insetStart + spec.span out := by
  have hlen : spec.len out editing ≤ spec.span out := by
    have hthird := tdiv_bounds (spec.span out) (by decide : (0 : Int) < 3)
    have hlength := h.length
    rw [len]
    refine max_le ?_ hspan
    split
    · exact le_rfl
    · split
      · split <;> omega
      · next hfull hfit =>
          simp only [isFull, isFit, Bool.or_eq_true, decide_eq_true_eq] at hfull hfit
          have hproduct : 0 ≤ spec.span out * spec.length ∧
              spec.span out * spec.length ≤ 99 * spec.span out := by
            have hten : 10 ≤ spec.length ∧ spec.length ≤ 99 := by omega
            constructor <;> nlinarith
          rw [round_of_nonneg hproduct.1, mathRound]
          omega
  have hhalf := tdiv_bounds (spec.span out - spec.len out editing) (by decide : (0 : Int) < 2)
  rw [offset]
  split_ifs <;> omega

theorem page_bounds (h : p.Sized) (hspan : 1 ≤ span) (fitLen : Nat) (editing : Bool)
    (inset0 : Int) :
    0 ≤ pageLen p editing (measured fitLen) span ∧
      inset0 ≤ pageOffset p inset0 span (pageLen p editing (measured fitLen) span) ∧
      pageOffset p inset0 span (pageLen p editing (measured fitLen) span) +
        pageLen p editing (measured fitLen) span ≤ inset0 + span := by
  have hlen : 0 ≤ pageLen p editing (measured fitLen) span ∧
      pageLen p editing (measured fitLen) span ≤ span := by
    unfold pageLen measured
    split_ifs
    · omega
    · simp only [mathRound, clamp]
      omega
    · simp only [clamp]
      omega
    · have hclamp : clamp p.length 10 100 = p.length := by
        have hlength := h.length
        rw [clamp]
        omega
      have hproduct : 0 ≤ span * p.length ∧ span * p.length ≤ 100 * span := by
        have hlength := h.length
        have hten : 10 ≤ p.length ∧ p.length ≤ 100 := by omega
        constructor <;> nlinarith
      rw [hclamp, mathRound]
      omega
  rw [pageOffset]
  generalize pageLen p editing (measured fitLen) span = len at *
  simp only [mathRound]
  split_ifs <;> omega

end MindOS.Shell
