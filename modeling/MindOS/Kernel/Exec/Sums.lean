import MindOS.Kernel.Exec.Loader
import MindOS.Kernel.Mm.Mapping

/-!
# The sums of the loader

When every sum and difference of the loader is the true one, and what it reserves is within a
limit. This is asked of each header that the loop comes to, in the state in which it does.
-/

namespace MindOS.Kernel.Exec

open Noted Mm
open Tmpfs (pageSize wrap)

variable {limit i base n : Nat} {picks : Picks} {ph : Phdr} {st : Loading} {x : Extent} {w : World}

theorem within_pageUp : (pageUp n).Within limit ↔ n + pageSize < 2 ^ 64 := by
  simp only [pageUp, within_bind, within_add, within_sub, within_pure, and_true,
    and_iff_left_iff_imp]
  intro h
  rw [value_add h]
  exact Nat.le_add_left 1 _

theorem value_pageUp (h : n + pageSize < 2 ^ 64) : (pageUp n).value = roundUp n := by
  simp only [pageUp, value_bind, value_pure, value_add h]
  rw [value_sub h (Nat.le_add_left 1 _)]
  rfl

/-- The offset of the segment in the file fits its address. -/
def Phdr.Aligned (base : Nat) (ph : Phdr) : Prop :=
  ph.offset % pageSize = (base + ph.vaddr) % pageSize

instance (base : Nat) (ph : Phdr) : Decidable (ph.Aligned base) :=
  inferInstanceAs (Decidable (_ = _))

/-- The sums over the numbers of a segment are true ones. -/
structure Phdr.Sound (base : Nat) (ph : Phdr) : Prop where
  vaddr : base + ph.vaddr < 2 ^ 64
  offset : (base + ph.vaddr) % pageSize ≤ ph.offset
  fileEnd : ph.Aligned base → base + ph.vaddr + ph.filesz + pageSize < 2 ^ 64
  memEnd : ph.Aligned base → base + ph.vaddr + ph.memsz + pageSize < 2 ^ 64

/-- The extent of a segment, by true sums. -/
def Phdr.extent (base : Nat) (ph : Phdr) : Extent where
  mapStart := base + ph.vaddr - (base + ph.vaddr) % pageSize
  fileOff := ph.offset - (base + ph.vaddr) % pageSize
  fileEnd := base + ph.vaddr + ph.filesz
  memEnd := base + ph.vaddr + ph.memsz
  fileMapEnd := roundUp (base + ph.vaddr + ph.filesz)
  memMapEnd := roundUp (base + ph.vaddr + ph.memsz)

theorem within_extent : (extent base ph).Within limit ↔ ph.Sound base := by
  have hle : (base + ph.vaddr) % pageSize ≤ base + ph.vaddr := Nat.mod_le _ _
  constructor
  · intro h
    simp only [extent, within_bind, within_add, within_sub] at h
    obtain ⟨hv, -, hoff, h⟩ := h
    rw [value_add hv] at hoff h
    refine ⟨hv, hoff, fun hfit => ?_, fun hfit => ?_⟩
    all_goals
      have hneg : ¬ph.offset % pageSize ≠ (base + ph.vaddr) % pageSize := not_not.mpr hfit
      rw [if_neg hneg] at h
      simp only [within_bind, within_add, within_pageUp, within_pure] at h
      obtain ⟨hfile, hmem, hfileUp, hmemUp, -⟩ := h
      rw [value_add hfile] at hfileUp
      rw [value_add hmem] at hmemUp
      assumption
  · rintro ⟨hv, hoff, hfile, hmem⟩
    simp only [extent, within_bind, within_add, within_sub, value_add hv, within_ite, within_pure,
      within_pageUp]
    refine ⟨hv, hle, hoff, fun _ => trivial, fun hfit => ?_⟩
    have hfit : ph.Aligned base := not_not.mp hfit
    have hfile := hfile hfit
    have hmem := hmem hfit
    rw [value_add (by omega), value_add (by omega)]
    refine ⟨by omega, by omega, by omega, by omega, trivial⟩

theorem value_extent (hfits : ph.Fits) (h : ph.Sound base) :
    (extent base ph).value = if ph.Aligned base then some (ph.extent base) else none := by
  have hle : (base + ph.vaddr) % pageSize ≤ base + ph.vaddr := Nat.mod_le _ _
  simp only [extent, value_bind, value_add h.vaddr, value_sub h.vaddr hle,
    value_sub hfits.offset h.offset]
  by_cases hfit : ph.Aligned base
  · have hfile := h.fileEnd hfit
    have hmem := h.memEnd hfit
    have hneg : ¬ph.offset % pageSize ≠ (base + ph.vaddr) % pageSize := not_not.mpr hfit
    rw [if_neg hneg, if_pos hfit]
    simp only [value_bind, value_pure]
    rw [value_add (by omega), value_add (by omega), value_pageUp hfile, value_pageUp hmem]
    rfl
  · have hpos : ph.offset % pageSize ≠ (base + ph.vaddr) % pageSize := hfit
    rw [if_pos hpos, if_neg hfit]
    rfl

/-! ### The steps for a segment -/

/-- What is known of the extent of a segment. -/
structure Extent.Of (base : Nat) (ph : Phdr) (x : Extent) : Prop where
  mapStart : x.mapStart + (base + ph.vaddr) % pageSize = base + ph.vaddr
  fileOff : x.fileOff + (base + ph.vaddr) % pageSize = ph.offset
  fileEnd : x.fileEnd = base + ph.vaddr + ph.filesz
  memEnd : x.memEnd = base + ph.vaddr + ph.memsz
  fileMapEnd : x.fileMapEnd = roundUp x.fileEnd
  memMapEnd : x.memMapEnd = roundUp x.memEnd
  fileFits : x.fileEnd + pageSize < 2 ^ 64
  memFits : x.memEnd + pageSize < 2 ^ 64

theorem extentOf (h : ph.Sound base) (ha : ph.Aligned base) : (ph.extent base).Of base ph :=
  ⟨Nat.sub_add_cancel (Nat.mod_le _ _), Nat.sub_add_cancel h.offset, rfl, rfl, rfl, rfl,
    h.fileEnd ha, h.memEnd ha⟩

namespace Extent.Of

variable (hx : x.Of base ph)

include hx

theorem pages : pageSize ∣ x.mapStart ∧ pageSize ∣ x.fileMapEnd ∧ pageSize ∣ x.memMapEnd ∧
    x.fileEnd ≤ x.fileMapEnd ∧ x.fileMapEnd < x.fileEnd + pageSize ∧ x.memEnd ≤ x.memMapEnd ∧
    x.memMapEnd < x.memEnd + pageSize := by
  obtain ⟨hstart, -, -, -, hfile, hmem, -, -⟩ := hx
  rw [roundUp_eq] at hfile hmem
  rw [pageSize_eq] at *
  omega

theorem mapStart_le : x.mapStart ≤ base + ph.vaddr := by
  have := hx.mapStart
  omega

theorem lt_fileMapEnd (hpos : 0 < ph.filesz) : x.mapStart < x.fileMapEnd := by
  have hle := hx.mapStart_le
  have hend := hx.fileEnd
  have hpages := hx.pages.2.2.2.1
  omega

end Extent.Of

theorem within_mapFile (hx : x.Of base ph) : (mapFile i ph x w).Within limit := by
  rw [mapFile, within_ite]
  refine ⟨fun hpos => ?_, fun _ => within_pure _⟩
  rw [within_bind, within_sub]
  exact ⟨(hx.lt_fileMapEnd hpos).le, within_pure _⟩

theorem within_mapBss : (mapBss ph x w).Within limit := by
  rw [mapBss, within_ite]
  refine ⟨fun hlt => ?_, fun _ => within_pure _⟩
  rw [within_bind, within_sub]
  exact ⟨hlt.le, within_pure _⟩

/-- The list of the pages of a file in tmpfs becomes no longer than that for a write to the
page at `va`. -/
def ListFits (limit : Nat) (st : Loading) (va : Nat) : Prop :=
  ∀ i index pages, fileIndex st.world va = some (i, index) →
    st.world.mem.inodes i = .tmpfs pages → st.listed i ≤ index → 16 * (index + 1) ≤ limit

theorem within_extendList {va : Nat} : (extendList st va).Within limit ↔ ListFits limit st va := by
  unfold extendList ListFits
  split
  case h_1 hnone => simp [hnone]
  case h_2 i index hsome =>
    simp only [hsome, Option.some.injEq, Prod.mk.injEq]
    split
    case h_1 pages hi =>
      rw [within_ite]
      simp only [within_bind, within_reserve, within_pure, and_true, implies_true]
      constructor
      · rintro h _ _ _ ⟨rfl, rfl⟩ _ hle
        exact h hle
      · intro h hle
        exact h i index pages ⟨rfl, rfl⟩ hi hle
    case h_2 hi =>
      refine iff_of_true (within_pure _) ?_
      rintro _ _ pages ⟨rfl, rfl⟩ htmpfs
      exact absurd htmpfs (hi pages)

theorem within_clearTail (hlimit : pageSize ≤ limit) (hx : x.Of base ph) :
    (clearTail ph x picks st).Within limit ↔
      (ph.clears x = true → ListFits limit st (x.fileEnd / pageSize * pageSize)) := by
  obtain ⟨-, -, -, hle, hlt, -, -⟩ := hx.pages
  have hfits := hx.fileFits
  rw [clearTail, within_ite]
  simp only [within_bind, within_sub, within_reserve, within_extendList, within_pure, and_true,
    implies_true]
  rw [value_sub (by omega) hle]
  have hsmall : x.fileMapEnd - x.fileEnd ≤ limit := by omega
  simp only [hle, hsmall, true_and]

/-- What the clearing of the tail asks for, once the pages are mapped. -/
def TailFits (limit i base : Nat) (ph : Phdr) (st : Loading) : Prop :=
  ph.clears (ph.extent base) = true →
    ∀ w a, (mapSegment i ph (ph.extent base) st.world).value = (w, .ok a) →
      ListFits limit { st with world := w } ((ph.extent base).fileEnd / pageSize * pageSize)

theorem within_mapSegment (hx : x.Of base ph) : (mapSegment i ph x w).Within limit := by
  rw [mapSegment, within_bind]
  refine ⟨within_mapFile hx, ?_⟩
  split
  · exact within_pure _
  · exact within_mapBss

theorem within_loadExtent (hlimit : pageSize ≤ limit) (hx : (ph.extent base).Of base ph) :
    (loadExtent i picks ph (ph.extent base) st).Within limit ↔ TailFits limit i base ph st := by
  rw [loadExtent, within_bind, iff_true_intro (within_mapSegment hx), true_and, TailFits]
  rcases (mapSegment i ph (ph.extent base) st.world).value with ⟨w, e | a⟩
  · simp
  · have htail := @within_clearTail _ _ picks _ { st with world := w } _ hlimit hx
    simp only [within_bind, htail]
    constructor
    · rintro ⟨h, -⟩ hclears _ _ heq
      obtain ⟨rfl, -⟩ := Prod.mk.inj heq
      exact h hclears
    · intro h
      refine ⟨fun hclears => h hclears w a rfl, ?_⟩
      split <;> exact within_pure _

theorem within_loadSegment (hlimit : pageSize ≤ limit) (hfits : ph.Fits) :
    (loadSegment i base picks ph st).Within limit ↔
      ph.Sound base ∧ (ph.Aligned base → TailFits limit i base ph st) := by
  rw [loadSegment, within_bind, within_extent]
  refine and_congr_right fun hsound => ?_
  rw [value_extent hfits hsound]
  by_cases ha : ph.Aligned base
  · rw [if_pos ha]
    exact (within_loadExtent hlimit (extentOf hsound ha)).trans ⟨fun h _ => h, fun h => h ha⟩
  · rw [if_neg ha]
    exact iff_of_true (within_pure _) fun h => absurd h ha

/-! ### The loop -/

/-- What makes the steps for a header true ones, and their reservations small. -/
def Phdr.Good (limit i base : Nat) (ph : Phdr) (st : Loading) : Prop :=
  if ph.type = PT_PHDR then base + ph.vaddr < 2 ^ 64
  else ph.loads = true → ph.Sound base ∧ (ph.Aligned base → TailFits limit i base ph st)

theorem within_loadPhdr (hlimit : pageSize ≤ limit) (hfits : ph.Fits) :
    (loadPhdr i base picks ph st).Within limit ↔ ph.Good limit i base st := by
  rw [loadPhdr, Phdr.Good]
  split
  · simp only [within_bind, within_add, within_pure, and_true]
  · rw [within_ite, within_loadSegment hlimit hfits]
    exact ⟨fun h => h.1, fun h => ⟨h, fun _ => within_pure _⟩⟩

/-- Every header that the loop comes to meets the condition, in the state in which it does. -/
def AtEach (i base : Nat) (Q : Phdr → Loading → Prop) (picks : Nat → Picks) (phs : List Phdr)
    (st : Loading) : Prop :=
  ∀ front ph back st', phs = front ++ ph :: back →
    (loadPhdrs i base picks front st).value = (st', .ok ()) → Q ph st'

theorem loadPhdrs_cons {phs : List Phdr} {picks : Nat → Picks} {st' : Loading} :
    (loadPhdrs i base picks (ph :: phs) st).value = (st', .ok ()) ↔
      ∃ mid, (loadPhdr i base (picks 0) ph st).value = (mid, .ok ()) ∧
        (loadPhdrs i base (fun n => picks (n + 1)) phs mid).value = (st', .ok ()) := by
  rw [loadPhdrs, value_bind]
  rcases (loadPhdr i base (picks 0) ph st).value with ⟨mid, e | a⟩
  · simp
  · simp only [Prod.mk.injEq, and_true]
    exact ⟨fun h => ⟨mid, rfl, h⟩, fun ⟨_, heq, h⟩ => heq ▸ h⟩

theorem atEach_cons {Q : Phdr → Loading → Prop} {phs : List Phdr} {picks : Nat → Picks} :
    AtEach i base Q picks (ph :: phs) st ↔ Q ph st ∧
      ∀ mid, (loadPhdr i base (picks 0) ph st).value = (mid, .ok ()) →
        AtEach i base Q (fun n => picks (n + 1)) phs mid := by
  constructor
  · intro h
    refine ⟨h [] ph phs st rfl rfl, fun mid hmid front ph' back st' hphs hfront => ?_⟩
    exact h (ph :: front) ph' back st' (by rw [hphs, List.cons_append])
      (loadPhdrs_cons.mpr ⟨mid, hmid, hfront⟩)
  · rintro ⟨hhead, hrest⟩ front ph' back st' hphs hfront
    cases front with
    | nil =>
        obtain ⟨rfl, rfl⟩ := List.cons.inj hphs
        obtain ⟨rfl, -⟩ := Prod.mk.inj hfront
        exact hhead
    | cons head front =>
        obtain ⟨rfl, rfl⟩ := List.cons.inj hphs
        obtain ⟨mid, hmid, hfront⟩ := loadPhdrs_cons.mp hfront
        exact hrest mid hmid front ph' back st' rfl hfront

theorem within_loadPhdrs (hlimit : pageSize ≤ limit) {phs : List Phdr} {picks : Nat → Picks}
    (hfits : ∀ ph ∈ phs, ph.Fits) :
    (loadPhdrs i base picks phs st).Within limit ↔
      AtEach i base (Phdr.Good limit i base) picks phs st := by
  induction phs generalizing picks st with
  | nil =>
      refine iff_of_true (within_pure _) ?_
      intro front _ _ _ hphs
      simp at hphs
  | cons ph phs ih =>
      have hhead := @within_loadPhdr _ i base (picks 0) _ st hlimit
        (hfits ph List.mem_cons_self)
      have hrest := fun st => @ih st (fun n => picks (n + 1))
        fun ph' hph' => hfits ph' (List.mem_cons_of_mem ph hph')
      rw [loadPhdrs, within_bind, hhead, atEach_cons]
      refine and_congr_right fun _ => ?_
      rcases (loadPhdr i base (picks 0) ph st).value with ⟨mid, e | a⟩
      · simp
      · simp [hrest]

/-- The sums behind the loop: where the headers are in memory, and where the program begins. -/
def LastSums (base : Nat) (elf : ElfInfo) (st : Loading) : Prop :=
  (st.phdrAddr = 0 → ∀ first, st.firstLoad = some first → firstOffset elf.phdrs ≤ elf.phoff ∧
    base + (elf.phoff - firstOffset elf.phdrs) + first < 2 ^ 64) ∧ base + elf.entry < 2 ^ 64

theorem within_phdrAddress {elf : ElfInfo} (hphoff : elf.phoff < 2 ^ 64) :
    (phdrAddress base elf st).Within limit ↔
      (st.phdrAddr = 0 → ∀ first, st.firstLoad = some first → firstOffset elf.phdrs ≤ elf.phoff ∧
        base + (elf.phoff - firstOffset elf.phdrs) + first < 2 ^ 64) := by
  rw [phdrAddress, within_ite, iff_true_intro (fun _ => within_pure _), and_true]
  refine forall_congr' fun _ => ?_
  cases st.firstLoad with
  | none => simp
  | some first =>
      simp only [within_bind, within_sub, within_add, Option.some.injEq, forall_eq']
      constructor
      · rintro ⟨hsub, hadd, hlast⟩
        rw [value_sub hphoff hsub] at hadd hlast
        rw [value_add hadd] at hlast
        exact ⟨hsub, hlast⟩
      · rintro ⟨hsub, hlast⟩
        rw [value_sub hphoff hsub, value_add (by omega)]
        exact ⟨hsub, by omega, hlast⟩

/-- The sums of loading are true and what it reserves is within the limit exactly if that is so at
each segment it comes to, and of the last sums. -/
theorem within_loadElf (hlimit : pageSize ≤ limit) {elf : ElfInfo} {picks : Nat → Picks}
    {listed : Nat → Nat} (hphoff : elf.phoff < 2 ^ 64) (hfits : ∀ ph ∈ elf.phdrs, ph.Fits) :
    (loadElf i base picks elf w listed).Within limit ↔
      AtEach i base (Phdr.Good limit i base) picks elf.phdrs { world := w, listed := listed } ∧
        ∀ st, (loadPhdrs i base picks elf.phdrs { world := w, listed := listed }).value =
          (st, .ok ()) → LastSums base elf st := by
  rw [loadElf, within_bind, within_loadPhdrs hlimit hfits]
  refine and_congr_right fun _ => ?_
  rcases (loadPhdrs i base picks elf.phdrs { world := w, listed := listed }).value with ⟨st, e | a⟩
  · simp
  · simp only [within_bind, within_phdrAddress hphoff, within_add, within_pure, and_true,
      Prod.mk.injEq, forall_eq']
    rfl

theorem loadElf_wraps : ¬(loadElf 0 0 (fun _ => {}) ⟨⟨ET_EXEC, 0, 64, 56, 1⟩,
    [⟨PT_LOAD, 6, 0, 2 ^ 64 - 4096, 0, 4096, 4096⟩], none⟩ ⟨{}, .fresh⟩ fun _ => 0).Within
      pageSize := by
  intro hwithin
  have hfits : ∀ ph ∈ [(⟨PT_LOAD, 6, 0, 2 ^ 64 - 4096, 0, 4096, 4096⟩ : Phdr)], ph.Fits := by
    intro ph hph
    rw [List.mem_singleton.mp hph]
    exact ⟨by decide, by decide, by decide, by decide⟩
  have hgood := ((within_loadElf le_rfl (by decide) hfits).mp hwithin).1 [] _ [] _ rfl rfl
  rw [Phdr.Good, if_neg (by decide)] at hgood
  exact absurd ((hgood rfl).1.memEnd rfl) (by decide)

end MindOS.Kernel.Exec
