import MindOS.Kernel.Exec.Sums
import MindOS.Kernel.Mm.OwnReads

/-!
# What a loaded segment shows

Where the sums are true ones, each step for a segment changes what the process reads at the
addresses that it maps or clears, and nowhere else. What a header puts at an address is what its
last step there puts, and after the loop the last header that puts something there decides.
-/

namespace MindOS.Kernel.Exec

open Noted Mm
open Tmpfs (pageSize wrap)

/-- The pages of the file are its bytes, and zeros behind them. -/
def Cached (w : World) (i : Nat) (file : List UInt8) : Prop :=
  ∀ index, ∀ o < pageSize, w.mem.cacheByte i index o = file.getD (index * pageSize + o) 0

namespace Extent

variable (x : Extent) (ph : Phdr) (file : List UInt8) (a : Nat)

/-- In the pages of the file; the offset of a page has 64 bits. -/
def ofFile : Option UInt8 :=
  if 0 < ph.filesz ∧ x.mapStart ≤ a ∧ a < x.fileMapEnd then
    some (file.getD (wrap (x.fileOff + (a - x.mapStart))) 0)
  else none

/-- In the pages behind those of the file. -/
def ofBss : Option UInt8 := if x.fileMapEnd ≤ a ∧ a < x.memMapEnd then some 0 else none

/-- Behind the bytes of the segment in the last page of the file. -/
def ofTail : Option UInt8 :=
  if ph.clears x = true ∧ x.fileEnd ≤ a ∧ a < x.fileMapEnd then some 0 else none

def gives : Option UInt8 := (x.ofTail ph a).or ((x.ofBss a).or (x.ofFile ph file a))

end Extent

/-- What the loop puts at an address for a header. -/
def Phdr.gives (base : Nat) (file : List UInt8) (ph : Phdr) (a : Nat) : Option UInt8 :=
  if ph.loads then (ph.extent base).gives ph file a else none

/-- What the last header that puts something at an address puts there. -/
def lastGiven (base : Nat) (file : List UInt8) (phs : List Phdr) (a : Nat) : Option UInt8 :=
  phs.reverse.findSome? fun ph => ph.gives base file a

theorem lastGiven_cons {base a : Nat} {file : List UInt8} {ph : Phdr} {phs : List Phdr} :
    lastGiven base file (ph :: phs) a =
      (lastGiven base file phs a).or (ph.gives base file a) := by
  rw [lastGiven, List.reverse_cons, List.findSome?_append, List.findSome?_singleton]
  rfl

/-- A step of process `p` from `w`, which puts `shown` in its memory if it succeeds. -/
structure Stepped {ε α : Type} (m : Machine) (p : Nat) (w : World) (shown : Nat → Option UInt8)
    (res : World × Except ε α) : Prop where
  isolated : (m.put p res.1).Isolated
  ok : ∀ w' x, res = (w', .ok x) →
    Owns m p w' ∧ SameFiles w w' ∧ ∀ a, w'.reads a = (shown a).or (w.reads a)

section

variable {m : Machine} {p i base addr len a limit : Nat} {file : List UInt8} {picks : Picks}
  {ph : Phdr} {x : Extent} {w w' : World} {st : Loading} {ε α : Type}
  {shown shown' : Nat → Option UInt8} {res : World × Except ε α}

theorem Cached.mono (h : Cached w i file) (hsame : SameFiles w w') : Cached w' i file :=
  fun index o ho => (hsame i index o).trans (h index o ho)

namespace Stepped

theorem none (h : Owns m p w) {x : α} :
    Stepped (ε := ε) m p w (fun _ => Option.none) (w, .ok x) :=
  ⟨h.isolated, fun w' y heq => by
    obtain ⟨rfl, -⟩ := Prod.mk.inj heq
    exact ⟨h, .refl, fun _ => rfl⟩⟩

theorem error {e : ε} (h : (m.put p w').Isolated) :
    Stepped (α := α) m p w shown (w', .error e) :=
  ⟨h, fun _ _ heq => by cases heq⟩

theorem after (h : Stepped m p w' shown' res) (hsame : SameFiles w w')
    (hreads : ∀ a, w'.reads a = (shown a).or (w.reads a)) :
    Stepped m p w (fun a => (shown' a).or (shown a)) res :=
  ⟨h.isolated, fun w'' x heq => by
    obtain ⟨hown, hsame', hreads'⟩ := h.ok w'' x heq
    refine ⟨hown, hsame.trans hsame', fun a => ?_⟩
    rw [hreads', hreads, Option.or_assoc]⟩

end Stepped

/-! ### The steps -/

theorem backingByte_file (hc : Cached w i file) {start off : Nat} (hstart : pageSize ∣ start)
    (hoff : pageSize ∣ off) (hle : start ≤ a) :
    w.mem.backingByte ((Backing.file i off).forward (a / pageSize * pageSize - start))
      (a % pageSize) = file.getD (wrap (off + (a - start))) 0 := by
  refine (hc _ _ (Nat.mod_lt _ (by decide))).trans (congrArg (file.getD · 0) ?_)
  rw [wrap_eq, wrap_eq]
  rw [pageSize_eq] at *
  omega

theorem mapFile_stepped (h : Owns m p w) (hc : Cached w i file) (hx : x.Of base ph)
    (ha : ph.Aligned base) :
    Stepped m p w (x.ofFile ph file) (mapFile i ph x w).value := by
  obtain ⟨hstart, hfile, -, -, hlt, -, -⟩ := hx.pages
  have hfits := hx.fileFits
  have hoff : pageSize ∣ x.fileOff := by
    have hsum := hx.fileOff
    rw [Phdr.Aligned] at ha
    rw [pageSize_eq] at *
    omega
  rw [mapFile]
  split
  · next hpos =>
      have hend := hx.lt_fileMapEnd hpos
      have hlen : pageSize ∣ x.fileMapEnd - x.mapStart := Nat.dvd_sub hfile hstart
      have hsum : x.mapStart + (x.fileMapEnd - x.mapStart) = x.fileMapEnd := by omega
      rw [value_bind, value_sub (by omega) hend.le, value_pure]
      refine ⟨h.mmap_isolated hlen (by omega) rfl, fun w' y hok => ?_⟩
      obtain ⟨hown, hsame, hreads⟩ := h.mmap_ok hstart hlen (by omega) (by omega) rfl hok
      refine ⟨hown, hsame, fun a => ?_⟩
      rw [hreads, hsum, Extent.ofFile]
      simp only [hpos, true_and]
      split
      · next ha => exact congrArg some (backingByte_file hc hstart hoff ha.1)
      · rfl
  · next hzero =>
      have hnone : x.ofFile ph file = fun _ => Option.none := funext fun a =>
        if_neg fun hand => hzero hand.1
      rw [hnone]
      exact .none h

theorem mapBss_stepped (h : Owns m p w) (hx : x.Of base ph) :
    Stepped m p w x.ofBss (mapBss ph x w).value := by
  obtain ⟨-, hfile, hmem, -, -, -, hlt⟩ := hx.pages
  have hfits := hx.memFits
  rw [mapBss]
  split
  · next hend =>
      have hlen : pageSize ∣ x.memMapEnd - x.fileMapEnd := Nat.dvd_sub hmem hfile
      have hsum : x.fileMapEnd + (x.memMapEnd - x.fileMapEnd) = x.memMapEnd := by omega
      rw [value_bind, value_sub (by omega) hend.le, value_pure]
      refine ⟨h.mmap_isolated hlen (by omega) rfl, fun w' y hok => ?_⟩
      obtain ⟨hown, hsame, hreads⟩ := h.mmap_ok hfile hlen (by omega) (by omega) rfl hok
      refine ⟨hown, hsame, fun a => ?_⟩
      rw [hreads, hsum, Extent.ofBss]
      split <;> rfl
  · next hend =>
      have hnone : x.ofBss = fun _ => Option.none := funext fun a =>
        if_neg fun hand => hend (hand.1.trans_lt hand.2)
      rw [hnone]
      exact .none h

theorem mapSegment_stepped (h : Owns m p w) (hc : Cached w i file) (hx : x.Of base ph)
    (ha : ph.Aligned base) :
    Stepped m p w (fun a => (x.ofBss a).or (x.ofFile ph file a)) (mapSegment i ph x w).value := by
  have hfile := mapFile_stepped h hc hx ha
  rw [mapSegment, value_bind]
  rcases hval : (mapFile i ph x w).value with ⟨w', e | y⟩
  · rw [hval] at hfile
    exact .error hfile.isolated
  · obtain ⟨hown, hsame, hreads⟩ := hfile.ok w' y hval
    exact (mapBss_stepped hown hx).after hsame hreads

theorem copyZeros_stepped (h : Owns m p w) (hpage : addr % pageSize + len ≤ pageSize) :
    Stepped m p w (fun a => if addr ≤ a ∧ a < addr + len then some 0 else Option.none)
      (copyZeros w addr len picks) := by
  have hva : pageSize ∣ addr / pageSize * pageSize := Nat.dvd_mul_left _ _
  dsimp only [copyZeros]
  rcases hval : w.populateRange (addr / pageSize * pageSize) true picks with ⟨w', e | y⟩
  · have hquiet := @Owns.populateRange_quiet _ _ _ _ picks h hva
    rw [hval] at hquiet
    exact .error hquiet.isolated
  · obtain ⟨hown, hsame, hreads, e, he, hwritable⟩ := h.populateRange_ok hva hval
    obtain ⟨hown', hsame', hreads'⟩ := @Owns.store_ok _ _ _ _ _ (fun o =>
      if addr % pageSize ≤ o ∧ o < addr % pageSize + len then 0
      else w'.load (addr / pageSize * pageSize) o) hown he hwritable
    refine ⟨hown'.isolated, fun w'' z heq => ?_⟩
    obtain ⟨rfl, -⟩ := Prod.mk.inj heq
    refine ⟨hown', hsame.trans hsame', fun a => ?_⟩
    rw [hreads', ← hreads]
    rw [Nat.mul_div_cancel _ (by decide)] at he ⊢
    by_cases hn : a / pageSize = addr / pageSize
    · have hload : w'.load (addr / pageSize * pageSize) = w'.mem.data e.frame := by
        rw [World.load, Nat.mul_div_cancel _ (by decide), he]
        rfl
      rw [← hn] at he
      have hread := hown.reads_of_pte he
      have hiff : addr % pageSize ≤ a % pageSize ∧ a % pageSize < addr % pageSize + len ↔
          addr ≤ a ∧ a < addr + len := by
        clear hval he hload hread hreads'
        rw [pageSize_eq] at *
        omega
      simp only [if_pos hn, hread, hload, hiff]
      split <;> rfl
    · have hout : ¬(addr ≤ a ∧ a < addr + len) := by
        clear hval he hreads'
        rw [pageSize_eq] at *
        omega
      rw [if_neg hn, if_neg hout]
      rfl

/-- The world of the loop. -/
def worldOf (res : Loading × Except ε α) : World × Except ε α := (res.1.world, res.2)

theorem clearTail_stepped (h : Owns m p st.world) (hx : x.Of base ph) :
    Stepped m p st.world (x.ofTail ph) (worldOf (clearTail ph x picks st).value) := by
  obtain ⟨-, -, -, hle, hlt, -, -⟩ := hx.pages
  have hfits := hx.fileFits
  have hround := hx.fileMapEnd
  rw [clearTail]
  split
  · next hclears =>
      have hpage : x.fileEnd % pageSize + (x.fileMapEnd - x.fileEnd) ≤ pageSize := by
        rw [hround, roundUp_eq]
        rw [pageSize_eq]
        omega
      have hcopied := @copyZeros_stepped _ _ _ _ picks _ h hpage
      have hsum : x.fileEnd + (x.fileMapEnd - x.fileEnd) = x.fileMapEnd := by omega
      have htail : x.ofTail ph = fun a => if x.fileEnd ≤ a ∧ a < x.fileEnd +
          (x.fileMapEnd - x.fileEnd) then some 0 else Option.none := by
        funext a
        rw [Extent.ofTail, hsum]
        simp only [hclears, true_and]
      rw [htail]
      simp only [value_bind, value_sub (by omega : x.fileMapEnd < 2 ^ 64) hle]
      generalize copyZeros st.world x.fileEnd (x.fileMapEnd - x.fileEnd) picks = res at hcopied ⊢
      exact hcopied
  · next hclears =>
      have hnone : x.ofTail ph = fun _ => Option.none := funext fun a =>
        if_neg fun hand => hclears hand.1
      rw [hnone]
      exact .none h

theorem loadExtent_stepped (h : Owns m p st.world) (hc : Cached st.world i file)
    (hx : x.Of base ph) (ha : ph.Aligned base) :
    Stepped m p st.world (x.gives ph file) (worldOf (loadExtent i picks ph x st).value) := by
  have hmapped := mapSegment_stepped h hc hx ha
  rw [loadExtent, value_bind]
  rcases hval : (mapSegment i ph x st.world).value with ⟨w, e | y⟩
  · rw [hval] at hmapped
    exact .error hmapped.isolated
  · obtain ⟨hown, hsame, hreads⟩ := hmapped.ok w y hval
    have htail := (@clearTail_stepped _ _ _ picks _ _ { st with world := w } hown
      hx).after hsame hreads
    simp only [value_bind]
    rcases hval' : (clearTail ph x picks { st with world := w }).value with ⟨st', e | z⟩
    · rw [hval'] at htail
      exact .error htail.isolated
    · rw [hval'] at htail
      refine ⟨htail.isolated, fun w' u heq => ?_⟩
      obtain ⟨rfl, -⟩ := Prod.mk.inj heq
      exact htail.ok st'.world z rfl

theorem loadPhdr_stepped (h : Owns m p st.world) (hc : Cached st.world i file) (hfits : ph.Fits)
    (hgood : ph.Good limit i base st) :
    Stepped m p st.world (ph.gives base file) (worldOf (loadPhdr i base picks ph st).value) := by
  rw [Phdr.Good] at hgood
  have hnone : ph.loads = false → ph.gives base file = fun _ => Option.none := fun hloads =>
    funext fun a => by
      rw [Phdr.gives, hloads]
      rfl
  rw [loadPhdr]
  split
  · next hphdr =>
      have hloads : ph.loads = false := by
        rw [Phdr.loads, hphdr]
        rfl
      rw [hnone hloads]
      exact .none h
  next hphdr =>
  rw [if_neg hphdr] at hgood
  split
  · next hloads =>
      obtain ⟨hsound, -⟩ := hgood hloads
      have hgives : ph.gives base file = (ph.extent base).gives ph file := funext fun a =>
        if_pos hloads
      rw [hgives, loadSegment, value_bind, value_extent hfits hsound]
      by_cases ha : ph.Aligned base
      · rw [if_pos ha]
        exact @loadExtent_stepped _ _ _ _ _ _ _ _
          { st with firstLoad := st.firstLoad.or (some ph.vaddr) } h hc (extentOf hsound ha) ha
      · rw [if_neg ha]
        exact .error h.isolated
  · next hloads =>
      rw [hnone (Bool.eq_false_iff.mpr hloads)]
      exact .none h

theorem loadPhdrs_stepped {phs : List Phdr} {picks : Nat → Picks} (h : Owns m p st.world)
    (hc : Cached st.world i file) (hfits : ∀ ph ∈ phs, ph.Fits)
    (hgood : AtEach i base (Phdr.Good limit i base) picks phs st) :
    Stepped m p st.world (lastGiven base file phs)
      (worldOf (loadPhdrs i base picks phs st).value) := by
  induction phs generalizing picks st with
  | nil => exact .none h
  | cons ph phs ih =>
      obtain ⟨hhead, hrest⟩ := atEach_cons.mp hgood
      have hstep := @loadPhdr_stepped _ _ _ _ _ _ (picks 0) _ _ h hc
        (hfits ph List.mem_cons_self) hhead
      have hlast : lastGiven base file (ph :: phs) = fun a =>
          (lastGiven base file phs a).or (ph.gives base file a) := funext fun _ => lastGiven_cons
      rw [hlast, loadPhdrs, value_bind]
      rcases hval : (loadPhdr i base (picks 0) ph st).value with ⟨mid, e | y⟩
      · rw [hval] at hstep
        exact .error hstep.isolated
      · rw [hval] at hstep
        obtain ⟨hown, hsame, hreads⟩ := hstep.ok mid.world y rfl
        exact (ih hown (hc.mono hsame) (fun ph' hph' => hfits ph' (List.mem_cons_of_mem ph hph'))
          (hrest mid hval)).after hsame hreads

/-! ### The image -/

variable {base : Nat} {elf : ElfInfo} {listed : Nat → Nat} {got : Loaded} {phs : Nat → Picks}

theorem loadElf_stepped {picks : Nat → Picks} (hlimit : pageSize ≤ limit) (h : Owns m p w)
    (hc : Cached w i file) (hparse : (parseElf file).value = .ok elf)
    (hwithin : (loadElf i base picks elf w listed).Within limit) :
    Stepped m p w (lastGiven base file elf.phdrs) (loadElf i base picks elf w listed).value := by
  obtain ⟨-, -, hfits⟩ := parseElf_phdrs hparse
  rw [loadElf, within_bind, within_loadPhdrs hlimit hfits] at hwithin
  have hloop := @loadPhdrs_stepped _ _ _ _ _ _ { world := w, listed } _ _ h hc hfits hwithin.1
  rw [loadElf, value_bind]
  rcases hval : (loadPhdrs i base picks elf.phdrs { world := w, listed }).value with ⟨st, e | y⟩
  · rw [hval] at hloop
    exact .error hloop.isolated
  · rw [hval] at hloop
    refine ⟨hloop.isolated, fun w' got heq => ?_⟩
    obtain ⟨rfl, -⟩ := Prod.mk.inj heq
    exact hloop.ok st.world y rfl

/-- Whatever the file, the processes stay apart and what is mapped is in the user half. -/
theorem loadElf_apart {picks : Nat → Picks} (hlimit : pageSize ≤ limit) (h : Owns m p w)
    (hc : Cached w i file) (hparse : (parseElf file).value = .ok elf)
    (hwithin : (loadElf i base picks elf w listed).Within limit) :
    (m.put p (loadElf i base picks elf w listed).value.1).Isolated ∧
      ∀ v ∈ (loadElf i base picks elf w listed).value.1.space.vmas, v.stop ≤ USER_TOP := by
  have hisolated := (loadElf_stepped hlimit h hc hparse hwithin).isolated
  exact ⟨hisolated, (hisolated.spaces p _ Machine.put_spaces_self).user⟩

/-- The pages of the segment, if it has any, are elsewhere. -/
def Phdr.Spares (base a : Nat) (ph : Phdr) : Prop :=
  ph.loads = true → a < (base + ph.vaddr) / pageSize * pageSize ∨
    roundUp (base + ph.vaddr + max ph.filesz ph.memsz) ≤ a

theorem extent_bounds (hsound : ph.Sound base) (x : Extent) (hx : x = ph.extent base) :
    x.mapStart = (base + ph.vaddr) / pageSize * pageSize ∧
      x.fileOff + (base + ph.vaddr - x.mapStart) = ph.offset ∧
      x.fileEnd = base + ph.vaddr + ph.filesz ∧ x.fileMapEnd = roundUp x.fileEnd ∧
      x.memMapEnd = roundUp (base + ph.vaddr + ph.memsz) := by
  have hoff := hsound.offset
  subst hx
  simp only [Phdr.extent, and_true]
  rw [pageSize_eq] at *
  omega

theorem gives_of_spares (hsound : ph.loads = true → ph.Sound base) (h : ph.Spares base a) :
    ph.gives base file a = none := by
  rw [Phdr.gives]
  split
  · next hloads =>
      have hout := h hloads
      generalize hx : ph.extent base = x
      obtain ⟨hstart, -, hend, hfile, hmem⟩ := extent_bounds (hsound hloads) x hx.symm
      rw [Extent.gives, Extent.ofTail, Extent.ofBss, Extent.ofFile]
      rw [roundUp_eq] at *
      rw [pageSize_eq] at *
      rw [if_neg fun hand => ?_, if_neg fun hand => ?_, if_neg fun hand => ?_]
      · rfl
      all_goals omega
  · rfl

theorem gives_inside {k : Nat} (hloads : ph.loads = true) (hsound : ph.Sound base)
    (hk : k < ph.memsz) (hoffset : ph.offset + ph.filesz ≤ 2 ^ 64)
    (hzero : ph.filesz ≤ k → ph.prot.write = true ∨
      roundUp (base + ph.vaddr + ph.filesz) ≤ base + ph.vaddr + k) :
    ph.gives base file (base + ph.vaddr + k) =
      some (if k < ph.filesz then file.getD (ph.offset + k) 0 else 0) := by
  rw [Phdr.gives, if_pos hloads]
  generalize hx : ph.extent base = x
  obtain ⟨hstart, hoff, hend, hfile, hmem⟩ := extent_bounds hsound x hx.symm
  rw [Extent.gives, Extent.ofTail, Extent.ofBss, Extent.ofFile]
  rw [roundUp_eq] at *
  rw [pageSize_eq] at *
  by_cases hlt : k < ph.filesz
  · have hbyte : wrap (x.fileOff + (base + ph.vaddr + k - x.mapStart)) = ph.offset + k := by
      rw [wrap_eq]
      omega
    have hin : 0 < ph.filesz ∧ x.mapStart ≤ base + ph.vaddr + k ∧
        base + ph.vaddr + k < x.fileMapEnd := by omega
    rw [if_neg fun hand => ?_, if_neg fun hand => ?_, if_pos hin, hbyte, if_pos hlt]
    · rfl
    all_goals omega
  · rw [if_neg hlt]
    by_cases hbss : x.fileMapEnd ≤ base + ph.vaddr + k
    · have hnone : ¬(ph.clears x = true ∧ x.fileEnd ≤ base + ph.vaddr + k ∧
          base + ph.vaddr + k < x.fileMapEnd) := by omega
      rw [if_neg hnone, if_pos ⟨hbss, by omega⟩]
      rfl
    · have hclears : ph.clears x = true := by
        have hwrite := (hzero (Nat.le_of_not_lt hlt)).resolve_right (by omega)
        rw [Phdr.clears, hwrite, Bool.and_true, Bool.and_eq_true, decide_eq_true_eq, bne_iff_ne,
          pageSize_eq]
        omega
      rw [if_pos ⟨hclears, by omega, by omega⟩]
      rfl

theorem sound_of_ok {phs : List Phdr} {picks : Nat → Picks} {st' : Loading}
    (hgood : AtEach i base (Phdr.Good limit i base) picks phs st)
    (hok : (loadPhdrs i base picks phs st).value = (st', .ok ())) :
    ∀ ph ∈ phs, ph.loads = true → ph.Sound base := by
  induction phs generalizing picks st with
  | nil => exact fun _ hph => absurd hph List.not_mem_nil
  | cons head phs ih =>
      obtain ⟨hhead, hrest⟩ := atEach_cons.mp hgood
      obtain ⟨mid, hmid, hok⟩ := loadPhdrs_cons.mp hok
      intro ph hph hloads
      obtain rfl | hph := List.mem_cons.mp hph
      · have htype : ph.type ≠ PT_PHDR := by
          rintro htype
          rw [Phdr.loads, htype] at hloads
          cases hloads
        rw [Phdr.Good, if_neg htype] at hhead
        exact (hhead hloads).1
      · exact ih (hrest mid hmid) hok ph hph hloads

/-- A segment that no later one overwrites is the bytes of the file, with zeros behind them. -/
theorem segment_loaded {picks : Nat → Picks} {front back : List Phdr} {k : Nat}
    (hlimit : pageSize ≤ limit) (h : Owns m p w) (hc : Cached w i file)
    (hparse : (parseElf file).value = .ok elf)
    (hwithin : (loadElf i base picks elf w listed).Within limit)
    (hok : (loadElf i base picks elf w listed).value = (w', .ok got))
    (hphdrs : elf.phdrs = front ++ ph :: back) (hloads : ph.loads = true)
    (hback : ∀ later ∈ back, later.Spares base (base + ph.vaddr + k))
    (hoffset : ph.offset + ph.filesz ≤ 2 ^ 64) (hk : k < ph.memsz)
    (hzero : ph.filesz ≤ k → ph.prot.write = true ∨
      roundUp (base + ph.vaddr + ph.filesz) ≤ base + ph.vaddr + k) :
    w'.reads (base + ph.vaddr + k) =
      some (if k < ph.filesz then file.getD (ph.offset + k) 0 else 0) := by
  have hloaded := ((loadElf_stepped hlimit h hc hparse hwithin).ok w' got hok).2.2
  obtain ⟨-, -, hfits⟩ := parseElf_phdrs hparse
  have hsound : ∀ ph ∈ elf.phdrs, ph.loads = true → ph.Sound base := by
    rw [loadElf, within_bind, within_loadPhdrs hlimit hfits] at hwithin
    rw [loadElf, value_bind] at hok
    rcases hval : (loadPhdrs i base picks elf.phdrs { world := w, listed }).value with ⟨st, e | y⟩
    · rw [hval] at hok
      cases hok
    · exact sound_of_ok hwithin.1 hval
  rw [hphdrs] at hsound
  have hnone :
      back.reverse.findSome? (fun ph' => ph'.gives base file (base + ph.vaddr + k)) = none :=
    List.findSome?_eq_none_iff.mpr fun later hlater => by
      have hin := List.mem_reverse.mp hlater
      exact gives_of_spares (hsound later (by simp [hin])) (hback later hin)
  rw [hloaded, lastGiven, hphdrs, List.reverse_append, List.reverse_cons, List.append_assoc,
    List.findSome?_append, hnone, Option.none_or, List.singleton_append, List.findSome?_cons,
    gives_inside hloads (hsound ph (by simp) hloads) hk hoffset hzero]
  rfl

end

/-! ### A small executable -/

def smallPhdr : Phdr := ⟨PT_LOAD, 6, 0, 0x10000, 120, 200, 4096⟩

/-- One segment, which is the file and zeros behind it. -/
def smallFile : List UInt8 := oneHeader smallPhdr

def smallElf : ElfInfo := ⟨⟨ET_EXEC, 0x10000, 64, 56, 1⟩, [smallPhdr], none⟩

/-- Two processes that have mapped nothing, and the executable. -/
def smallMachine : Machine :=
  ⟨Act.twoProcesses.spaces, { Act.twoProcesses.mem with data := fun _ o => smallFile.getD o 0 }⟩

theorem small_parse : (parseElf smallFile).value = .ok smallElf := by rfl

theorem small_owns : Owns smallMachine 0 ⟨{}, smallMachine.mem⟩ := by
  have hfresh := Act.twoProcesses_fresh
  refine ⟨?_, fun _ _ hr => (nomatch hr), fun f => ?_⟩
  · rw [@Machine.put_self smallMachine 0 {} rfl]
    exact Machine.Fresh.isolated ⟨hfresh.spaces, hfresh.device, hfresh.used, hfresh.counted,
      hfresh.alone, hfresh.initrd⟩
  · change (if f = 5 then 1 else 0) + 1 < 2 ^ 32
    split <;> decide

theorem small_cached : Cached ⟨{}, smallMachine.mem⟩ 0 smallFile := by
  intro index o ho
  change (((if index = 0 then some 5 else none) : Option Nat).map
    fun _ => smallFile.getD o 0).getD 0 = _
  split
  · next h0 =>
      subst h0
      rw [Nat.zero_mul, Nat.zero_add]
      rfl
  · next hne =>
      refine (List.getD_eq_default _ _ ?_).symm
      have hlen : smallFile.length = 120 := by rfl
      rw [hlen]
      rw [pageSize_eq]
      omega

def smallLoad : Noted (World × Except LoadErrno Loaded) :=
  loadElf 0 0 (fun _ => ⟨none, some 6⟩) smallElf ⟨{}, smallMachine.mem⟩ fun _ => 1

theorem small_within : smallLoad.Within pageSize := by
  have hnotes : smallLoad.notes = [.reserved 3976] := by rfl
  intro note hnote
  rw [hnotes] at hnote
  obtain rfl := List.mem_singleton.mp hnote
  exact show 3976 ≤ pageSize by decide

theorem segment_loaded_zeros : ∃ w' got, smallLoad.value = (w', .ok got) ∧
    w'.reads (0 + smallPhdr.vaddr + 150) = some (if 150 < 120 then smallFile.getD 150 0 else 0) :=
  ⟨_, _, rfl, segment_loaded le_rfl small_owns small_cached small_parse small_within rfl
    (List.nil_append _).symm rfl (fun _ hnone => absurd hnone List.not_mem_nil) (by decide)
    (by decide) fun _ => .inl rfl⟩

theorem loadElf_apart_small : (smallMachine.put 0 smallLoad.value.1).Isolated ∧
    ∀ v ∈ smallLoad.value.1.space.vmas, v.stop ≤ USER_TOP :=
  loadElf_apart le_rfl small_owns small_cached small_parse small_within

end MindOS.Kernel.Exec
