import MindOS.Kernel.Mm.Isolation

/-!
# The memory of a process

## What a process reads of its own memory

A private mapping at a fixed place shows its backing there, and elsewhere what was there. Making
a page writable for the kernel changes nothing that is read, and a store to it changes that page
alone.
-/

namespace MindOS.Kernel.Mm

open AddressSpace
open Tmpfs (Page pageSize wrap)

namespace Memory

variable {m m' m'' : Memory} {f g i index o : Nat} {pick : Option Nat}

/-! ### Frames in use keep what they hold -/

/-- Every frame has room for one more reference. -/
def Roomed (m : Memory) : Prop := ∀ f, m.count f + 1 < 2 ^ 32

/-- The frames and the files are the same, with no more references. -/
structure Lowered (m m' : Memory) : Prop where
  data : m'.data = m.data
  inodes : m'.inodes = m.inodes
  count : ∀ f, m'.count f ≤ m.count f

theorem Lowered.refl : Lowered m m := ⟨rfl, rfl, fun _ => le_rfl⟩

theorem Lowered.trans (h : Lowered m m') (h' : Lowered m' m'') : Lowered m m'' :=
  ⟨h'.data.trans h.data, h'.inodes.trans h.inodes, fun f => (h'.count f).trans (h.count f)⟩

theorem count_refDec_self : (m.refDec f).count f = m.count f - 1 := by
  rw [refDec]
  split
  · next hzero => rw [hzero]
  · split
    · next hone => exact (Function.update_self f _ _).trans (by rw [hone])
    · exact Function.update_self f _ _

theorem count_refDec_of_ne (h : g ≠ f) : (m.refDec f).count g = m.count g := by
  rw [refDec]
  repeat' split
  all_goals first | rfl | exact Function.update_of_ne h _ _

theorem count_refDec_le : (m.refDec f).count g ≤ m.count g := by
  by_cases hg : g = f
  · rw [hg, count_refDec_self]
    exact Nat.sub_le _ _
  · exact (count_refDec_of_ne hg).le

theorem lowered_refDec : Lowered m (m.refDec f) :=
  ⟨refDec_data, refDec_inodes, fun _ => count_refDec_le⟩

theorem Lowered.roomed (h : Lowered m m') (hm : m.Roomed) : m'.Roomed := fun f =>
  (Nat.succ_le_succ (h.count f)).trans_lt (hm f)

theorem Lowered.cacheByte (h : Lowered m m') : m'.cacheByte i index o = m.cacheByte i index o := by
  rw [Memory.cacheByte, Memory.cacheByte, h.inodes, h.data]

theorem Lowered.backingByte (h : Lowered m m') (b : Backing) :
    m'.backingByte b o = m.backingByte b o := by
  cases b with
  | anon => rfl
  | file i offset => exact h.cacheByte
  | phys base wc => exact congrFun (congrFun h.data _) _

theorem allocZeroedRef_fresh (h : m.allocZeroedRef pick = some (f, m')) :
    m.used f = false ∧ m' = { m with
      used := Function.update m.used f true, count := Function.update m.count f 1,
      data := Function.update m.data f .zeroed } := by
  obtain ⟨⟨g, mem⟩, halloc, heq⟩ := Option.map_eq_some_iff.mp h
  obtain ⟨hfree, rfl⟩ := allocFrameRef_eq_some halloc
  obtain ⟨rfl, rfl⟩ := Prod.mk.inj heq
  exact ⟨hfree, rfl⟩

theorem zeroed_byte : Function.update m.data f Page.zeroed f o = 0 := by
  rw [Function.update_self]
  rfl

theorem ne_of_used (hf : m.used f = false) (hg : m.used g = true) : g ≠ f := fun heq => by
  rw [heq, hf] at hg
  cases hg

/-- The frame that the file gives for a page shows what the file shows. -/
theorem getPage_data (h : m.getPage i index pick = .ok (f, m')) :
    m'.data f o = m.cacheByte i index o ∧ ∀ g, m.used g = true →
      m'.data g = m.data g ∧ m'.used g = true := by
  rw [getPage] at h
  rw [Memory.cacheByte]
  cases hi : m.inodes i with
  | other =>
      rw [hi] at h
      cases h
  | initrd first pages =>
      rw [hi] at h
      dsimp only at h ⊢
      split at h
      · next hle =>
          split at h
          · cases h
          · next got hzeroed =>
              obtain rfl := Except.ok.inj h
              obtain ⟨hfree, rfl⟩ := allocZeroedRef_fresh hzeroed
              rw [if_neg (Nat.not_lt.mpr hle)]
              refine ⟨zeroed_byte, fun g hg => ?_⟩
              have hne := ne_of_used hfree hg
              exact ⟨Function.update_of_ne hne _ _, (Function.update_of_ne hne _ _).trans hg⟩
      · next hle =>
          obtain ⟨rfl, rfl⟩ := Prod.mk.inj (Except.ok.inj h)
          rw [if_pos (Nat.lt_of_not_le hle), refInc_data, refInc_used]
          exact ⟨rfl, fun g hg => ⟨rfl, hg⟩⟩
  | tmpfs pages =>
      rw [hi] at h
      dsimp only at h ⊢
      cases hpage : pages index with
      | some g =>
          rw [hpage] at h
          obtain ⟨rfl, rfl⟩ := Prod.mk.inj (Except.ok.inj h)
          rw [refInc_data, refInc_used]
          exact ⟨rfl, fun g hg => ⟨rfl, hg⟩⟩
      | none =>
          rw [hpage] at h
          dsimp only at h
          split at h
          · cases h
          · next got hzeroed =>
              obtain ⟨f', mem⟩ := got
              obtain ⟨rfl, rfl⟩ := Prod.mk.inj (Except.ok.inj h)
              obtain ⟨hfree, rfl⟩ := allocZeroedRef_fresh hzeroed
              dsimp only
              rw [refInc_data, refInc_used]
              refine ⟨zeroed_byte, fun g hg => ?_⟩
              have hne := ne_of_used hfree hg
              exact ⟨Function.update_of_ne hne _ _, (Function.update_of_ne hne _ _).trans hg⟩

/-- No frame has more references than before, but for a new one. -/
def NoneAdded (m m' : Memory) : Prop := ∀ f, m'.count f ≤ max (m.count f) 1

theorem NoneAdded.roomed (h : NoneAdded m m') (hm : m.Roomed) : m'.Roomed := fun f => by
  have := h f
  have := hm f
  omega

theorem count_refInc_le (hlt : m.count f + 1 < 2 ^ 32) : (m.refInc f).count f ≤ m.count f + 1 := by
  by_cases hzero : m.count f = 0
  · rw [refInc_of_reserved hzero]
    exact Nat.le_succ _
  · rw [refInc_of_ne hzero hlt]
    exact (Function.update_self f _ _).le

theorem count_refInc_of_ne (h : g ≠ f) : (m.refInc f).count g = m.count g := by
  rw [refInc]
  split
  · rfl
  · exact Function.update_of_ne h _ _

/-- The reference that the file gave for a page is the only one that is added. -/
theorem getPage_count (h : m.getPage i index pick = .ok (f, m')) (hm : m.Roomed) :
    (∀ g, g ≠ f → m'.count g = m.count g) ∧ m'.count f ≤ max (m.count f + 1) 2 := by
  have hinc : ∀ f, (∀ g, g ≠ f → (m.refInc f).count g = m.count g) ∧
      (m.refInc f).count f ≤ max (m.count f + 1) 2 := fun f =>
    ⟨fun _ => count_refInc_of_ne, (count_refInc_le (hm f)).trans (le_max_left _ _)⟩
  rw [getPage] at h
  split at h
  · cases h
  · split at h
    · split at h
      · cases h
      · next got hzeroed =>
          obtain rfl := Except.ok.inj h
          obtain ⟨-, rfl⟩ := allocZeroedRef_fresh hzeroed
          refine ⟨fun g hg => Function.update_of_ne hg _ _, ?_⟩
          change Function.update m.count f 1 f ≤ _
          rw [Function.update_self]
          omega
    · obtain ⟨rfl, rfl⟩ := Prod.mk.inj (Except.ok.inj h)
      exact hinc _
  · next pages hi =>
      split at h
      · obtain ⟨rfl, rfl⟩ := Prod.mk.inj (Except.ok.inj h)
        exact hinc _
      · split at h
        · cases h
        · next got hzeroed =>
            obtain ⟨f', mem⟩ := got
            obtain ⟨rfl, rfl⟩ := Prod.mk.inj (Except.ok.inj h)
            obtain ⟨-, rfl⟩ := allocZeroedRef_fresh hzeroed
            have hone : Function.update m.count f' 1 f' = 1 := Function.update_self _ _ _
            refine ⟨fun g hg => ?_, ?_⟩
            · exact (count_refInc_of_ne hg).trans (Function.update_of_ne hg _ _)
            · refine (count_refInc_le ?_).trans ?_
              · change Function.update m.count f' 1 f' + 1 < 2 ^ 32
                rw [hone]
                decide
              · change Function.update m.count f' 1 f' + 1 ≤ _
                rw [hone]
                exact le_max_right _ _

end Memory

/-! ### Mapping at a fixed place -/

namespace World

variable {w w' : World} {p va addr len : Nat} {prot : Prot} {backing : Backing}

/-- What page `n`, which begins in that region, holds or would get. -/
def shows (w : World) (r : Region) (n : Nat) : Page :=
  match w.space.ptes n with
  | some e => w.mem.data e.frame
  | none => w.mem.backingByte r.backing

/-- What a process reads at an address, if anything is there. -/
def reads (w : World) (va : Nat) : Option UInt8 :=
  (w.space.regionAt (va / pageSize * pageSize)).map fun r =>
    w.shows r (va / pageSize) (va % pageSize)

open Memory

theorem unmapPages_lowered (lo hi : Nat) : Lowered w.mem (w.unmapPages lo hi).mem := by
  rw [unmapPages]
  induction pages lo hi generalizing w with
  | nil => exact .refl
  | cons n l ih =>
      refine Lowered.trans ?_ ih
      rw [unmapPage]
      split
      · exact .refl
      · exact lowered_refDec

theorem unmapLocked_lowered : Lowered w.mem (w.unmapLocked addr len).mem := by
  rw [unmapLocked]
  induction w.space.affected addr (wrap (addr + len)) generalizing w with
  | nil => exact .refl
  | cons k ks ih =>
      refine Lowered.trans ?_ ih
      rw [cut]
      split
      · exact .refl
      · exact unmapPages_lowered (w := { w with space := w.space.trim _ addr _ }) _ _

/-- A mapping at a fixed place is made where it may be, and otherwise nothing is done. -/
theorem mmap_fixed_private (haddr : pageSize ∣ addr) (hlen : pageSize ∣ len) (hpos : 0 < len)
    (hsum : addr + len < 2 ^ 64) :
    w.mmap addr len prot ⟨true, false, false⟩ backing =
      if USER_TOP < addr + len then (w, .error .EINVAL)
      else ((w.unmapLocked addr len).mapAt addr len prot false backing, .ok addr) := by
  have hal : aligned addr = true := beq_iff_eq.mpr (Nat.mod_eq_zero_of_dvd haddr)
  have hup := alignUp_of_dvd hlen (by omega : len < 2 ^ 64)
  have hwrap := wrap_of_lt hsum
  rw [mmap, if_neg (by omega)]
  simp only [if_true, hup]
  rw [mmapFixed, hal, hwrap]
  by_cases htop : USER_TOP < addr + len <;> simp [htop]

/-- What is left of a process that maps a range anew. -/
structure Remapped (w : World) (addr len : Nat) (prot : Prot) (backing : Backing) (w' : World) :
    Prop where
  region : ∀ va, w'.space.regionAt va = if addr ≤ va ∧ va < addr + len then
    some ⟨prot, false, backing.forward (va - addr)⟩ else w.space.regionAt va
  ptes : ∀ va, w'.space.ptes (va / pageSize) = if addr ≤ va ∧ va < addr + len then none
    else w.space.ptes (va / pageSize)
  mem : Lowered w.mem w'.mem

theorem mapAt_remapped {m : Machine} (h : (m.put p w).Isolated) (haddr : pageSize ∣ addr)
    (hlen : pageSize ∣ len) (hpos : 0 < len) (htop : addr + len ≤ USER_TOP) :
    Remapped w addr len prot backing
      ((w.unmapLocked addr len).mapAt addr len prot false backing) := by
  have htidy := h.tidy Machine.put_spaces_self
  have hwrap : wrap (addr + len) = addr + len := wrap_of_lt (by rw [USER_TOP] at htop; omega)
  have hspec := unmapLocked_spec len htidy (by omega) haddr (by
    rw [hwrap]
    exact Nat.dvd_add haddr hlen)
  rw [hwrap] at hspec
  obtain ⟨hchanged, hmisses, hgone⟩ := hspec
  have hmapped := mapAt_changed prot ⟨true, false, false⟩ backing hchanged.tidy hpos haddr hlen htop
    hmisses
  refine ⟨fun va => ?_, fun va => ?_, unmapLocked_lowered⟩
  · split
    · next hva =>
        exact mapAt_regionAt prot ⟨true, false, false⟩ backing hchanged.tidy hpos haddr hlen htop
          hmisses hva
    · next hva => exact (hmapped.region va hva).trans (hchanged.region va hva)
  · change (w.unmapLocked addr len).space.ptes (va / pageSize) = _
    split
    · next hva =>
        have hpage : va / pageSize * pageSize / pageSize = va / pageSize :=
          Nat.mul_div_cancel _ (by decide)
        have hin : Span addr (addr + len) (va / pageSize * pageSize) := by
          rw [pageSize_eq] at *
          unfold Span
          omega
        by_cases hregion : w.space.regionAt (va / pageSize * pageSize) = none
        · -- A page without a region has no entry, and gets none.
          refine (foldl_cut_ptes (va / pageSize)).elim (fun hsame => hsame.trans ?_) id
          by_contra hsome
          obtain ⟨e, he⟩ := Option.ne_none_iff_exists'.mp hsome
          obtain ⟨r, hr, -⟩ := h.entries p _ e (Machine.pte_put_self.trans he)
          rw [Machine.regionAt_put_self, hregion] at hr
          cases hr
        · rw [← hpage]
          exact hgone _ hin hregion
    · next hva => exact hchanged.ptes va hva

theorem Remapped.reads (h : Remapped w addr len prot backing w') (haddr : pageSize ∣ addr)
    (hlen : pageSize ∣ len) :
    w'.reads va = if addr ≤ va ∧ va < addr + len then
      some (w.mem.backingByte (backing.forward (va / pageSize * pageSize - addr)) (va % pageSize))
    else w.reads va := by
  have hpage : addr ≤ va / pageSize * pageSize ∧ va / pageSize * pageSize < addr + len ↔
      addr ≤ va ∧ va < addr + len := by
    rw [pageSize_eq] at *
    omega
  simp only [World.reads, shows, h.region, h.ptes, hpage]
  by_cases hva : addr ≤ va ∧ va < addr + len
  · simp only [if_pos hva, Option.map_some, h.mem.backingByte]
  · simp only [if_neg hva, h.mem.data]
    refine congrArg (Option.map · _) (funext fun r => ?_)
    cases w.space.ptes (va / pageSize) with
    | none => exact h.mem.backingByte _
    | some e => rfl

/-! ### Making a page writable -/

variable {v : Vma} {n : Nat} {picks : Picks} {pick : Option Nat} {x : Unit} {byte : Nat → UInt8}

/-- Page `n` can be written and shows `byte`, and no frame in use holds anything else. -/
structure Readied (w : World) (n : Nat) (byte : Nat → UInt8) (w' : World) : Prop where
  entry : ∃ e, w'.space.ptes n = some e ∧ e.writable = true ∧
    ∀ o, w'.mem.data e.frame o = byte o
  data : ∀ f, w.mem.used f = true → w'.mem.data f = w.mem.data f
  count : NoneAdded w.mem w'.mem

theorem mapCached_written {f : Nat} (hshared : v.shared = false)
    (h : (w.mapCached n v true f pick).2 = .ok x) :
    ∃ own mem, w.mem.allocFrameRef pick = some (own, mem) ∧
      (w.mapCached n v true f pick).1 =
        ({ w with mem := (mem.fill own (mem.data f)).refDec f } : World).mapPage n
          (v.pteFlags own) := by
  rw [mapCached] at h ⊢
  simp only [hshared, Bool.false_eq_true, if_false, if_true] at h ⊢
  cases halloc : w.mem.allocFrameRef pick with
  | none =>
      rw [halloc] at h
      cases h
  | some got => exact ⟨got.1, got.2, rfl, rfl⟩

/-- The reference of a frame that is copied goes again. -/
theorem count_copied {m mem copied : Memory} {f g own : Nat}
    (hother : ∀ g, g ≠ f → mem.count g = m.count g)
    (hself : mem.count f ≤ max (m.count f + 1) 2)
    (hcopied : copied.count = Function.update mem.count own 1) :
    (copied.refDec f).count g ≤ max (m.count g) 1 := by
  by_cases hg : g = f
  · subst hg
    rw [count_refDec_self, hcopied]
    by_cases hown : g = own
    · simp [hown]
    · simp only [Function.update_of_ne hown]
      omega
  · rw [count_refDec_of_ne hg, hcopied]
    by_cases hown : g = own
    · simp [hown]
    · simp only [Function.update_of_ne hown, hother g hg]
      exact le_max_left _ _

theorem populateNew_readied {va : Nat} (hshared : v.shared = false)
    (hphys : v.backing.isPhys = false) (hwrite : v.prot.write = true)
    (hroom : w.mem.Roomed) (h : (w.populateNew v va true picks).2 = .ok x) :
    Readied w (va / pageSize) (w.mem.backingByte (v.backing.forward (va - v.start)))
      (w.populateNew v va true picks).1 := by
  rw [populateNew] at h ⊢
  cases hb : v.backing with
  | phys base wc =>
      rw [hb] at hphys
      cases hphys
  | anon =>
      rw [hb] at h
      dsimp only at h ⊢
      split at h
      · cases h
      · next f mem halloc =>
          obtain ⟨hfree, rfl⟩ := allocZeroedRef_fresh halloc
          refine ⟨⟨_, Function.update_self _ _ _, hwrite, fun o => zeroed_byte⟩, fun g hg => ?_,
            fun g => ?_⟩
          · exact Function.update_of_ne (ne_of_used hfree hg) _ _
          · change Function.update w.mem.count f 1 g ≤ _
            by_cases hg : g = f
            · subst hg
              rw [Function.update_self]
              exact le_max_right _ _
            · rw [Function.update_of_ne hg]
              exact le_max_left _ _
  | file i offset =>
      rw [hb] at h
      dsimp only at h ⊢
      split at h
      · cases h
      · next f mem hget =>
          obtain ⟨hcount, hself⟩ := getPage_count hget hroom
          have hkeeps := fun o => getPage_data (o := o) hget
          obtain ⟨own, mem', halloc, heq⟩ := mapCached_written hshared h
          obtain ⟨hfree, rfl⟩ := allocFrameRef_eq_some halloc
          rw [heq]
          refine ⟨⟨_, Function.update_self _ _ _, hwrite, fun o => ?_⟩, fun g hg => ?_,
            fun g => ?_⟩
          · change Memory.data (Memory.refDec _ f) own o = _
            rw [refDec_data]
            exact (congrFun (Function.update_self own _ _) o).trans (hkeeps o).1
          · obtain ⟨hdata, hused⟩ := (hkeeps 0).2 g hg
            change Memory.data (Memory.refDec _ f) g = _
            rw [refDec_data]
            exact (Function.update_of_ne (ne_of_used hfree hused) _ _).trans hdata
          · exact count_copied hcount hself rfl

theorem copyOnWrite_readied {e : Pte} (h : (w.copyOnWrite n e pick).2 = .ok x) :
    Readied w n (w.mem.data e.frame) (w.copyOnWrite n e pick).1 := by
  rw [copyOnWrite] at h ⊢
  split
  · exact ⟨⟨_, Function.update_self _ _ _, rfl, fun _ => rfl⟩, fun _ _ => rfl,
      fun _ => le_max_left _ _⟩
  · next hone =>
      rw [if_neg hone] at h
      split at h
      · cases h
      · next f mem halloc =>
          obtain ⟨hfree, rfl⟩ := allocFrameRef_eq_some halloc
          refine ⟨⟨_, Function.update_self _ _ _, rfl, fun o => ?_⟩, fun g hg => ?_, fun g => ?_⟩
          · change Memory.data (Memory.refDec _ e.frame) f o = _
            rw [refDec_data]
            exact congrFun (Function.update_self f _ _) o
          · change Memory.data (Memory.refDec _ e.frame) g = _
            rw [refDec_data]
            exact Function.update_of_ne (ne_of_used hfree hg) _ _
          · exact count_copied (m := w.mem) (fun _ _ => rfl) (by
              omega) rfl

theorem isPhys_forward (b : Backing) (n : Nat) : (b.forward n).isPhys = b.isPhys := by
  cases b <;> rfl

theorem regionAt_of_populateRange {va : Nat} {write : Bool}
    (h : (w.populateRange va write picks).2 = .ok x) : ∃ r, w.space.regionAt va = some r := by
  rw [populateRange] at h
  split at h
  · cases h
  · split at h
    · cases h
    · next v hfind => exact ⟨v.regionAt va, by rw [regionAt, hfind, Option.map_some]⟩

/-- The kernel makes the page at `va` its own to write, and it still shows what it did. -/
theorem populateRange_readied {va : Nat} {r : Region}
    (hroom : w.mem.Roomed) (hr : w.space.regionAt va = some r) (hpriv : r.Private)
    (h : (w.populateRange va true picks).2 = .ok x) :
    Readied w (va / pageSize) (w.shows r (va / pageSize)) (w.populateRange va true picks).1 := by
  have hsame : ∀ e, w.space.ptes (va / pageSize) = some e → e.writable = true →
      Readied w (va / pageSize) (w.shows r (va / pageSize)) w := by
    intro e he hwritable
    refine ⟨⟨e, he, hwritable, fun o => ?_⟩, fun _ _ => rfl, fun _ => le_max_left _ _⟩
    rw [shows, he]
  rw [populateRange] at h ⊢
  split
  · next htop =>
      rw [if_pos htop] at h
      cases h
  next htop =>
  rw [if_neg htop] at h
  cases hfind : w.space.findVma va with
  | none =>
      rw [hfind] at h
      cases h
  | some v =>
      rw [regionAt, hfind] at hr
      obtain rfl := Option.some.inj hr
      rw [hfind] at h
      dsimp only at h ⊢
      cases hwrite : v.prot.write with
      | false =>
          rw [hwrite] at h
          cases h
      | true =>
          simp only [hwrite, Bool.not_true, Bool.and_false, Bool.false_eq_true, if_false,
            Bool.false_and, Bool.false_or] at h ⊢
          cases he : w.space.ptes (va / pageSize) with
          | none =>
              rw [he] at h
              simp only [Option.any_none, Bool.false_eq_true, if_false] at h ⊢
              rw [populatePage, he] at h ⊢
              have hphys : v.backing.isPhys = false := (isPhys_forward _ _).symm.trans hpriv.2
              have hnew := populateNew_readied hpriv.1 hphys hwrite hroom h
              rw [shows, he]
              exact hnew
          | some e =>
              rw [he] at h
              simp only [Option.any_some] at h ⊢
              by_cases hw : e.writable = true
              · rw [if_pos hw]
                exact hsame e he hw
              · rw [if_neg hw] at h ⊢
                rw [populatePage, he] at h ⊢
                simp only [Bool.not_eq_true] at hw
                simp only [hw, Bool.not_false, Bool.and_self, if_true] at h ⊢
                split at h
                · next hcow =>
                    rw [if_pos hcow, shows, he]
                    exact copyOnWrite_readied h
                · cases h

end World

/-!
## The memory of a process that has only private regions

What a mapping at a fixed place, the making of a page writable and a store to it do to what such a
process reads. The files show the same, and the process has only private regions again.
-/

open AddressSpace Machine

/-- The files show the same. -/
def SameFiles (w w' : World) : Prop :=
  ∀ i index o, w'.mem.cacheByte i index o = w.mem.cacheByte i index o

/-- The address space and the memory, as of process `p`, are kept apart from the others, all
regions are private, and every frame has room for one more reference. -/
structure Owns (m : Machine) (p : Nat) (w : World) : Prop where
  isolated : (m.put p w).Isolated
  regions : ∀ va r, w.space.regionAt va = some r → r.Private
  roomed : w.mem.Roomed

variable {m : Machine} {p va addr len a n : Nat} {w w' w'' : World} {prot : Prot} {picks : Picks}
  {backing : Backing} {x : Unit} {e : Pte} {page : Page}

theorem SameFiles.refl : SameFiles w w := fun _ _ _ => rfl

theorem SameFiles.trans (h : SameFiles w w') (h' : SameFiles w' w'') : SameFiles w w'' :=
  fun i index o => (h' i index o).trans (h i index o)

/-- What is read where a page is the same, its frame holds the same, and the files show the same. -/
theorem reads_congr (hregion : w'.space.regionAt (a / pageSize * pageSize) =
      w.space.regionAt (a / pageSize * pageSize))
    (hpte : w'.space.ptes (a / pageSize) = w.space.ptes (a / pageSize))
    (hdata : ∀ e, w.space.ptes (a / pageSize) = some e →
      w'.mem.data e.frame = w.mem.data e.frame)
    (hfiles : SameFiles w w') (hown : ∀ va r, w.space.regionAt va = some r → r.Private) :
    w'.reads a = w.reads a := by
  rw [World.reads, World.reads, hregion]
  cases hr : w.space.regionAt (a / pageSize * pageSize) with
  | none => rfl
  | some r =>
      rw [Option.map_some, Option.map_some, World.shows, World.shows, hpte]
      refine congrArg some ?_
      cases he : w.space.ptes (a / pageSize) with
      | some e => exact congrFun (hdata e he) _
      | none =>
          have hphys := (hown _ r hr).2
          cases hb : r.backing with
          | anon => rfl
          | file i offset => exact hfiles i (offset / pageSize) (a % pageSize)
          | phys base wc =>
              rw [hb] at hphys
              cases hphys

namespace Owns

variable (h : Owns m p w)

include h

/-! ### Mapping -/

theorem mmap_isolated (hlen : pageSize ∣ len) (hsum : addr + len < 2 ^ 64)
    (hphys : backing.isPhys = false) :
    (m.put p (w.mmap addr len prot ⟨true, false, false⟩ backing).1).Isolated := by
  have hlt : len < 2 ^ 64 := by omega
  have hsound : w.space.MapSound addr len ⟨true, false, false⟩ := by
    refine ⟨?_, fun _ => by rwa [World.alignUp_of_dvd hlen hlt]⟩
    rw [pageSize_eq] at *
    omega
  have hdevice : DeviceSound (m.put p w).mem backing (roundUp len) := fun i _ _ => by
    cases backing with
    | anon => trivial
    | file i offset => trivial
    | phys base wc => cases hphys
  have hmapped := @Machine.mmap_isolated _ _ _ _ _ prot _ _ h.isolated put_spaces_self hsound
    hdevice
  rwa [put_put] at hmapped

/-- A mapping that is made shows its backing, and elsewhere what was there. -/
theorem mmap_ok (haddr : pageSize ∣ addr) (hlen : pageSize ∣ len) (hpos : 0 < len)
    (hsum : addr + len < 2 ^ 64) (hphys : backing.isPhys = false)
    (hok : w.mmap addr len prot ⟨true, false, false⟩ backing = (w', .ok a)) :
    Owns m p w' ∧ SameFiles w w' ∧ ∀ va, w'.reads va = if addr ≤ va ∧ va < addr + len then
      some (w.mem.backingByte (backing.forward (va / pageSize * pageSize - addr)) (va % pageSize))
    else w.reads va := by
  have hisolated := @Owns.mmap_isolated _ _ _ _ _ prot _ h hlen hsum hphys
  rw [hok] at hisolated
  rw [World.mmap_fixed_private haddr hlen hpos hsum] at hok
  split at hok
  · cases hok
  · next htop =>
      obtain ⟨rfl, -⟩ := Prod.mk.inj hok
      have hmapped := @World.mapAt_remapped _ _ _ _ prot backing _ h.isolated haddr hlen
        hpos (Nat.le_of_not_lt htop)
      refine ⟨⟨hisolated, fun va r hr => ?_, hmapped.mem.roomed h.roomed⟩,
        fun _ _ _ => hmapped.mem.cacheByte, fun va => hmapped.reads haddr hlen⟩
      rw [hmapped.region] at hr
      split at hr
      · obtain rfl := Option.some.inj hr
        exact ⟨rfl, (World.isPhys_forward _ _).trans hphys⟩
      · exact h.regions va r hr

/-! ### Storing -/

theorem populateRange_quiet (hva : pageSize ∣ va) :
    Quiet p (m.put p w) (m.put p (w.populateRange va true picks).1) := by
  have hsame : Quiet p (m.put p w) (m.put p w) := .refl h.isolated
  rw [World.populateRange]
  split
  · exact hsame
  split
  · exact hsame
  · next v hfind =>
      split
      · exact hsame
      split
      · exact hsame
      split
      · exact hsame
      have hquiet := @Machine.populatePage_quiet _ _ _ _ picks true h.isolated put_spaces_self
        _ hfind fun _ _ _ _ f _ _ _ _ => h.roomed f
      rwa [put_put, Nat.div_mul_cancel hva] at hquiet

theorem populateRange_ok (hva : pageSize ∣ va)
    (hok : w.populateRange va true picks = (w', .ok x)) :
    Owns m p w' ∧ SameFiles w w' ∧ (∀ a, w'.reads a = w.reads a) ∧
      ∃ e, w'.space.ptes (va / pageSize) = some e ∧ e.writable = true := by
  have hquiet := @Owns.populateRange_quiet _ _ _ _ picks h hva
  obtain ⟨e, htouched⟩ := @World.populateRange_touched va w picks true
  obtain ⟨r, hr⟩ := World.regionAt_of_populateRange (congrArg Prod.snd hok)
  have hready := World.populateRange_readied h.roomed hr (h.regions va r hr)
    (congrArg Prod.snd hok)
  rw [hok] at hquiet htouched hready
  dsimp only at htouched
  have hvmas : w'.space.vmas = w.space.vmas := by rw [htouched]
  obtain ⟨e', he', hwritable, hshows⟩ := hready.entry
  have hregion : ∀ a, w'.space.regionAt a = w.space.regionAt a := fun a =>
    regionAt_of_vmas hvmas
  refine ⟨⟨hquiet.isolated, fun a r hr => h.regions a r ((hregion a).symm.trans hr),
    hready.count.roomed h.roomed⟩, hquiet.cache, fun a => ?_, e', he', hwritable⟩
  by_cases hn : a / pageSize = va / pageSize
  · rw [World.reads, World.reads, hregion, hn, Nat.div_mul_cancel hva, hr, Option.map_some,
      Option.map_some, World.shows, he']
    exact congrArg some (hshows _)
  · have hpte : w'.space.ptes (a / pageSize) = w.space.ptes (a / pageSize) := by
      rw [htouched]
      exact Function.update_of_ne hn _ _
    refine reads_congr (hregion _) hpte (fun e he => ?_) hquiet.cache h.regions
    exact hready.data e.frame (h.isolated.used_of_holds (o := .pte p (a / pageSize))
      ⟨e, pte_put_self.trans he, rfl⟩)

theorem reads_of_pte (he : w.space.ptes (a / pageSize) = some e) :
    w.reads a = some (w.mem.data e.frame (a % pageSize)) := by
  obtain ⟨r, hr, -⟩ := h.isolated.entries p _ e (pte_put_self.trans he)
  rw [World.reads, regionAt_put_self.symm.trans hr, Option.map_some, World.shows, he]

/-- A store to a page that can be written is read there, and nothing else is. -/
theorem store_ok (he : w.space.ptes (va / pageSize) = some e) (hw : e.writable = true) :
    Owns m p (w.store va page) ∧ SameFiles w (w.store va page) ∧
      ∀ a, (w.store va page).reads a =
        if a / pageSize = va / pageSize then some (page (a % pageSize)) else w.reads a := by
  obtain ⟨r, hr, hentry⟩ := h.isolated.entries p _ e (pte_put_self.trans he)
  rw [regionAt_put_self] at hr
  have hsole := hentry.sole (h.regions _ r hr) hw
  have hquiet := @Machine.Sole.fill_quiet _ _ _ _ page h.isolated hsole
  have hstore : w.store va page = { w with mem := w.mem.fill e.frame page } := by
    rw [World.store, he]
  rw [hstore]
  refine ⟨⟨hquiet.isolated, h.regions, h.roomed⟩, hquiet.cache, fun a => ?_⟩
  split
  · next hn =>
      rw [World.reads, hn]
      change Option.map _ (w.space.regionAt _) = _
      have hdata : Function.update w.mem.data e.frame page e.frame = page :=
        Function.update_self _ _ _
      simp only [hr, Option.map_some, World.shows, he, Memory.fill, hdata]
  · next hn =>
      refine reads_congr rfl rfl (fun e' he' => Function.update_of_ne (fun heq => hn ?_) _ _)
        hquiet.cache h.regions
      have hholds := hsole.2 (.pte p (a / pageSize)) ⟨e', pte_put_self.trans he', heq⟩
      exact (Owner.pte.inj hholds).2

end Owns

end MindOS.Kernel.Mm
