import MindOS.Kernel.Mm.Owners

/-!
# Page faults of a process among others

## The touch of a page

A fault gives a page an entry. The frame is a new one, one of a device, or one that a file
holds; the process may write through the entry to private memory only if the frame is new,
or if its count says that no one else has it.
-/

namespace MindOS.Kernel.Mm

open AddressSpace
open Tmpfs (Page pageSize wrap)

namespace Memory

variable {m m' : Memory} {i index o : Nat}

/-- A file shows the same if its frames hold the same. -/
theorem cacheByte_congr (hinode : m'.inodes i = m.inodes i)
    (htmpfs : ∀ pages f, m.inodes i = .tmpfs pages → pages index = some f →
      m'.data f = m.data f)
    (hinitrd : ∀ first pages, m.inodes i = .initrd first pages → index < pages →
      m'.data (first + index) = m.data (first + index)) :
    m'.cacheByte i index o = m.cacheByte i index o := by
  rw [cacheByte, cacheByte, hinode]
  cases hi : m.inodes i with
  | other => rfl
  | initrd first pages =>
      simp only
      split
      · next hlt => rw [hinitrd first pages hi hlt]
      · rfl
  | tmpfs pages =>
      simp only
      cases hf : pages index with
      | none => rfl
      | some f => rw [Option.map_some, Option.map_some, htmpfs pages f hi hf]

end Memory

namespace Machine

variable {m : Machine} {p n q k f i index : Nat} {s : AddressSpace} {w : World} {e : Pte}
  {r : Region} {own : Nat → List Owner} {mem mem' : Memory} {o : Owner} {pick : Option Nat}

theorem holds_mem {spaces : Nat → Option AddressSpace} (h : mem'.inodes = mem.inodes) :
    Holds ⟨spaces, mem'⟩ o f ↔ Holds ⟨spaces, mem⟩ o f := by
  cases o with
  | pte p n => exact Iff.rfl
  | cache i index => rw [Holds, Holds, h]
  | caller => exact Iff.rfl

/-- In an address space without an entry for the page nothing changes for its holders. -/
theorem put_self (hs : m.spaces p = some s) : m.put p ⟨s, m.mem⟩ = m := by
  obtain ⟨spaces, mem⟩ := m
  exact congrArg (Machine.mk · mem) ((congrArg _ hs.symm).trans (Function.update_eq_self p spaces))

namespace Moved

/-- What is held then is in use then, if the page has no entry. -/
theorem used_of_holds (hm : Moved p n m own mem) (hnone : m.pte p n = none)
    (ho : Holds ⟨m.spaces, mem⟩ o f) : mem.used f = true := by
  have hne : o ≠ .pte p n := by
    rintro rfl
    obtain ⟨e, he, -⟩ := ho
    exact Option.some_ne_none e (he.symm.trans hnone)
  rcases hm.owned o f hne ho with hres | hin
  · exact Memory.used_of_reserved (hm.reserved ▸ hres)
  · exact hm.books.used_of_mem hin

/-- A new frame, which is filled before it is used. -/
theorem alloc (hm : Moved p n m own mem) (hgrows : ∀ g, m.mem.used g = true → mem.used g = true)
    (hheld : ∀ o g, Holds ⟨m.spaces, mem⟩ o g → mem.used g = true)
    (hinitrd : ∀ i first pages index, m.mem.inodes i = .initrd first pages → index < pages →
      m.mem.reserved (first + index) = true)
    (halloc : mem.allocFrameRef pick = some (f, mem')) (page : Page) :
    Moved p n m (Function.update own f [.caller]) (mem'.fill f page) := by
  have hbooks := hm.books.alloc halloc .caller
  have hreserved := Memory.reserved_alloc halloc
  obtain ⟨hfree, rfl⟩ := Memory.allocFrameRef_eq_some halloc
  have hne : ∀ g, mem.used g = true → g ≠ f := fun g hg heq =>
    absurd (hfree.symm.trans (heq ▸ hg)) Bool.false_ne_true
  refine ⟨hbooks.fill page, fun o g ho hold => ?_, ?_, fun o g hold => ?_,
    fun i first pages hi => ?_,
    fun g hg => ?_, fun i index o => ?_⟩
  · have hold := (holds_mem rfl).mp hold
    rw [Function.update_of_ne (hne g (hheld o g hold))]
    exact hm.owned o g ho hold
  · exact hreserved.trans hm.reserved
  · exact hm.fresh o g ((holds_mem rfl).mp hold)
  · exact hm.initrd i first pages hi
  · exact (Function.update_of_ne (hne g (hgrows g hg)) _ _).trans (hm.data g hg)
  · refine Eq.trans ?_ (hm.cache i index o)
    refine Memory.cacheByte_congr rfl (fun pages g hi hg => ?_) fun first pages hi hlt => ?_
    · exact Function.update_of_ne (hne g (hheld (.cache i index) g ⟨pages, hi, hg⟩)) _ _
    · have hres := hinitrd i first pages index (hm.initrd i first pages hi) hlt
      exact Function.update_of_ne (hne _ (hgrows _ (Memory.used_of_reserved hres))) _ _

/-- A reference that is dropped, by the code that had it or with the entry. -/
theorem drop (hm : Moved p n m own mem) (ho : o = .caller ∨ o = .pte p n)
    (hin : m.mem.reserved f = true ∨ o ∈ own f) :
    Moved p n m (Function.update own f ((own f).erase o)) (mem.refDec f) := by
  have hholds : ∀ o g, Holds ⟨m.spaces, mem.refDec f⟩ o g ↔ Holds ⟨m.spaces, mem⟩ o g :=
    fun _ _ => holds_mem Memory.refDec_inodes
  refine ⟨hm.books.refDec (hin.imp_left fun hres => hm.reserved.symm ▸ hres),
    fun o' g ho' hold => ?_, Memory.reserved_refDec.trans hm.reserved,
    fun o' g hold => hm.fresh o' g ((hholds o' g).mp hold), fun i first pages hi => ?_,
    fun g hg => ?_, fun i index b => ?_⟩
  · have hold := (hholds o' g).mp hold
    have hne : o' ≠ o := by
      rintro rfl
      rcases ho with rfl | rfl
      · exact hold
      · exact ho' rfl
    refine (hm.owned o' g ho' hold).imp_right fun hin' => ?_
    by_cases heq : g = f
    · subst heq
      rw [Function.update_self]
      exact (List.mem_erase_of_ne hne).mpr hin'
    · rwa [Function.update_of_ne heq]
  · rw [Memory.refDec_inodes] at hi
    exact hm.initrd i first pages hi
  · rw [Memory.refDec_data]
    exact hm.data g hg
  · refine Eq.trans ?_ (hm.cache i index b)
    refine Memory.cacheByte_congr (by rw [Memory.refDec_inodes]) (fun _ _ _ _ => ?_)
      fun _ _ _ _ => ?_
    all_goals rw [Memory.refDec_data]

end Moved

/-! ### A new entry -/

section Map

variable (hs : m.spaces p = some s)

include hs

theorem regionAt_map {va : Nat} :
    (m.put p (World.mapPage ⟨s, mem⟩ n e)).regionAt q va = m.regionAt q va := by
  by_cases hq : q = p
  · subst hq
    rw [regionAt_put_self, regionAt_of_space hs]
    rfl
  · exact regionAt_put_of_ne hq

theorem pte_map : (m.put p (World.mapPage ⟨s, mem⟩ n e)).pte q k =
    if q = p ∧ k = n then some e else m.pte q k := by
  by_cases hq : q = p
  · subst hq
    rw [pte_put_self, pte_of_space hs]
    by_cases hk : k = n
    · rw [hk, if_pos ⟨rfl, rfl⟩]
      exact Function.update_self _ _ _
    · rw [if_neg fun hand => hk hand.2]
      exact Function.update_of_ne hk _ _
  · rw [pte_put_of_ne hq, if_neg fun hand => hq hand.1]

theorem holds_map (hold : (m.put p (World.mapPage ⟨s, mem⟩ n e)).Holds o f) :
    o = .pte p n ∧ f = e.frame ∨ o ≠ .pte p n ∧ Holds ⟨m.spaces, mem⟩ o f := by
  cases o with
  | pte q k =>
      obtain ⟨e', he', rfl⟩ := hold
      rw [pte_map hs] at he'
      split at he'
      · next hand =>
          cases he'
          exact .inl ⟨by rw [hand.1, hand.2], rfl⟩
      · next hand =>
          refine .inr ⟨fun heq => hand ?_, e', he', rfl⟩
          cases heq
          exact ⟨rfl, rfl⟩
  | cache i index => exact .inr ⟨Owner.noConfusion, hold⟩
  | caller => exact hold.elim

/-- The owners after a reference was handed to the page. -/
theorem Moved.exists_owned (hm : Moved p n m own mem)
    (hown : m.mem.reserved e.frame = true ∨ .caller ∈ own e.frame ∨ .pte p n ∈ own e.frame) :
    ∃ own', Books own' mem ∧ Owned own' (m.put p (World.mapPage ⟨s, mem⟩ n e)) := by
  rcases hown with hres | hcaller | hpage
  · refine ⟨own, hm.books, fun o f hold => ?_⟩
    change mem.reserved f = true ∨ o ∈ own f
    rw [hm.reserved]
    rcases holds_map hs hold with ⟨rfl, rfl⟩ | ⟨ho, hold⟩
    · exact .inl hres
    · exact hm.owned o f ho hold
  · refine ⟨_, hm.books.give hcaller (.pte p n), fun o f hold => ?_⟩
    change mem.reserved f = true ∨ _
    rw [hm.reserved]
    rcases holds_map hs hold with ⟨rfl, rfl⟩ | ⟨ho, hold⟩
    · rw [Function.update_self]
      exact .inr List.mem_cons_self
    · refine (hm.owned o f ho hold).imp_right fun hin => ?_
      by_cases hf : f = e.frame
      · have hne : o ≠ .caller := fun heq => by
          subst heq
          exact hold
        subst hf
        rw [Function.update_self]
        exact List.mem_cons_of_mem _ ((List.mem_erase_of_ne hne).mpr hin)
      · rwa [Function.update_of_ne hf]
  · refine ⟨own, hm.books, fun o f hold => ?_⟩
    change mem.reserved f = true ∨ o ∈ own f
    rw [hm.reserved]
    rcases holds_map hs hold with ⟨rfl, rfl⟩ | ⟨ho, hold⟩
    · exact .inr hpage
    · exact hm.owned o f ho hold

/-- A page that had a frame to itself still has, if the new entry is not for that frame. -/
theorem Moved.sole_map (hm : Moved p n m own mem)
    (hopen : m.Open e.frame ∨ m.Holds (.pte p n) e.frame) (hne : Owner.pte q k ≠ .pte p n)
    (hsole : m.Sole q k f) (hq : m.Holds (.pte q k) f) :
    (m.put p (World.mapPage ⟨s, mem⟩ n e)).Sole q k f := by
  refine ⟨(congrFun hm.reserved f).trans hsole.1, fun o hold => ?_⟩
  rcases holds_map hs hold with ⟨rfl, rfl⟩ | ⟨-, hold⟩
  · rcases hopen with hopen | hp
    · exact absurd hopen (hsole.not_open hq)
    · exact absurd (hsole.2 _ hp).symm hne
  · rcases hm.fresh o f hold with hold | hnone
    · exact hsole.2 o hold
    · exact absurd hq (hnone _)

/-- The page gets an entry for a frame of which there is a reference for it. -/
theorem Moved.mapped (h : m.Isolated) (hm : Moved p n m own mem)
    (hr : s.regionAt (n * pageSize) = some r)
    (hown : m.mem.reserved e.frame = true ∨ .caller ∈ own e.frame ∨ .pte p n ∈ own e.frame)
    (hopen : m.Open e.frame ∨ m.Holds (.pte p n) e.frame)
    (hsole : r.Private → e.writable = true → m.mem.reserved e.frame = false ∧
      ∀ o ∈ own e.frame, o = .caller ∨ o = .pte p n)
    (hcow : e.cow = true → e.writable = false ∧ r.Private)
    (hdevice : r.backing.isPhys = true → m.mem.reserved e.frame = true) :
    (m.put p (World.mapPage ⟨s, mem⟩ n e)).Isolated := by
  have hreserved : ∀ f, mem.reserved f = m.mem.reserved f := congrFun hm.reserved
  refine ⟨hm.exists_owned hs hown, fun q t ht => ?_, fun q k e' he' => ?_, fun q k r' hr' => ?_,
    fun i first pages index hi hlt => ?_⟩
  · by_cases hq : q = p
    · subst hq
      rw [put_spaces_self] at ht
      cases ht
      have hinv := h.spaces q s hs
      exact ⟨hinv.toTidy.of_vmas rfl, hinv.brk, hinv.hint⟩
    · rw [put_spaces_of_ne hq] at ht
      exact h.spaces q t ht
  · rw [pte_map hs] at he'
    rw [regionAt_map hs]
    split at he'
    · next hand =>
        cases he'
        obtain ⟨rfl, rfl⟩ := hand
        refine ⟨r, (regionAt_of_space hs).trans hr, fun hr hw => ?_, hcow, fun hd => ?_⟩
        · obtain ⟨hres, hall⟩ := hsole hr hw
          refine ⟨(hreserved _).trans hres, fun o hold => ?_⟩
          rcases holds_map hs hold with ⟨rfl, -⟩ | ⟨ho, hold⟩
          · rfl
          · rcases hm.owned o _ ho hold with hres' | hin
            · exact absurd (hres.symm.trans hres') Bool.false_ne_true
            · rcases hall o hin with rfl | rfl
              · exact hold.elim
              · rfl
        · exact (hreserved _).trans (hdevice hd)
    · next hand =>
        obtain ⟨r', hr', hentry⟩ := h.entries q k e' he'
        have hne : Owner.pte q k ≠ .pte p n := fun heq => hand (by cases heq; exact ⟨rfl, rfl⟩)
        refine ⟨r', hr', fun hr hw => ?_, hentry.cow, fun hd => ?_⟩
        · exact hm.sole_map hs hopen hne (hentry.sole hr hw) ⟨e', he', rfl⟩
        · exact (hreserved _).trans (hentry.device hd)
  · rw [regionAt_map hs] at hr'
    exact (h.device q k r' hr').congr hreserved
  · exact (hreserved _).trans (h.initrd i first pages index (hm.initrd i first pages hi) hlt)

end Map

end Machine

/-!
## Faults keep what others read

Whatever way a fault ends, no other process and no reader of a file sees a difference, and
frames that one page has to itself stay so. A page of a file is shared with one more entry,
for which its count must have room.
-/

namespace Machine

variable {m : Machine} {p n q k f i index va : Nat} {s : AddressSpace} {w : World} {e : Pte}
  {r : Region} {v : Vma} {own : Nat → List Owner} {mem mem' : Memory} {o : Owner}
  {pick : Option Nat} {picks : Picks} {write exec : Bool}

/-- A step of process `p` that no one else notices. -/
structure Quiet (p : Nat) (m t : Machine) : Prop where
  isolated : t.Isolated
  reads : ∀ q va, q ≠ p → t.reads q va = m.reads q va
  cache : ∀ i index o, t.mem.cacheByte i index o = m.mem.cacheByte i index o

theorem Quiet.refl (h : m.Isolated) : Quiet p m m := ⟨h, fun _ _ _ => rfl, fun _ _ _ => rfl⟩

theorem Quiet.of_moved (h : m.Isolated) (hm : Moved p n m own w.mem)
    (ht : (m.put p w).Isolated) : Quiet p m (m.put p w) :=
  ⟨ht, fun _ va hq => h.reads_of_moved hm hq va, hm.cache⟩

/-- A fault that fails leaves the entries as they were. -/
theorem Moved.kept (h : m.Isolated) (hs : m.spaces p = some s) (hm : Moved p n m own mem)
    (hnone : m.pte p n = none) : (m.put p ⟨s, mem⟩).Isolated := by
  have hreserved : ∀ f, mem.reserved f = m.mem.reserved f := congrFun hm.reserved
  have hholds : ∀ o f, (m.put p ⟨s, mem⟩).Holds o f ↔ Holds ⟨m.spaces, mem⟩ o f :=
    fun _ _ => holds_put hs rfl
  have hspaces : (m.put p ⟨s, mem⟩).spaces = m.spaces :=
    (congrArg _ hs.symm).trans (Function.update_eq_self p m.spaces)
  have hpte : ∀ q k, (m.put p ⟨s, mem⟩).pte q k = m.pte q k := fun q k => by
    rw [pte, pte, hspaces]
  have hregion : ∀ q va, (m.put p ⟨s, mem⟩).regionAt q va = m.regionAt q va := fun q va => by
    rw [Machine.regionAt, Machine.regionAt, hspaces]
  refine ⟨⟨own, hm.books, fun o f hold => ?_⟩, fun q t ht => ?_, fun q k e he => ?_,
    fun q k r hr => ?_, fun i first pages index hi hlt => ?_⟩
  · change mem.reserved f = true ∨ o ∈ own f
    have hold := (hholds o f).mp hold
    rw [hreserved]
    refine hm.owned o f ?_ hold
    rintro rfl
    obtain ⟨e, he, -⟩ := hold
    exact Option.some_ne_none e (he.symm.trans hnone)
  · rw [hspaces] at ht
    exact h.spaces q t ht
  · rw [hpte] at he
    rw [hregion]
    obtain ⟨r, hr, hentry⟩ := h.entries q k e he
    refine ⟨r, hr, fun hpriv hw => ⟨(hreserved _).trans (hentry.sole hpriv hw).1, fun o hold => ?_⟩,
      hentry.cow, fun hd => (hreserved _).trans (hentry.device hd)⟩
    rcases hm.fresh o _ ((hholds o _).mp hold) with hold | hnone
    · exact (hentry.sole hpriv hw).2 o hold
    · exact absurd ⟨e, he, rfl⟩ (hnone (.pte q k))
  · rw [hregion] at hr
    exact (h.device q k r hr).congr hreserved
  · exact (hreserved _).trans (h.initrd i first pages index (hm.initrd i first pages hi) hlt)

/-! ### The page cache -/

theorem Moved.refInc (hm : Moved p n m own m.mem)
    (hroom : m.mem.count f + 1 < 2 ^ 32) (hf : m.mem.reserved f = true ∨ m.mem.count f ≠ 0) :
    ∃ own', Moved p n m own' (m.mem.refInc f) ∧ (m.mem.reserved f = true ∨ .caller ∈ own' f) := by
  by_cases hzero : m.mem.count f = 0
  · rw [Memory.refInc_of_reserved hzero]
    exact ⟨own, hm, .inl (hf.resolve_right (not_not_intro hzero))⟩
  · refine ⟨_, ⟨hm.books.refInc hzero hroom .caller, fun o g ho hold => ?_,
      Memory.reserved_refInc hroom, fun o g hold => ?_, fun i first pages hi => ?_, fun g _ => ?_,
      fun i index b => ?_⟩, .inr ?_⟩
    · refine (hm.owned o g ho ((holds_mem Memory.refInc_inodes).mp hold)).imp_right fun hin => ?_
      by_cases heq : g = f
      · subst heq
        rw [Function.update_self]
        exact List.mem_cons_of_mem _ hin
      · rwa [Function.update_of_ne heq]
    · exact hm.fresh o g ((holds_mem Memory.refInc_inodes).mp hold)
    · rwa [Memory.refInc_inodes] at hi
    · rw [Memory.refInc_data]
    · refine Memory.cacheByte_congr (by rw [Memory.refInc_inodes]) (fun _ _ _ _ => ?_)
        fun _ _ _ _ => ?_
      all_goals rw [Memory.refInc_data]
    · rw [Function.update_self]
      exact List.mem_cons_self

/-- The frame that a file gives for a page, with a reference for the caller. -/
structure Got (p n : Nat) (m : Machine) (f : Nat) (mem : Memory) (own : Nat → List Owner) : Prop
    where
  moved : Moved p n m own mem
  token : m.mem.reserved f = true ∨ .caller ∈ own f
  shared : m.Open f
  grows : ∀ g, m.mem.used g = true → mem.used g = true

theorem allocZeroedRef_eq_some (h : m.mem.allocZeroedRef pick = some (f, mem)) :
    ∃ mem', m.mem.allocFrameRef pick = some (f, mem') ∧ mem = mem'.fill f .zeroed := by
  obtain ⟨got, halloc, heq⟩ := Option.map_eq_some_iff.mp h
  cases heq
  exact ⟨got.2, halloc, rfl⟩

theorem got_of_alloc (h : m.Isolated) (hm : Moved p n m own m.mem) (hnone : m.pte p n = none)
    (halloc : m.mem.allocFrameRef pick = some (f, mem)) (page : Page) :
    Got p n m f (mem.fill f page) (Function.update own f [.caller]) := by
  obtain ⟨hfree, hmem⟩ := Memory.allocFrameRef_eq_some halloc
  refine ⟨hm.alloc (fun _ => id) (fun _ _ => hm.used_of_holds hnone) h.initrd halloc page,
    .inr ?_, .inr (.inr fun o => h.not_holds_of_unused hfree), fun g hg => ?_⟩
  · rw [Function.update_self]
    exact List.mem_cons_self
  · subst hmem
    by_cases heq : g = f
    · exact (congrArg _ heq).trans (Function.update_self _ _ _)
    · exact (Function.update_of_ne heq _ _).trans hg

/-- A file with one more page. -/
def addPage (mem : Memory) (i index f : Nat) (pages : Nat → Option Nat) : Memory :=
  { mem with
    inodes := Function.update mem.inodes i (.tmpfs (Function.update pages index (some f))) }

theorem holds_addPage {spaces : Nat → Option AddressSpace} {pages : Nat → Option Nat} {g : Nat}
    (hi : mem.inodes i = .tmpfs pages)
    (hold : Holds ⟨spaces, addPage mem i index f pages⟩ o g) :
    o = .cache i index ∧ g = f ∨ Holds ⟨spaces, mem⟩ o g := by
  cases o with
  | pte q k => exact .inr hold
  | caller => exact .inr hold
  | cache j k =>
      obtain ⟨pages', hj, hk⟩ := hold
      by_cases hji : j = i
      · subst hji
        cases (Function.update_self j _ _).symm.trans hj
        by_cases hki : k = index
        · subst hki
          rw [Function.update_self] at hk
          exact .inl ⟨rfl, (Option.some.inj hk).symm⟩
        · rw [Function.update_of_ne hki] at hk
          exact .inr ⟨pages, hi, hk⟩
      · exact .inr ⟨pages', (Function.update_of_ne hji _ _).symm.trans hj, hk⟩

/-- A page of zeros is what the file has shown there. -/
theorem cacheByte_addPage {pages : Nat → Option Nat} (hi : mem.inodes i = .tmpfs pages)
    (hpage : pages index = none) (hzero : mem.data f = .zeroed) (j k b : Nat) :
    (addPage mem i index f pages).cacheByte j k b = mem.cacheByte j k b := by
  by_cases hj : j = i
  · subst hj
    have hinode : (addPage mem j index f pages).inodes j =
        .tmpfs (Function.update pages index (some f)) := Function.update_self j _ _
    rw [Memory.cacheByte, Memory.cacheByte, hinode, hi]
    simp only
    by_cases hk : k = index
    · rw [hk, Function.update_self, hpage, Option.map_some, Option.getD_some]
      exact congrFun hzero b
    · rw [Function.update_of_ne hk]
      rfl
  · exact Memory.cacheByte_congr (Function.update_of_ne hj _ _) (fun _ _ _ _ => rfl)
      fun _ _ _ _ => rfl

theorem got_of_newPage (h : m.Isolated) (hm : Moved p n m own m.mem) (hnone : m.pte p n = none)
    {pages : Nat → Option Nat} (hi : m.mem.inodes i = .tmpfs pages) (hpage : pages index = none)
    (halloc : m.mem.allocFrameRef pick = some (f, mem)) :
    ∃ own', Got p n m f (addPage ((mem.fill f .zeroed).refInc f) i index f pages) own' := by
  have hgot := got_of_alloc h hm hnone halloc .zeroed
  have hmoved := hgot.moved
  obtain ⟨hfree, hmem⟩ := Memory.allocFrameRef_eq_some halloc
  have hone : (mem.fill f .zeroed).count f = 1 := by
    subst hmem
    exact Function.update_self _ _ _
  have hroom : (mem.fill f .zeroed).count f + 1 < 2 ^ 32 := by
    rw [hone]
    decide
  have hinodes : ((mem.fill f .zeroed).refInc f).inodes = m.mem.inodes := by
    rw [Memory.refInc_inodes]
    subst hmem
    rfl
  have hdata : ((mem.fill f .zeroed).refInc f).data f = .zeroed := by
    rw [Memory.refInc_data]
    exact Function.update_self _ _ _
  have hi' : ((mem.fill f .zeroed).refInc f).inodes i = .tmpfs pages := by rw [hinodes, hi]
  have hbooks := hmoved.books.refInc (by rw [hone]; exact Nat.one_ne_zero) hroom (.cache i index)
  refine ⟨_, ⟨⟨⟨hbooks.covers, hbooks.used⟩, fun o g ho hold => ?_, ?_, fun o g hold => ?_,
    fun j first pages' hj => ?_, fun g hg => ?_, fun j k b => ?_⟩, .inr ?_, hgot.shared,
    fun g hg => ?_⟩⟩
  · rcases holds_addPage hi' hold with ⟨rfl, rfl⟩ | hold
    · rw [Function.update_self]
      exact .inr List.mem_cons_self
    · refine (hmoved.owned o g ho ((holds_mem Memory.refInc_inodes).mp hold)).imp_right
        fun hin => ?_
      by_cases heq : g = f
      · subst heq
        rw [Function.update_self]
        exact List.mem_cons_of_mem _ hin
      · rwa [Function.update_of_ne heq]
  · exact (Memory.reserved_refInc hroom).trans hmoved.reserved
  · rcases holds_addPage hi' hold with ⟨-, rfl⟩ | hold
    · exact .inr fun o => h.not_holds_of_unused hfree
    · exact .inl ((holds_mem hinodes).mp hold)
  · have hji : j ≠ i := by
      rintro rfl
      cases (Function.update_self j _ _).symm.trans hj
    rw [← hinodes]
    exact (Function.update_of_ne hji _ _).symm.trans hj
  · change ((mem.fill f .zeroed).refInc f).data g = _
    rw [Memory.refInc_data]
    exact hmoved.data g hg
  · rw [cacheByte_addPage hi' hpage hdata]
    refine Eq.trans ?_ (hmoved.cache j k b)
    refine Memory.cacheByte_congr (by rw [Memory.refInc_inodes]) (fun _ _ _ _ => ?_)
      fun _ _ _ _ => ?_
    all_goals rw [Memory.refInc_data]
  · rw [Function.update_self, Function.update_self]
    exact List.mem_cons_of_mem _ List.mem_cons_self
  · change ((mem.fill f .zeroed).refInc f).used g = true
    rw [Memory.refInc_used]
    exact hgot.grows g hg

theorem getPage_got (h : m.Isolated) (hnone : m.pte p n = none)
    (hget : m.mem.getPage i index pick = .ok (f, mem))
    (hroom : ∀ pages, m.mem.inodes i = .tmpfs pages → pages index = some f →
      m.mem.count f + 1 < 2 ^ 32) : ∃ own, Got p n m f mem own := by
  obtain ⟨own, hm, howned⟩ := @Isolated.moved m p n h
  have hinc : ∀ {g}, m.mem.count g + 1 < 2 ^ 32 → m.Open g →
      (m.mem.reserved g = true ∨ m.mem.count g ≠ 0) →
      ∃ own, Got p n m g (m.mem.refInc g) own := by
    intro g hlt hopen hg
    obtain ⟨own', hm', htoken⟩ := hm.refInc hlt hg
    exact ⟨own', hm', htoken, hopen, fun g' hg' => by rwa [Memory.refInc_used]⟩
  rw [Memory.getPage] at hget
  split at hget
  · cases hget
  · next first pages hi =>
      split at hget
      · split at hget
        · cases hget
        · next got hzeroed =>
            cases hget
            obtain ⟨mem', halloc, rfl⟩ := allocZeroedRef_eq_some hzeroed
            exact ⟨_, got_of_alloc h hm hnone halloc .zeroed⟩
      · next hlt =>
          cases hget
          have hres := h.initrd i first pages index hi (Nat.lt_of_not_le hlt)
          refine hinc ?_ (.inl hres) (.inl hres)
          rw [Memory.count_of_reserved hres]
          decide
  · next pages hi =>
      split at hget
      · next g hg =>
          cases hget
          have hold : m.Holds (.cache i index) f := ⟨pages, hi, hg⟩
          refine hinc (hroom pages hi hg) (.inr (.inl ⟨i, index, hold⟩)) ?_
          refine (howned _ _ hold).imp_right fun hin hzero => ?_
          rw [hm.books.own_of_count hzero] at hin
          exact List.not_mem_nil hin
      · next hpage =>
          split at hget
          · cases hget
          · next got hzeroed =>
              cases hget
              obtain ⟨mem', halloc, hmem⟩ := allocZeroedRef_eq_some hzeroed
              obtain ⟨own', hgot⟩ := got_of_newPage h hm hnone hi hpage halloc
              refine ⟨own', ?_⟩
              have hinodes : (got.2.refInc got.1).inodes = m.mem.inodes := by
                rw [Memory.refInc_inodes, hmem, (Memory.allocFrameRef_eq_some halloc).2]
                rfl
              rwa [← hmem, addPage, hinodes] at hgot

/-! ### The ways a fault goes -/

section Fault

variable (h : m.Isolated) (hs : m.spaces p = some s)

include h hs

theorem copyOnWrite_quiet (he : s.ptes n = some e) (hcow : e.cow = true) :
    Quiet p m (m.put p (World.copyOnWrite ⟨s, m.mem⟩ n e pick).1) := by
  obtain ⟨own, hm, howned⟩ := @Isolated.moved m p n h
  have hpte : m.pte p n = some e := (pte_of_space hs).trans he
  have hold : m.Holds (.pte p n) e.frame := ⟨e, hpte, rfl⟩
  obtain ⟨r, hr, hentry⟩ := h.entries p n e hpte
  rw [regionAt_of_space hs] at hr
  have hpriv := (hentry.cow hcow).2
  have hdevice : ∀ {b : Prop}, r.backing.isPhys = true → b := fun hd =>
    absurd (hpriv.2.symm.trans hd) Bool.false_ne_true
  rw [World.copyOnWrite]
  split
  · next hone =>
      have hmem : .pte p n ∈ own e.frame := (howned _ _ hold).resolve_left fun hres => by
        rw [Memory.count_of_reserved hres] at hone
        exact absurd hone Nat.zero_ne_one
      have hres : m.mem.reserved e.frame = false := Bool.eq_false_iff.mpr fun hres => by
        rw [Memory.count_of_reserved hres] at hone
        exact absurd hone Nat.zero_ne_one
      refine .of_moved h hm (hm.mapped hs h hr (.inr (.inr hmem)) (.inr hold) (fun _ _ => ?_)
        (fun hc => absurd hc Bool.false_ne_true) hdevice)
      exact ⟨hres, fun o ho => .inr (hm.books.eq_of_count hone hmem ho)⟩
  · split
    · rw [put_self hs]
      exact .refl h
    · next f mem halloc =>
        have hheld : ∀ o g, Holds ⟨m.spaces, m.mem⟩ o g → m.mem.used g = true :=
          fun _ _ => h.used_of_holds
        have hfree := (Memory.allocFrameRef_eq_some halloc).1
        have hne : f ≠ e.frame := fun heq =>
          h.not_holds_of_unused hfree (heq ▸ hold)
        have hown : m.mem.reserved e.frame = true ∨
            .pte p n ∈ Function.update own f [.caller] e.frame := by
          rw [Function.update_of_ne hne.symm]
          exact howned _ _ hold
        have hcopied := (hm.alloc (fun _ => id) hheld h.initrd halloc (mem.data e.frame)).drop
          (.inr rfl) hown
        have htoken : Function.update (Function.update own f [.caller]) e.frame
            ((Function.update own f [Owner.caller] e.frame).erase (.pte p n)) f = [.caller] := by
          rw [Function.update_of_ne hne, Function.update_self]
        have hres : m.mem.reserved f = false := by
          rw [Memory.reserved, hfree, Bool.false_and]
        refine .of_moved h hcopied (hcopied.mapped hs h hr (.inr (.inl ?_))
          (.inl (.inr (.inr fun o => h.not_holds_of_unused hfree))) (fun _ _ => ⟨hres, ?_⟩)
          (fun hc => absurd hc Bool.false_ne_true) hdevice)
        · rw [htoken]
          exact List.mem_cons_self
        · rw [htoken]
          exact fun o ho => .inl (List.mem_singleton.mp ho)

theorem mapCached_quiet (hnone : m.pte p n = none) (hgot : Got p n m f mem own)
    (hr : s.regionAt (n * pageSize) = some r) (hshared : r.shared = v.shared)
    (hphys : r.backing.isPhys = false) :
    Quiet p m (m.put p (World.mapCached ⟨s, mem⟩ n v write f pick).1) := by
  have hdevice : ∀ {b : Prop}, r.backing.isPhys = true → b := fun hd =>
    absurd (hphys.symm.trans hd) Bool.false_ne_true
  have hmoved := hgot.moved
  rw [World.mapCached]
  split
  · next hv =>
      refine .of_moved h hmoved
        (hmoved.mapped hs h hr (hgot.token.imp_right .inl) (.inl hgot.shared)
        (fun hpriv _ => ?_) (fun hc => absurd hc Bool.false_ne_true) hdevice)
      exact absurd (hpriv.1.symm.trans (hshared.trans hv)) Bool.false_ne_true
  · next hv =>
      split
      · split
        · exact .of_moved h hmoved (hmoved.kept h hs hnone)
        · next g mem' halloc =>
            have hheld : ∀ o g, Holds ⟨m.spaces, mem⟩ o g → mem.used g = true :=
              fun _ _ => hmoved.used_of_holds hnone
            have hfree := (Memory.allocFrameRef_eq_some halloc).1
            have hused : mem.used f = true := hgot.token.elim
              (fun hres => hgot.grows f (Memory.used_of_reserved hres)) hmoved.books.used_of_mem
            have hne : g ≠ f := fun heq =>
              absurd (hfree.symm.trans (heq ▸ hused)) Bool.false_ne_true
            have hunused : m.mem.used g = false := Bool.eq_false_iff.mpr fun hg =>
              absurd (hfree.symm.trans (hgot.grows g hg)) Bool.false_ne_true
            have hown : m.mem.reserved f = true ∨
                .caller ∈ Function.update own g [.caller] f := by
              rw [Function.update_of_ne hne.symm]
              exact hgot.token
            have hcopied := (hmoved.alloc hgot.grows hheld h.initrd halloc (mem'.data f)).drop
              (.inl rfl) hown
            have htoken : Function.update (Function.update own g [.caller]) f
                ((Function.update own g [Owner.caller] f).erase .caller) g = [.caller] := by
              rw [Function.update_of_ne hne, Function.update_self]
            have hres : m.mem.reserved g = false := by
              rw [Memory.reserved, hunused, Bool.false_and]
            refine .of_moved h hcopied (hcopied.mapped hs h hr (.inr (.inl ?_))
              (.inl (.inr (.inr fun o => h.not_holds_of_unused hunused)))
              (fun _ _ => ⟨hres, ?_⟩) (fun hc => absurd hc Bool.false_ne_true) hdevice)
            · change _ ∈ Function.update (Function.update own g [.caller]) f _ g
              rw [htoken]
              exact List.mem_cons_self
            · change ∀ o ∈ Function.update (Function.update own g [.caller]) f _ g, _
              rw [htoken]
              exact fun o ho => .inl (List.mem_singleton.mp ho)
      · refine .of_moved h hmoved (hmoved.mapped hs h hr (hgot.token.imp_right .inl)
          (.inl hgot.shared) (fun _ hw => absurd hw Bool.false_ne_true) (fun _ => ⟨rfl, ?_⟩)
          hdevice)
        exact ⟨hshared.trans (Bool.eq_false_iff.mpr hv), hphys⟩

theorem populateNew_quiet (hv : v ∈ s.vmas) (hlo : v.start ≤ n * pageSize)
    (hhi : n * pageSize < v.stop) (hnone : s.ptes n = none)
    (hroom : ∀ i offset pages f, v.backing = .file i offset → m.mem.inodes i = .tmpfs pages →
      pages (wrap (offset + (n * pageSize - v.start)) / pageSize) = some f →
      m.mem.count f + 1 < 2 ^ 32) :
    Quiet p m (m.put p (World.populateNew ⟨s, m.mem⟩ v (n * pageSize) write picks).1) := by
  obtain ⟨own, hm, howned⟩ := @Isolated.moved m p n h
  have hpage : n * pageSize / pageSize = n := Nat.mul_div_cancel n (by decide)
  have hpte : m.pte p n = none := (pte_of_space hs).trans hnone
  have hr := (h.tidy hs).regionAt_eq_some hv hlo hhi
  rw [World.populateNew, hpage]
  split
  · next hb =>
      split
      · rw [put_self hs]
        exact .refl h
      · next f mem hzeroed =>
          obtain ⟨mem', halloc, rfl⟩ := allocZeroedRef_eq_some hzeroed
          have hgot := got_of_alloc h hm hpte halloc .zeroed
          have hfree := (Memory.allocFrameRef_eq_some halloc).1
          have hres : m.mem.reserved f = false := by
            rw [Memory.reserved, hfree, Bool.false_and]
          have hown : Function.update own f [Owner.caller] f = [.caller] :=
            Function.update_self _ _ _
          refine .of_moved h hgot.moved (hgot.moved.mapped hs h hr (hgot.token.imp_right .inl)
            (.inl hgot.shared) (fun _ _ => ⟨hres, fun o ho => .inl ?_⟩)
            (fun hc => absurd hc Bool.false_ne_true) (fun hd => ?_))
          · exact List.mem_singleton.mp (hown ▸ ho)
          · rw [Vma.regionAt, hb] at hd
            exact absurd hd Bool.false_ne_true
  · next base wc hb =>
      have hdevice := h.device p n _ ((regionAt_of_space hs).trans hr)
      rw [Vma.regionAt, hb] at hdevice
      refine .of_moved h hm (hm.mapped hs h hr (.inl hdevice) (.inl (.inl hdevice))
        (fun hpriv _ => ?_) (fun hc => absurd hc Bool.false_ne_true) fun _ => hdevice)
      have hphys := hpriv.2
      rw [Vma.regionAt, hb] at hphys
      exact absurd hphys.symm Bool.false_ne_true
  · next i offset hb =>
      split
      · rw [put_self hs]
        exact .refl h
      · next f mem hget =>
          obtain ⟨own', hgot⟩ := getPage_got h hpte hget fun pages => hroom i offset pages f hb
          refine mapCached_quiet h hs hpte hgot hr rfl ?_
          rw [Vma.regionAt, hb]
          rfl

end Fault

/-- The page of a file that a fault would map has room in its count. -/
def Roomy (mem : Memory) (s : AddressSpace) (addr : Nat) : Prop :=
  ∀ v i offset pages f, s.findVma addr = some v → v.backing = .file i offset →
    mem.inodes i = .tmpfs pages →
    pages (wrap (offset + (addr / pageSize * pageSize - v.start)) / pageSize) = some f →
    mem.count f + 1 < 2 ^ 32

theorem page_mem_region (h : s.Tidy) {addr : Nat} (hfind : s.findVma addr = some v) :
    v ∈ s.vmas ∧ v.start ≤ addr / pageSize * pageSize ∧ addr / pageSize * pageSize < v.stop := by
  obtain ⟨hv, hlo, hhi⟩ := Ranges.Map.mem_of_at? hfind
  have hstart := h.start v hv
  rw [pageSize_eq] at *
  exact ⟨hv, by omega, by omega⟩

theorem populatePage_quiet (h : m.Isolated) (hs : m.spaces p = some s) {addr : Nat}
    (hfind : s.findVma addr = some v) (hroom : Roomy m.mem s addr) :
    Quiet p m (m.put p
      (World.populatePage ⟨s, m.mem⟩ v (addr / pageSize * pageSize) write picks).1) := by
  have hsame : Quiet p m (m.put p ⟨s, m.mem⟩) := by
    rw [put_self hs]
    exact .refl h
  have hpage : addr / pageSize * pageSize / pageSize = addr / pageSize :=
    Nat.mul_div_cancel _ (by decide)
  obtain ⟨hv, hlo, hhi⟩ := page_mem_region (h.tidy hs) hfind
  rw [World.populatePage, hpage]
  split
  · next hnone =>
      exact populateNew_quiet h hs hv hlo hhi hnone fun i offset pages f =>
        hroom v i offset pages f hfind
  · next e he =>
      split
      · split
        · next hcow => exact copyOnWrite_quiet h hs he hcow
        · exact hsame
      · exact hsame

theorem fault_quiet (h : m.Isolated) (hs : m.spaces p = some s) {addr : Nat}
    (hroom : Roomy m.mem s addr) :
    Quiet p m (m.put p (World.fault ⟨s, m.mem⟩ addr write exec picks).1) := by
  have hsame : Quiet p m (m.put p ⟨s, m.mem⟩) := by
    rw [put_self hs]
    exact .refl h
  rw [World.fault]
  split
  · exact hsame
  · next v hfind =>
      split
      · exact hsame
      · split
        · exact hsame
        · split
          · exact hsame
          · exact populatePage_quiet h hs hfind hroom

end Machine

end MindOS.Kernel.Mm
