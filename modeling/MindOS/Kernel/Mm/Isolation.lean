import MindOS.Kernel.Mm.Forks

/-!
# Private memory

## Mapping and protecting keep frames apart

A new mapping drops the entries of what was in its place and gives none. A change of
protection gives the right to write to entries that may not have it: where one of a private
region has a frame that is held elsewhere, it is no longer kept apart.
-/

namespace MindOS.Kernel.Mm

open AddressSpace
open Tmpfs (Page pageSize wrap)

namespace Machine

variable {m : Machine} {p n addr len : Nat} {s t : AddressSpace} {w : World} {l : List Nat}
  {prot : Prot} {flags : MapFlags} {backing : Backing}

/-- Process `p` has dropped some of its entries, with their references. -/
structure Loosened (p : Nat) (m : Machine) (s : AddressSpace) (w : World) : Prop where
  books : ∃ own, Books own w.mem ∧ Owned own (m.put p w)
  reserved : w.mem.reserved = m.mem.reserved
  inodes : w.mem.inodes = m.mem.inodes
  ptes : ∀ n e, w.space.ptes n = some e → s.ptes n = some e

namespace Loosened

theorem refl (h : m.Isolated) (hs : m.spaces p = some s) : Loosened p m s ⟨s, m.mem⟩ := by
  obtain ⟨own, hbooks, howned⟩ := h.books
  refine ⟨⟨own, hbooks, ?_⟩, rfl, rfl, fun _ _ => id⟩
  rwa [put_self hs]

theorem of_ptes (hl : Loosened p m s w) (ht : t.ptes = w.space.ptes) :
    Loosened p m s { w with space := t } := by
  obtain ⟨own, hbooks, howned⟩ := hl.books
  refine ⟨⟨own, hbooks, fun o f hold => howned o f ?_⟩, hl.reserved, hl.inodes, fun n e he =>
    hl.ptes n e (ht ▸ he)⟩
  cases o with
  | pte q k =>
      obtain ⟨e, he, hf⟩ := hold
      refine ⟨e, ?_, hf⟩
      by_cases hq : q = p
      · subst hq
        rw [pte_put_self] at he ⊢
        rwa [← ht]
      · rw [pte_put_of_ne hq] at he ⊢
        exact he
  | cache i index => exact hold
  | caller => exact hold

theorem unmapPage (hl : Loosened p m s w) : Loosened p m s (w.unmapPage n) := by
  rw [World.unmapPage]
  split
  · exact hl
  · next e he =>
      obtain ⟨own, hbooks, howned⟩ := hl.books
      have hpage : (m.put p w).Holds (.pte p n) e.frame := ⟨e, pte_put_self.trans he, rfl⟩
      refine ⟨⟨_, hbooks.refDec (howned _ _ hpage), fun o f hold => ?_⟩,
        Memory.reserved_refDec.trans hl.reserved, Memory.refDec_inodes.trans hl.inodes,
        fun k e' he' => hl.ptes k e' ?_⟩
      · have hkept : o ≠ .pte p n ∧ (m.put p w).Holds o f := by
          cases o with
          | pte q k =>
              obtain ⟨e', he', hf⟩ := hold
              by_cases hq : q = p
              · subst hq
                rw [pte_put_self] at he'
                have hk : k ≠ n := fun hk => by
                  rw [hk] at he'
                  cases (Function.update_self n _ _).symm.trans he'
                refine ⟨fun heq => hk (Owner.pte.inj heq).2, e', ?_, hf⟩
                exact pte_put_self.trans ((Function.update_of_ne hk _ _).symm.trans he')
              · rw [pte_put_of_ne hq] at he'
                exact ⟨fun heq => hq (Owner.pte.inj heq).1, e', (pte_put_of_ne hq).trans he', hf⟩
          | cache i index =>
              obtain ⟨pages, hi, hindex⟩ := hold
              rw [put_mem, Memory.refDec_inodes] at hi
              exact ⟨Owner.noConfusion, pages, hi, hindex⟩
          | caller => exact hold.elim
        change (w.mem.refDec e.frame).reserved f = true ∨ _
        rw [Memory.reserved_refDec]
        refine (howned o f hkept.2).imp_right fun hin => ?_
        by_cases heq : f = e.frame
        · subst heq
          rw [Function.update_self]
          exact (List.mem_erase_of_ne hkept.1).mpr hin
        · rwa [Function.update_of_ne heq]
      · by_cases hk : k = n
        · subst hk
          cases (Function.update_self k _ _).symm.trans he'
        · exact (Function.update_of_ne hk _ _).symm.trans he'

theorem unmapPages (hl : Loosened p m s w) (lo hi : Nat) :
    Loosened p m s (w.unmapPages lo hi) := by
  rw [World.unmapPages]
  induction pages lo hi generalizing w with
  | nil => exact hl
  | cons n l ih => exact ih hl.unmapPage

theorem unmapLocked (hl : Loosened p m s w) : Loosened p m s (w.unmapLocked addr len) := by
  rw [World.unmapLocked]
  induction w.space.affected addr (wrap (addr + len)) generalizing w with
  | nil => exact hl
  | cons k ks ih =>
      refine ih ?_
      rw [World.cut]
      split
      · exact hl
      · exact (hl.of_ptes trim_fields.1).unmapPages _ _

theorem mmap (hl : Loosened p m s w) :
    Loosened p m s (w.mmap addr len prot flags backing).1 := by
  rw [World.mmap]
  split
  · exact hl
  · split
    · rw [World.mmapFixed]
      split
      · exact hl
      · split
        · exact hl
        · exact hl.unmapLocked.of_ptes rfl
    · rw [World.mmapHinted]
      split
      · exact hl.of_ptes rfl
      · split
        · exact hl
        · exact hl.of_ptes rfl

/-- Frames stay apart if an entry that remains is shown as it was. -/
theorem isolated (h : m.Isolated) (hs : m.spaces p = some s) (hl : Loosened p m s w)
    (hinv : w.space.Inv)
    (hregion : ∀ n e, w.space.ptes n = some e →
      w.space.regionAt (n * pageSize) = s.regionAt (n * pageSize))
    (hdevice : ∀ n r, w.space.regionAt (n * pageSize) = some r → r.backing.OnDevice m.mem) :
    (m.put p w).Isolated := by
  have hreserved : ∀ f, w.mem.reserved f = m.mem.reserved f := congrFun hl.reserved
  have hpte : ∀ q k e, (m.put p w).pte q k = some e → m.pte q k = some e := by
    intro q k e he
    by_cases hq : q = p
    · subst hq
      exact (pte_of_space hs).trans (hl.ptes k e (pte_put_self.symm.trans he))
    · exact (pte_put_of_ne hq).symm.trans he
  have hholds : ∀ o f, (m.put p w).Holds o f → m.Holds o f := by
    intro o f hold
    cases o with
    | pte q k =>
        obtain ⟨e, he, hf⟩ := hold
        exact ⟨e, hpte q k e he, hf⟩
    | cache i index =>
        obtain ⟨pages, hi, hindex⟩ := hold
        exact ⟨pages, (congrFun hl.inodes i).symm.trans hi, hindex⟩
    | caller => exact hold
  refine ⟨hl.books, fun q u hu => ?_, fun q k e he => ?_, fun q k r hr => ?_,
    fun i first pages index hi hlt => ?_⟩
  · by_cases hq : q = p
    · subst hq
      rw [put_spaces_self] at hu
      cases hu
      exact hinv
    · exact h.spaces q u ((put_spaces_of_ne hq).symm.trans hu)
  · obtain ⟨r, hr, hentry⟩ := h.entries q k e (hpte q k e he)
    refine ⟨r, ?_, fun hpriv hw => ?_, hentry.cow, fun hd => (hreserved _).trans (hentry.device hd)⟩
    · by_cases hq : q = p
      · subst hq
        rw [regionAt_put_self, hregion k e (pte_put_self.symm.trans he), ← regionAt_of_space hs, hr]
      · rw [regionAt_put_of_ne hq, hr]
    · exact ⟨(hreserved _).trans (hentry.sole hpriv hw).1, fun o hold =>
        (hentry.sole hpriv hw).2 o (hholds o _ hold)⟩
  · refine Backing.OnDevice.congr ?_ hreserved
    by_cases hq : q = p
    · subst hq
      exact hdevice k r (regionAt_put_self.symm.trans hr)
    · exact h.device q k r ((regionAt_put_of_ne hq).symm.trans hr)
  · exact (hreserved _).trans
      (h.initrd i first pages index ((congrFun hl.inodes i).symm.trans hi) hlt)

end Loosened

/-- A mapping of a device is of frames that are the device's. -/
def DeviceSound (mem : Memory) (backing : Backing) (len : Nat) : Prop :=
  ∀ i < len, pageSize ∣ i → (backing.forward i).OnDevice mem

theorem mmap_isolated (h : m.Isolated) (hs : m.spaces p = some s)
    (hsound : s.MapSound addr len flags) (hdevice : DeviceSound m.mem backing (roundUp len)) :
    (m.put p (World.mmap ⟨s, m.mem⟩ addr len prot flags backing).1).Isolated := by
  have hinv := h.spaces p s hs
  have hmapped := World.mmap_mapped (s := ⟨s, m.mem⟩) addr len prot flags backing hinv hsound
  have hl : Loosened p m s (World.mmap ⟨s, m.mem⟩ addr len prot flags backing).1 :=
    (Loosened.refl h hs).mmap
  refine hl.isolated h hs (hmapped.changed.kept hinv).inv (fun n e he => ?_) fun n r hr => ?_
  · obtain ⟨r, hr, -⟩ := h.entries p n e ((pte_of_space hs).trans (hl.ptes n e he))
    rw [regionAt_of_space hs] at hr
    refine hmapped.kept (n * pageSize) (fun hnone => ?_) fun hnone => ?_
    · rw [Nat.mul_div_cancel n (by decide), he] at hnone
      cases hnone
    · cases hr.symm.trans hnone
  · rcases hmapped.shown (n * pageSize) r hr with hold | ⟨a, ha, hva, hbacking⟩
    · exact h.device p n r ((regionAt_of_space hs).trans hold)
    · rw [hbacking]
      have hlo := hva.1
      have hhi := hva.2
      exact hdevice _ (by omega) (Nat.dvd_sub (Nat.dvd_mul_left pageSize n) ha)

/-! ### Protection -/

/-- An entry of a private region that would get the right to write has its frame to itself. -/
def ProtectSound (m : Machine) (p addr stop : Nat) (prot : Prot) : Prop :=
  prot.write = true → ∀ n e r, Span addr stop (n * pageSize) → m.pte p n = some e →
    m.regionAt p (n * pageSize) = some r → r.Private → e.cow = false → e.writable = false →
    m.Sole p n e.frame

theorem protected_isolated (h : m.Isolated) (hs : m.spaces p = some s) (hmem : w.mem = m.mem)
    {stop : Nat} (hp : World.Protected addr stop prot s w.space)
    (hsound : m.ProtectSound p addr stop prot) : (m.put p w).Isolated := by
  have hkind : ∀ q va, ((m.put p w).regionAt q va).map (fun r => (r.shared, r.backing)) =
      (m.regionAt q va).map fun r => (r.shared, r.backing) := by
    intro q va
    by_cases hq : q = p
    · subst hq
      rw [regionAt_put_self, regionAt_of_space hs]
      exact hp.kind va
    · rw [regionAt_put_of_ne hq]
  have hpte : ∀ q k e', (m.put p w).pte q k = some e' → ∃ e, m.pte q k = some e ∧
      (e' = e ∨ q = p ∧ e' = World.reprotect prot e ∧ Span addr stop (k * pageSize)) := by
    intro q k e' he'
    by_cases hq : q = p
    · subst hq
      rw [pte_put_self] at he'
      rcases hp.entries k with heq | ⟨e, he, hnew, hspan⟩
      · exact ⟨e', (pte_of_space hs).trans (heq.symm.trans he'), .inl rfl⟩
      · exact ⟨e, (pte_of_space hs).trans he,
          .inr ⟨rfl, Option.some.inj (he'.symm.trans hnew), hspan⟩⟩
    · exact ⟨e', (pte_put_of_ne hq).symm.trans he', .inl rfl⟩
  have hholds : ∀ o f, (m.put p w).Holds o f → m.Holds o f := by
    intro o f hold
    cases o with
    | pte q k =>
        obtain ⟨e', he', hf⟩ := hold
        obtain ⟨e, he, rfl | ⟨-, rfl, -⟩⟩ := hpte q k e' he'
        · exact ⟨e', he, hf⟩
        · exact ⟨e, he, hf⟩
    | cache i index =>
        obtain ⟨pages, hi, hindex⟩ := hold
        rw [put_mem, hmem] at hi
        exact ⟨pages, hi, hindex⟩
    | caller => exact hold
  have hsole : ∀ {q k f}, m.Sole q k f → (m.put p w).Sole q k f := fun hsole =>
    ⟨by rw [put_mem, hmem]; exact hsole.1, fun o hold => hsole.2 o (hholds o _ hold)⟩
  refine ⟨?_, fun q u hu => ?_, fun q k e' he' => ?_, fun q k r' hr' => ?_, ?_⟩
  · obtain ⟨own, hbooks, howned⟩ := h.books
    rw [put_mem, hmem]
    refine ⟨own, hbooks, fun o f hold => ?_⟩
    rw [put_mem, hmem]
    exact howned o f (hholds o f hold)
  · by_cases hq : q = p
    · subst hq
      rw [put_spaces_self] at hu
      cases hu
      exact (hp.toChanged.kept (h.spaces q s hs)).inv
    · exact h.spaces q u ((put_spaces_of_ne hq).symm.trans hu)
  · obtain ⟨e, he, hor⟩ := hpte q k e' he'
    obtain ⟨r, hr, hentry⟩ := h.entries q k e he
    have heq := hkind q (k * pageSize)
    rw [hr, Option.map_some] at heq
    obtain ⟨r', hr', hsame⟩ := Option.map_eq_some_iff.mp heq
    obtain ⟨hshared, hbacking⟩ := Prod.mk.inj hsame
    have hpriv : r'.Private → r.Private := fun hpriv =>
      ⟨hshared.symm.trans hpriv.1, by rw [← hbacking]; exact hpriv.2⟩
    have hdevice : r'.backing.isPhys = true → (m.put p w).mem.reserved e.frame = true := by
      rw [put_mem, hmem, hbacking]
      exact hentry.device
    have hprivate : r.Private → r'.Private := fun hpriv =>
      ⟨hshared.trans hpriv.1, by rw [hbacking]; exact hpriv.2⟩
    refine ⟨r', hr', ?_⟩
    rcases hor with rfl | ⟨rfl, rfl, hspan⟩
    · exact ⟨fun hr hw => hsole (hentry.sole (hpriv hr) hw),
        fun hc => (hentry.cow hc).imp_right hprivate, hdevice⟩
    · refine ⟨fun hr' hw => hsole ?_, fun hc => ?_, hdevice⟩
      · obtain ⟨hwrite, hcow⟩ := Bool.and_eq_true_iff.mp hw
        rw [Bool.not_eq_true'] at hcow
        cases hwritable : e.writable with
        | true => exact hentry.sole (hpriv hr') hwritable
        | false => exact hsound hwrite k e r hspan he hr (hpriv hr') hcow hwritable
      · have hc : e.cow = true := hc
        refine ⟨?_, hprivate (hentry.cow hc).2⟩
        rw [World.reprotect, hc, Bool.not_true, Bool.and_false]
  · have heq := hkind q (k * pageSize)
    rw [hr', Option.map_some] at heq
    obtain ⟨r, hr, hsame⟩ := Option.map_eq_some_iff.mp heq.symm
    obtain ⟨-, hbacking⟩ := Prod.mk.inj hsame
    rw [put_mem, hmem, ← hbacking]
    exact h.device q k r hr
  · rw [put_mem, hmem]
    exact h.initrd

end Machine

/-!
## Private memory is private

No write through a private mapping is read by another process or in the page cache. It is
kept where a change of protection gives the right to write only to frames that one page has to
itself, where devices are mapped to their own frames, and where nothing wraps.
-/

open AddressSpace Transition

namespace Machine

variable {m t : Machine} {p : Nat} {s : AddressSpace} {f : World → Option World}

/-- Before any page was touched: the files have frames of their own, and each is counted. -/
structure Fresh (m : Machine) : Prop where
  spaces : ∀ p s, m.spaces p = some s → s.Inv ∧ ∀ n, s.ptes n = none
  device : ∀ p n r, m.regionAt p (n * pageSize) = some r → r.backing.OnDevice m.mem
  used : ∀ f, m.mem.count f ≠ 0 → m.mem.used f = true
  counted : ∀ o f, m.Holds o f → m.mem.count f ≠ 0
  alone : ∀ o o' f, m.Holds o f → m.Holds o' f → o' = o
  initrd : ∀ i first pages index, m.mem.inodes i = .initrd first pages → index < pages →
    m.mem.reserved (first + index) = true

theorem Fresh.isolated (h : m.Fresh) : m.Isolated := by
  classical
  have hnone : ∀ p n, m.pte p n = none := fun p n => by
    cases hs : m.spaces p with
    | none => rw [pte, hs, Option.bind_none]
    | some s => rw [pte_of_space hs, (h.spaces p s hs).2 n]
  let own : Nat → List Owner := fun f => if hf : ∃ o, m.Holds o f then [hf.choose] else []
  have hown : ∀ f (hf : ∃ o, m.Holds o f), own f = [hf.choose] := fun f hf => dif_pos hf
  refine ⟨⟨own, ⟨fun f => ?_, h.used⟩, fun o f hold => .inr ?_⟩, fun p s hs => (h.spaces p s hs).1,
    fun p n e he => ?_, h.device, h.initrd⟩
  · by_cases hf : ∃ o, m.Holds o f
    · rw [hown f hf]
      exact Nat.one_le_iff_ne_zero.mpr (h.counted _ f hf.choose_spec)
    · rw [show own f = [] from dif_neg hf]
      exact Nat.zero_le _
  · have hf : ∃ o, m.Holds o f := ⟨o, hold⟩
    rw [hown f hf]
    exact List.mem_singleton.mpr (h.alone _ _ f hf.choose_spec hold)
  · rw [hnone] at he
    cases he

theorem on_eq_some (ht : m.on p f = some t) :
    ∃ s w, m.spaces p = some s ∧ f ⟨s, m.mem⟩ = some w ∧ t = m.put p w := by
  obtain ⟨s, hs, hw⟩ := Option.bind_eq_some_iff.mp ht
  obtain ⟨w, hf, rfl⟩ := Option.map_eq_some_iff.mp hw
  exact ⟨s, w, hs, hf, rfl⟩

end Machine

namespace Act

open Machine

/-- What keeps frames apart, in the state in which a process acts. -/
def Sound (m : Machine) : Act → Prop
  | mmap p addr len _ flags backing => ∀ s, m.spaces p = some s →
      s.MapSound addr.toNat len.toNat flags ∧ DeviceSound m.mem backing (roundUp len.toNat)
  | fault p addr _ _ _ => ∀ s, m.spaces p = some s → Roomy m.mem s addr.toNat
  | fork p _ => ∀ s, m.spaces p = some s → RoomFor m.mem s (visits s)
  | mprotect p addr len prot =>
      m.ProtectSound p addr.toNat (addr.toNat + alignUp len.toNat) prot
  | write p addr _ _ => (∀ s, m.spaces p = some s → Roomy m.mem s addr.toNat) ∧
      ∀ r, m.regionAt p (addr.toNat / pageSize * pageSize) = some r → r.shared = false →
        r.backing.isPhys = false

/-- A write to private memory changes neither what other processes read nor any file. -/
def Good (m : Machine) (a : Act) (t : Machine) : Prop :=
  match a with
  | write p addr _ _ => ∀ r, m.regionAt p (addr.toNat / pageSize * pageSize) = some r →
      r.shared = false → (∀ q va, q ≠ p → t.reads q va = m.reads q va) ∧
        ∀ i index o, t.mem.cacheByte i index o = m.mem.cacheByte i index o
  | _ => True

variable {m t : Machine} {a : Act}

theorem isolated_of_sound (h : m.Isolated) (hstep : m.step a = some t) (hsound : Sound m a) :
    t.Isolated := by
  cases a with
  | mmap p addr len prot flags backing =>
      rw [step] at hstep
      obtain ⟨s, w, hs, hw, rfl⟩ := on_eq_some hstep
      cases hw
      exact mmap_isolated h hs (hsound s hs).1 (hsound s hs).2
  | fault p addr write exec picks =>
      rw [step] at hstep
      obtain ⟨s, w, hs, hw, rfl⟩ := on_eq_some hstep
      cases hw
      exact (fault_quiet h hs (hsound s hs)).isolated
  | fork p c =>
      rw [step] at hstep
      split at hstep
      · cases hstep
      · next hc =>
          rw [Bool.not_eq_true, Option.isSome_eq_false_iff, Option.isNone_iff_eq_none] at hc
          have hfork := hstep
          obtain ⟨s, hs, -⟩ := Option.map_eq_some_iff.mp hstep
          exact h.fork hs hc (hsound s hs) hfork
  | mprotect p addr len prot =>
      rw [step] at hstep
      obtain ⟨s, w, hs, hw, rfl⟩ := on_eq_some hstep
      obtain ⟨u, hu, rfl⟩ := Option.map_eq_some_iff.mp hw
      obtain ⟨hmem, hp⟩ := World.mprotect_protected (h.tidy hs) hu
      exact protected_isolated h hs hmem hp hsound
  | write p addr b picks =>
      rw [step] at hstep
      obtain ⟨s, w, hs, hw, rfl⟩ := on_eq_some hstep
      cases hw
      exact (userWrite_spec h hs (hsound.1 s hs)).1

theorem good_of_sound (h : m.Isolated) (hstep : m.step a = some t) (hsound : Sound m a) :
    Good m a t := by
  cases a with
  | write p addr b picks =>
      rw [step] at hstep
      obtain ⟨s, w, hs, hw, rfl⟩ := on_eq_some hstep
      cases hw
      intro r hr hshared
      have hspec := @userWrite_spec m p addr.toNat s b picks h hs (hsound.1 s hs)
      have hquiet := hspec.2 r ((regionAt_of_space hs).symm.trans hr)
        ⟨hshared, hsound.2 r hr hshared⟩
      exact ⟨hquiet.reads, hquiet.cache⟩
  | _ => trivial

/-- In a run that keeps frames apart, private writes stay private. -/
theorem private_of_sound (m : Machine) (acts : List Act) (h : m.Fresh)
    (hsound : Along step (fun m a _ => Sound m a) m acts) : Along step Good m acts :=
  Along.imp Isolated (fun _ _ _ => isolated_of_sound) (fun _ _ _ => good_of_sound) h.isolated hsound

/-- Two processes that have mapped nothing, and a file with one page, which holds ones. -/
def twoProcesses : Machine where
  spaces p := if p < 2 then some {} else none
  mem :=
    { used := fun f => f == 5
      count := fun f => if f = 5 then 1 else 0
      data := fun _ _ => 1
      inodes := fun i => if i = 0 then
        .tmpfs fun index => if index = 0 then some 5 else none
      else .other }

theorem twoProcesses_space {p : Nat} {s : AddressSpace} (hs : twoProcesses.spaces p = some s) :
    s = {} := by
  change (if p < 2 then some {} else none) = some s at hs
  split at hs
  · exact (Option.some.inj hs).symm
  · cases hs

theorem twoProcesses_holds {o : Owner} {f : Nat} (hold : twoProcesses.Holds o f) :
    o = .cache 0 0 ∧ f = 5 := by
  cases o with
  | pte p n =>
      obtain ⟨e, he, -⟩ := hold
      obtain ⟨s, hs, he⟩ := Option.bind_eq_some_iff.mp he
      rw [twoProcesses_space hs] at he
      cases he
  | cache i index =>
      obtain ⟨pages, hi, hf⟩ := hold
      change (if i = 0 then Inode.tmpfs fun index => if index = 0 then some 5 else none
        else .other) = .tmpfs pages at hi
      split at hi
      · next hi0 =>
          cases hi
          change (if index = 0 then some 5 else none) = some f at hf
          split at hf
          · next hindex =>
              cases hf
              exact ⟨by rw [hi0, hindex], rfl⟩
          · cases hf
      · cases hi
  | caller => exact hold.elim

theorem twoProcesses_fresh : twoProcesses.Fresh := by
  have hcount : ∀ f, twoProcesses.mem.count f ≠ 0 ↔ f = 5 := fun f => by
    change (if f = 5 then 1 else 0) ≠ 0 ↔ f = 5
    split <;> simp [*]
  refine ⟨fun p s hs => ?_, fun p n r hr => ?_, fun f hf => ?_, fun o f hold => ?_,
    fun o o' f hold hold' => ?_, fun i first pages index hi _ => ?_⟩
  · rw [twoProcesses_space hs]
    exact ⟨Call.empty_inv (Nat.zero_le _), fun _ => rfl⟩
  · obtain ⟨s, hs, hr⟩ := Option.bind_eq_some_iff.mp hr
    rw [twoProcesses_space hs] at hr
    cases hr
  · rw [(hcount f).mp hf]
    rfl
  · exact (hcount f).mpr (twoProcesses_holds hold).2
  · rw [(twoProcesses_holds hold).1, (twoProcesses_holds hold').1]
  · change (if i = 0 then _ else Inode.other) = _ at hi
    split at hi <;> cases hi

/-- A private mapping of the file. -/
def mapFile (write : Bool) : Act :=
  mmap 0 0x10000 0x1000 ⟨true, write, false⟩ ⟨true, false, false⟩ (.file 0 0)

theorem private_of_sound_copied : Along step Good twoProcesses
    [mapFile true, write 0 0x10000 7 ⟨none, some 6⟩] := by
  refine private_of_sound twoProcesses _ twoProcesses_fresh fun t ht => ?_
  cases ht
  refine ⟨fun s _ => ⟨⟨by decide, fun _ => by decide⟩, fun _ _ _ => trivial⟩, fun t ht => ?_⟩
  cases ht
  refine ⟨⟨fun s _ v i offset pages f _ _ _ _ => ?_, fun r hr _ => ?_⟩, trivial⟩
  · change (if f = 5 then 1 else 0) + 1 < 2 ^ 32
    split <;> decide
  · obtain rfl : r = ⟨⟨true, true, false⟩, false, .file 0 0⟩ := by
      rw [← Option.some.inj hr]
      decide
    rfl

/-- A page of the file is mapped for reading, and `mprotect` makes it writable. -/
theorem not_always_private : ¬∀ (m : Machine) (acts : List Act), m.Fresh →
    Along step Good m acts := by
  intro hall
  have hrun := hall twoProcesses [mapFile false, fault 0 0x10000 false false ⟨none, none⟩,
    mprotect 0 0x10000 0x1000 ⟨true, true, false⟩, write 0 0x10000 7 ⟨none, none⟩]
    twoProcesses_fresh
  have hgood := ((((hrun _ rfl).2 _ rfl).2 _ rfl).2 _ rfl).1
  have hcache := (hgood ⟨⟨true, true, false⟩, false, .file 0 0⟩ (by decide) rfl).2 0 0 0
  revert hcache
  decide

end Act

end MindOS.Kernel.Mm
