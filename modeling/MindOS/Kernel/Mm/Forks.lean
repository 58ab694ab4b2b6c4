import MindOS.Kernel.Mm.Faults

/-!
# Writes and forks

## Writes and forks

A write through a private entry goes to a frame that nobody else has. A fork makes a second
holder of each frame of the parent, and takes the right to write from both.
-/

namespace MindOS.Kernel.Mm

open AddressSpace
open Tmpfs (Page pageSize wrap)

namespace Machine

variable {m t u : Machine} {p c n q k f addr : Nat} {s : AddressSpace} {w : World} {e : Pte}
  {r : Region} {v : Vma} {own : Nat → List Owner} {mem : Memory} {o : Owner} {b : UInt8}
  {picks : Picks} {page : Page}

theorem Quiet.trans (h : Quiet p m t) (h' : Quiet p t u) : Quiet p m u :=
  ⟨h'.isolated, fun q va hq => (h'.reads q va hq).trans (h.reads q va hq),
    fun i index o => (h'.cache i index o).trans (h.cache i index o)⟩

/-! ### Writes -/

def fill (m : Machine) (f : Nat) (page : Page) : Machine := { m with mem := m.mem.fill f page }

theorem Isolated.fill (h : m.Isolated) : (m.fill f page).Isolated := by
  have hholds : ∀ o g, (m.fill f page).Holds o g ↔ m.Holds o g := fun o g =>
    @holds_mem g m.mem _ o m.spaces rfl
  refine ⟨?_, h.spaces, fun q k e he => ?_, fun q k r hr => ?_, h.initrd⟩
  · obtain ⟨own, hbooks, howned⟩ := h.books
    exact ⟨own, hbooks.fill page, fun o g hold => howned o g ((hholds o g).mp hold)⟩
  · obtain ⟨r, hr, hentry⟩ := h.entries q k e he
    exact ⟨r, hr, fun hpriv hw => ⟨(hentry.sole hpriv hw).1, fun o hold =>
      (hentry.sole hpriv hw).2 o ((hholds o _).mp hold)⟩, hentry.cow, hentry.device⟩
  · exact (h.device q k r hr).congr fun _ => rfl

/-- What is written to a frame that one page has to itself is read nowhere else. -/
theorem Sole.fill_quiet (h : m.Isolated) (hsole : m.Sole p n f) : Quiet p m (m.fill f page) := by
  have hne : ∀ {g}, m.mem.reserved g = true → g ≠ f := fun hg heq =>
    absurd (hsole.1.symm.trans (heq ▸ hg)) Bool.false_ne_true
  have hcache : ∀ i index o, (m.fill f page).mem.cacheByte i index o =
      m.mem.cacheByte i index o := by
    intro i index o
    refine Memory.cacheByte_congr rfl (fun pages g hi hg => ?_) fun first pages hi hlt => ?_
    · refine Function.update_of_ne (fun heq => ?_) _ _
      subst heq
      cases hsole.2 (.cache i index) ⟨pages, hi, hg⟩
    · exact Function.update_of_ne (hne (h.initrd i first pages index hi hlt)) _ _
  have hdata : ∀ g, g ≠ f → (m.fill f page).mem.data g = m.mem.data g := fun g hg =>
    Function.update_of_ne hg _ _
  have hregion : ∀ q va, (m.fill f page).regionAt q va = m.regionAt q va := fun _ _ => rfl
  have hpte : ∀ q k, (m.fill f page).pte q k = m.pte q k := fun _ _ => rfl
  refine ⟨h.fill, fun q va hq => ?_, hcache⟩
  rw [reads, reads, hregion, hpte]
  cases hr : m.regionAt q (va / pageSize * pageSize) with
  | none => rfl
  | some r =>
      rw [Option.map_some, Option.map_some]
      refine congrArg some ?_
      cases he : m.pte q (va / pageSize) with
      | some e =>
          have hne : e.frame ≠ f := fun heq => by
            cases hsole.2 (.pte q (va / pageSize)) ⟨e, he, heq⟩
            exact hq rfl
          exact congrFun (hdata e.frame hne) _
      | none =>
          have hdevice := h.device q (va / pageSize) r hr
          cases hb : r.backing with
          | anon => rfl
          | file inode offset => exact hcache inode (offset / pageSize) (va % pageSize)
          | phys base wc =>
              rw [hb] at hdevice
              exact congrFun (hdata _ (hne hdevice)) _

/-- A store goes to the frame of an entry that grants it. -/
theorem storeByte_eq (hs : m.spaces p = some s) (hw : w = ⟨s, m.mem⟩) :
    m.put p (w.storeByte addr b) = m ∨
      ∃ e page, m.pte p (addr / pageSize) = some e ∧ e.writable = true ∧
        m.put p (w.storeByte addr b) = m.fill e.frame page := by
  subst hw
  rw [World.storeByte]
  split
  · exact .inl (put_self hs)
  · next e he =>
      split
      · next hwritable =>
          refine .inr ⟨e, Function.update (m.mem.data e.frame) (addr % pageSize) b,
            (pte_of_space hs).trans he, hwritable, ?_⟩
          exact congrArg (Machine.mk · _) ((congrArg _ hs.symm).trans
            (Function.update_eq_self p m.spaces))
      · exact .inl (put_self hs)

theorem storeByte_isolated (h : m.Isolated) (hs : m.spaces p = some s) :
    (m.put p (World.storeByte ⟨s, m.mem⟩ addr b)).Isolated := by
  rcases @storeByte_eq m p addr s _ b hs rfl with heq | ⟨e, page, -, -, heq⟩
  · rw [heq]
    exact h
  · rw [heq]
    exact h.fill

theorem storeByte_quiet (h : m.Isolated) (hs : m.spaces p = some s)
    (hr : s.regionAt (addr / pageSize * pageSize) = some r) (hpriv : r.Private) :
    Quiet p m (m.put p (World.storeByte ⟨s, m.mem⟩ addr b)) := by
  rcases @storeByte_eq m p addr s _ b hs rfl with heq | ⟨e, page, he, hw, heq⟩
  · rw [heq]
    exact .refl h
  · rw [heq]
    obtain ⟨r', hr', hentry⟩ := h.entries p (addr / pageSize) e he
    rw [regionAt_of_space hs, hr] at hr'
    obtain rfl := Option.some.inj hr'
    exact (hentry.sole hpriv hw).fill_quiet h

theorem fault_touched {write exec : Bool} : Touched (addr / pageSize) w.space
    (w.fault addr write exec picks).1.space := by
  rw [World.fault]
  repeat' split
  all_goals first | exact .refl | skip
  have htouched := @World.populatePage_touched (addr / pageSize * pageSize) (by assumption) w picks
    write
  rwa [Nat.mul_div_cancel _ (by decide : 0 < pageSize)] at htouched

theorem put_put {w' : World} : (m.put p w).put p w' = m.put p w' :=
  congrArg (Machine.mk · w'.mem) (Function.update_idem _ _ _)

/-- A write keeps isolation, and one to private memory is noticed by nobody. -/
theorem userWrite_spec (h : m.Isolated) (hs : m.spaces p = some s) (hroom : Roomy m.mem s addr) :
    (m.put p (World.userWrite ⟨s, m.mem⟩ addr b picks)).Isolated ∧
      ∀ r, s.regionAt (addr / pageSize * pageSize) = some r → r.Private →
        Quiet p m (m.put p (World.userWrite ⟨s, m.mem⟩ addr b picks)) := by
  rw [World.userWrite]
  split
  · exact ⟨storeByte_isolated h hs, fun r hr hpriv => storeByte_quiet h hs hr hpriv⟩
  · have hfault := @fault_quiet m p s picks true false h hs addr hroom
    obtain ⟨ptes, hptes⟩ := @fault_touched addr ⟨s, m.mem⟩ picks true false
    split
    · next t e ht =>
        rw [ht] at hfault
        exact ⟨hfault.isolated, fun _ _ _ => hfault⟩
    · next t _ ht =>
        rw [ht] at hfault hptes
        have hspace : (m.put p t).spaces p = some t.space := put_spaces_self
        have hregion : t.space.regionAt (addr / pageSize * pageSize) =
            s.regionAt (addr / pageSize * pageSize) := regionAt_of_vmas (by rw [hptes])
        rw [← @put_put m p t]
        refine ⟨storeByte_isolated hfault.isolated hspace, fun r hr hpriv => ?_⟩
        exact hfault.trans (storeByte_quiet hfault.isolated hspace (hregion.trans hr) hpriv)

end Machine

/-!
## Forks

A fork makes a second holder of each frame of the parent, page by page, and takes the right
to write to a private page from both. The counts of the frames must have room for it.
-/

namespace Machine

variable {m : Machine} {p c n q k f va : Nat} {s s' sc : AddressSpace} {e e' : Pte}
  {r : Region} {v : Vma} {o : Owner}

/-! ### Entries of a process that is there -/

theorem spaces_setPte (hs : m.spaces p = some s) : (m.setPte p n e).spaces =
    Function.update m.spaces p (some { s with ptes := Function.update s.ptes n (some e) }) := by
  rw [setPte, hs, Option.map_some]

theorem pte_setPte (hs : m.spaces p = some s) :
    (m.setPte p n e).pte q k = if q = p ∧ k = n then some e else m.pte q k :=
  (pte_map hs : (m.put p (World.mapPage ⟨s, m.mem⟩ n e)).pte q k = _) ▸ by
    rw [pte, pte, spaces_setPte hs]; rfl

theorem regionAt_setPte (hs : m.spaces p = some s) :
    (m.setPte p n e).regionAt q va = m.regionAt q va :=
  (regionAt_map hs : (m.put p (World.mapPage ⟨s, m.mem⟩ n e)).regionAt q va = _) ▸ by
    rw [Machine.regionAt, Machine.regionAt, spaces_setPte hs]; rfl

theorem spaces_setPte_of_ne (h : q ≠ p) : (m.setPte p n e).spaces q = m.spaces q :=
  Function.update_of_ne h _ _

theorem forkPte_cases (v : Vma) (e : Pte) :
    (v.shared = false ∧ v.backing.isPhys = false ∧
      v.forkPte e = { e with writable := false, cow := true }) ∨
    (v.forkPte e = e ∧
      (v.shared = false → v.backing.isPhys = false → e.writable = false)) := by
  rw [Vma.forkPte]
  split
  · next hkeep =>
      refine .inr ⟨rfl, fun hshared hphys => ?_⟩
      rw [hshared, hphys] at hkeep
      exact absurd hkeep Bool.false_ne_true
  · next hpriv =>
      rw [Bool.not_eq_true, Bool.or_eq_false_iff] at hpriv
      split
      · exact .inl ⟨hpriv.1, hpriv.2, rfl⟩
      · next hw => exact .inr ⟨rfl, fun _ _ => Bool.eq_false_iff.mpr hw⟩

theorem forkPte_frame : (v.forkPte e).frame = e.frame := by
  rcases forkPte_cases v e with ⟨-, -, heq⟩ | ⟨heq, -⟩
  · rw [heq]
  · rw [heq]

/-- The entry that a fork leaves lets no one write to private memory. -/
theorem forkPte_entry {m' : Machine} (hentry : m.Entry q k r e) (hshared : v.shared = r.shared)
    (hphys : v.backing.isPhys = r.backing.isPhys)
    (hres : ∀ f, m'.mem.reserved f = m.mem.reserved f) (q' k' : Nat) :
    m'.Entry q' k' r (v.forkPte e) := by
  have hdevice : r.backing.isPhys = true → m'.mem.reserved (v.forkPte e).frame = true := by
    rw [forkPte_frame, hres]
    exact hentry.device
  rcases forkPte_cases v e with ⟨hs, hp, heq⟩ | ⟨heq, hnot⟩
  · refine ⟨fun _ hw => ?_, fun _ => ⟨by rw [heq], hshared ▸ hs, hphys ▸ hp⟩, hdevice⟩
    rw [heq] at hw
    exact absurd hw Bool.false_ne_true
  · refine ⟨fun hpriv hw => ?_, fun hc => ?_, hdevice⟩
    · rw [heq, hnot (hshared.trans hpriv.1) (hphys.trans hpriv.2)] at hw
      exact absurd hw Bool.false_ne_true
    · rw [heq] at hc ⊢
      exact hentry.cow hc

/-! ### One page -/

theorem forkPage_mem (he : m.pte p n = some e) :
    (forkPage p c m (v, n)).mem = m.mem.refInc e.frame := by
  rw [forkPage]
  simp only [he]
  rfl

section ForkPage

variable (hs : m.spaces p = some s) (hc : m.spaces c = some sc) (hpc : c ≠ p)

include hs hc hpc

theorem forkPage_pte (he : m.pte p n = some e) : (forkPage p c m (v, n)).pte q k =
    if k = n ∧ (q = p ∨ q = c) then some (v.forkPte e) else m.pte q k := by
  have hc' : (m.setPte p n (v.forkPte e)).spaces c = some sc := by
    rw [spaces_setPte_of_ne hpc, hc]
  have hpte : (forkPage p c m (v, n)).pte q k =
      ((m.setPte p n (v.forkPte e)).setPte c n (v.forkPte e)).pte q k := by
    rw [forkPage]
    simp only [he]
    rfl
  rw [hpte, pte_setPte hc', pte_setPte hs]
  by_cases hk : k = n <;> by_cases hq : q = p <;> by_cases hq' : q = c <;> simp [hk, hq, hq']

theorem forkPage_regionAt : (forkPage p c m (v, n)).regionAt q va = m.regionAt q va := by
  rw [forkPage]
  split
  · rfl
  · next e he =>
      have hc' : (m.setPte p n (v.forkPte e)).spaces c = some sc := by
        rw [spaces_setPte_of_ne hpc, hc]
      exact (regionAt_setPte hc').trans (regionAt_setPte hs)

theorem forkPage_holds (he : m.pte p n = some e) (hold : (forkPage p c m (v, n)).Holds o f) :
    o = .pte c n ∧ f = e.frame ∨ m.Holds o f := by
  cases o with
  | pte q k =>
      obtain ⟨e', he', rfl⟩ := hold
      rw [forkPage_pte hs hc hpc he] at he'
      split at he'
      · next hand =>
          obtain ⟨rfl, hq⟩ := hand
          cases he'
          rw [forkPte_frame]
          rcases hq with rfl | rfl
          · exact .inr ⟨e, he, rfl⟩
          · exact .inl ⟨rfl, rfl⟩
      · exact .inr ⟨e', he', rfl⟩
  | cache i index =>
      obtain ⟨pages, hi, hindex⟩ := hold
      rw [forkPage_mem he, Memory.refInc_inodes] at hi
      exact .inr ⟨pages, hi, hindex⟩
  | caller => exact hold.elim

/-- The spaces of parent and child keep their regions. -/
theorem forkPage_spaces : ∃ s' sc', (forkPage p c m (v, n)).spaces p = some s' ∧
    (forkPage p c m (v, n)).spaces c = some sc' ∧ s'.vmas = s.vmas ∧ sc'.vmas = sc.vmas ∧
    (s.Inv → s'.Inv) ∧ (sc.Inv → sc'.Inv) ∧
    ∀ q, q ≠ p → q ≠ c → (forkPage p c m (v, n)).spaces q = m.spaces q := by
  rw [forkPage]
  split
  · exact ⟨s, sc, hs, hc, rfl, rfl, id, id, fun _ _ _ => rfl⟩
  · next e he =>
      have hc' : (m.setPte p n (v.forkPte e)).spaces c = some sc := by
        rw [spaces_setPte_of_ne hpc, hc]
      have hinv : ∀ {t : AddressSpace} {ptes}, t.Inv →
        ({ t with ptes := ptes } : AddressSpace).Inv :=
        fun ht => ⟨ht.toTidy.of_vmas rfl, ht.brk, ht.hint⟩
      refine ⟨{ s with ptes := Function.update s.ptes n (some (v.forkPte e)) },
        { sc with ptes := Function.update sc.ptes n (some (v.forkPte e)) }, ?_, ?_, rfl, rfl,
        hinv, hinv, fun q hq hqc => ?_⟩
      · change ((m.setPte p n _).setPte c n _).spaces p = _
        rw [spaces_setPte_of_ne hpc.symm, spaces_setPte hs, Function.update_self]
      · change ((m.setPte p n _).setPte c n _).spaces c = _
        rw [spaces_setPte hc', Function.update_self]
      · change ((m.setPte p n _).setPte c n _).spaces q = _
        rw [spaces_setPte_of_ne hqc, spaces_setPte_of_ne hq]

end ForkPage

theorem Isolated.forkPage (h : m.Isolated) (hs : m.spaces p = some s) (hc : m.spaces c = some sc)
    (hpc : c ≠ p) (hvmas : sc.vmas = s.vmas) (hv : v ∈ s.vmas) (hlo : v.start ≤ n * pageSize)
    (hhi : n * pageSize < v.stop)
    (hroom : ∀ e, m.pte p n = some e → m.mem.count e.frame + 1 < 2 ^ 32) :
    (forkPage p c m (v, n)).Isolated := by
  cases he : m.pte p n with
  | none =>
      rw [Machine.forkPage]
      simp only [he]
      exact h
  | some e =>
      have hlt := hroom e he
      have hmem := forkPage_mem (c := c) (v := v) he
      have hreserved : ∀ f, (Machine.forkPage p c m (v, n)).mem.reserved f = m.mem.reserved f :=
        fun f => by rw [hmem, Memory.reserved_refInc hlt]
      have hholds := fun o f => @forkPage_holds m p c n f s sc e v o hs hc hpc he
      obtain ⟨r, hr, hentry⟩ := h.entries p n e he
      have hr' := hr
      rw [regionAt_of_space hs, (h.tidy hs).regionAt_eq_some hv hlo hhi] at hr'
      obtain rfl := Option.some.inj hr'
      have hforked : ∀ q, (Machine.forkPage p c m (v, n)).Entry q n (v.regionAt (n * pageSize))
          (v.forkPte e) := fun q => by
        refine forkPte_entry hentry rfl ?_ hreserved q n
        cases hb : v.backing <;> rw [Vma.regionAt, hb] <;> rfl
      refine ⟨?_, fun q t ht => ?_, fun q k e' he' => ?_, fun q k r' hr' => ?_,
        fun i first pages index hi hin => ?_⟩
      · obtain ⟨own, hbooks, howned⟩ := h.books
        by_cases hzero : m.mem.count e.frame = 0
        · rw [hmem, Memory.refInc_of_reserved hzero]
          refine ⟨own, hbooks, fun o f hold => ?_⟩
          rw [hreserved]
          rcases hholds o f hold with ⟨rfl, rfl⟩ | hold
          · refine (howned (.pte p n) e.frame ⟨e, he, rfl⟩).imp_right fun hin => ?_
            rw [hbooks.own_of_count hzero] at hin
            exact absurd hin List.not_mem_nil
          · exact howned o f hold
        · rw [hmem]
          refine ⟨_, hbooks.refInc hzero hlt (.pte c n), fun o f hold => ?_⟩
          rw [hreserved]
          rcases hholds o f hold with ⟨rfl, rfl⟩ | hold
          · rw [Function.update_self]
            exact .inr List.mem_cons_self
          · refine (howned o f hold).imp_right fun hin => ?_
            by_cases heq : f = e.frame
            · subst heq
              rw [Function.update_self]
              exact List.mem_cons_of_mem _ hin
            · rwa [Function.update_of_ne heq]
      · obtain ⟨s', sc', hs', hc', -, -, hinv, hinvc, hother⟩ :=
          @forkPage_spaces m p c n s sc v hs hc hpc
        by_cases hq : q = p
        · subst hq
          cases hs'.symm.trans ht
          exact hinv (h.spaces q s hs)
        · by_cases hqc : q = c
          · subst hqc
            cases hc'.symm.trans ht
            exact hinvc (h.spaces q sc hc)
          · exact h.spaces q t ((hother q hq hqc).symm.trans ht)
      · rw [forkPage_regionAt hs hc hpc]
        rw [forkPage_pte hs hc hpc he] at he'
        split at he'
        · next hand =>
            obtain ⟨rfl, hq⟩ := hand
            cases he'
            refine ⟨_, ?_, hforked q⟩
            rcases hq with rfl | rfl
            · exact hr
            · rw [regionAt_of_space hc, regionAt_of_vmas hvmas, ← regionAt_of_space hs, hr]
        · next hand =>
            obtain ⟨r', hr', hentry'⟩ := h.entries q k e' he'
            refine ⟨r', hr', fun hpriv hw => ?_, hentry'.cow, fun hd => ?_⟩
            · obtain ⟨hres, hsole⟩ := hentry'.sole hpriv hw
              refine ⟨(hreserved _).trans hres, fun o hold => ?_⟩
              rcases hholds o _ hold with ⟨-, hf⟩ | hold
              · cases hsole (.pte p n) ⟨e, he, hf.symm⟩
                exact absurd ⟨rfl, .inl rfl⟩ hand
              · exact hsole o hold
            · exact (hreserved _).trans (hentry'.device hd)
      · rw [forkPage_regionAt hs hc hpc] at hr'
        exact (h.device q k r' hr').congr hreserved
      · rw [hmem, Memory.refInc_inodes] at hi
        exact (hreserved _).trans (h.initrd i first pages index hi hin)

/-! ### All pages -/

/-- How many of the pages to visit have the frame `f`. -/
def mapsOf (s : AddressSpace) (f : Nat) (visits : List (Vma × Nat)) : Nat :=
  (visits.filter fun visit => (s.ptes visit.2).any fun e => e.frame == f).length

/-- The counts of the frames have room for the visits that are left. -/
def RoomFor (mem : Memory) (s : AddressSpace) (visits : List (Vma × Nat)) : Prop :=
  ∀ f, mem.count f ≠ 0 → mem.count f + mapsOf s f visits < 2 ^ 32

theorem frame_forkPage (hs : m.spaces p = some s) (hc : m.spaces c = some sc) (hpc : c ≠ p)
    (k : Nat) : ((forkPage p c m (v, n)).pte p k).map Pte.frame = (m.pte p k).map Pte.frame := by
  cases he : m.pte p n with
  | none =>
      rw [forkPage]
      simp only [he]
  | some e =>
      rw [forkPage_pte hs hc hpc he]
      split
      · next hand => rw [hand.1, he, Option.map_some, Option.map_some, forkPte_frame]
      · rfl

theorem mapsOf_cons (f : Nat) (visit : Vma × Nat) (l : List (Vma × Nat)) :
    mapsOf s f (visit :: l) =
      mapsOf s f l + if (s.ptes visit.2).map Pte.frame = some f then 1 else 0 := by
  rw [mapsOf, mapsOf, List.filter_cons]
  cases s.ptes visit.2 with
  | none => rfl
  | some e =>
      rw [Option.any_some, Option.map_some]
      by_cases heq : e.frame = f
      · rw [if_pos (beq_iff_eq.mpr heq), if_pos (congrArg some heq), List.length_cons]
      · rw [if_neg fun hb => heq (eq_of_beq hb), if_neg fun hb => heq (Option.some.inj hb)]
        rfl

theorem count_forkPage (he : m.pte p n = some e) (hlt : m.mem.count e.frame + 1 < 2 ^ 32) :
    (forkPage p c m (v, n)).mem.count f ≤ m.mem.count f + (if e.frame = f then 1 else 0) ∧
      ((forkPage p c m (v, n)).mem.count f ≠ 0 → m.mem.count f ≠ 0) := by
  rw [forkPage_mem he]
  by_cases hzero : m.mem.count e.frame = 0
  · rw [Memory.refInc_of_reserved hzero]
    exact ⟨Nat.le_add_right _ _, id⟩
  · rw [Memory.refInc_of_ne hzero hlt]
    by_cases heq : f = e.frame
    · subst heq
      simp only [Function.update_self, if_true]
      exact ⟨le_rfl, fun _ => hzero⟩
    · simp only [Function.update_of_ne heq]
      exact ⟨Nat.le_add_right _ _, id⟩

theorem foldl_forkPage {l : List (Vma × Nat)} (h : m.Isolated) (hs : m.spaces p = some s')
    (hc : m.spaces c = some sc) (hpc : c ≠ p) (hvmas : s'.vmas = s.vmas) (hcvmas : sc.vmas = s.vmas)
    (hframe : ∀ k, (m.pte p k).map Pte.frame = (s.ptes k).map Pte.frame)
    (hl : ∀ visit ∈ l, visit.1 ∈ s.vmas ∧ visit.1.start ≤ visit.2 * pageSize ∧
      visit.2 * pageSize < visit.1.stop)
    (hroom : RoomFor m.mem s l) : (l.foldl (forkPage p c) m).Isolated := by
  induction l generalizing m s' sc with
  | nil => exact h
  | cons visit l ih =>
      obtain ⟨v, n⟩ := visit
      obtain ⟨hv, hlo, hhi⟩ := hl (v, n) List.mem_cons_self
      obtain ⟨t, tc, ht, htc, htv, htcv, -, -, -⟩ := @forkPage_spaces m p c n s' sc v hs hc hpc
      have hlt : ∀ e, m.pte p n = some e → m.mem.count e.frame + 1 < 2 ^ 32 := by
        intro e he
        by_cases hzero : m.mem.count e.frame = 0
        · rw [hzero]
          decide
        · have hlt := hroom e.frame hzero
          rw [mapsOf_cons, if_pos (by rw [← hframe, he, Option.map_some])] at hlt
          omega
      have hone := h.forkPage hs hc hpc (hcvmas.trans hvmas.symm) (hvmas ▸ hv) hlo hhi hlt
      rw [List.foldl_cons]
      refine ih hone ht htc (htv.trans hvmas) (htcv.trans hcvmas)
        (fun k => (frame_forkPage hs hc hpc k).trans (hframe k))
        (fun visit hin => hl visit (List.mem_cons_of_mem _ hin)) fun f hf => ?_
      cases he : m.pte p n with
      | none =>
          have hsame : forkPage p c m (v, n) = m := by
            rw [forkPage]
            simp only [he]
          rw [hsame] at hf ⊢
          have hlt := hroom f hf
          rw [mapsOf_cons] at hlt
          omega
      | some e =>
          obtain ⟨hle, hne⟩ := @count_forkPage m p c n f e v he (hlt e he)
          have hlt := hroom f (hne hf)
          rw [mapsOf_cons, ← hframe, he, Option.map_some] at hlt
          simp only [Option.some.injEq] at hlt
          omega

theorem mem_visits (h : s.Tidy) {visit : Vma × Nat} (hin : visit ∈ visits s) :
    visit.1 ∈ s.vmas ∧ visit.1.start ≤ visit.2 * pageSize ∧ visit.2 * pageSize < visit.1.stop := by
  obtain ⟨v, hv, hin⟩ := List.mem_flatMap.mp hin
  obtain ⟨n, hn, rfl⟩ := List.mem_map.mp hin
  have hpage : n * pageSize / pageSize = n := Nat.mul_div_cancel n (by decide)
  exact ⟨hv, (mem_pages (h.start v hv) (h.stop v hv)).mp (hpage.symm ▸ hn)⟩

/-- The child begins with the regions of its parent and without an entry. -/
theorem Isolated.child (h : m.Isolated) (hs : m.spaces p = some s) (hc : m.spaces c = none) :
    (m.put c ⟨{ s with ptes := fun _ => none }, m.mem⟩).Isolated := by
  have hinv := h.spaces p s hs
  have hnone : ∀ k, m.pte c k = none := fun k => by rw [pte, hc, Option.bind_none]
  have hpte : ∀ q k, (m.put c ⟨{ s with ptes := fun _ => none }, m.mem⟩).pte q k = m.pte q k := by
    intro q k
    by_cases hq : q = c
    · rw [hq, pte_put_self, hnone]
    · exact pte_put_of_ne hq
  have hholds : ∀ o f, (m.put c ⟨{ s with ptes := fun _ => none }, m.mem⟩).Holds o f ↔
      m.Holds o f := by
    intro o f
    cases o with
    | pte q k => rw [Holds, Holds, hpte]
    | cache i index => exact Iff.rfl
    | caller => exact Iff.rfl
  refine ⟨?_, fun q t ht => ?_, fun q k e he => ?_, fun q k r hr => ?_, h.initrd⟩
  · obtain ⟨own, hbooks, howned⟩ := h.books
    exact ⟨own, hbooks, fun o f hold => howned o f ((hholds o f).mp hold)⟩
  · by_cases hq : q = c
    · subst hq
      rw [put_spaces_self] at ht
      cases ht
      exact ⟨hinv.toTidy.of_vmas rfl, hinv.brk, hinv.hint⟩
    · rw [put_spaces_of_ne hq] at ht
      exact h.spaces q t ht
  · rw [hpte] at he
    obtain ⟨r, hr, hentry⟩ := h.entries q k e he
    have hq : q ≠ c := fun hq => by
      rw [hq, hnone] at he
      cases he
    refine ⟨r, (regionAt_put_of_ne hq).trans hr, fun hpriv hw => ?_, hentry.cow, hentry.device⟩
    exact ⟨(hentry.sole hpriv hw).1, fun o hold =>
      (hentry.sole hpriv hw).2 o ((hholds o _).mp hold)⟩
  · by_cases hq : q = c
    · rw [hq, regionAt_put_self] at hr
      exact h.device p k r ((regionAt_of_space hs).trans hr)
    · rw [regionAt_put_of_ne hq] at hr
      exact h.device q k r hr

theorem Isolated.fork (h : m.Isolated) (hs : m.spaces p = some s) (hc : m.spaces c = none)
    (hroom : RoomFor m.mem s (visits s)) {t : Machine} (ht : m.fork p c = some t) : t.Isolated := by
  have hpc : c ≠ p := fun heq => by
    rw [heq, hs] at hc
    cases hc
  rw [Machine.fork, hs, Option.map_some] at ht
  cases ht
  have hp : (Function.update m.spaces c (some { s with ptes := fun _ => none })) p = some s :=
    (Function.update_of_ne hpc.symm _ _).trans hs
  refine foldl_forkPage (h.child hs hc) hp (Function.update_self _ _ _) hpc rfl rfl (fun k => ?_)
    (fun visit => mem_visits (h.tidy hs)) hroom
  rw [pte_of_space hp]

end Machine

end MindOS.Kernel.Mm
