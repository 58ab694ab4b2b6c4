import MindOS.Kernel.Mm.AddressSpace

/-!
# Regions

## What the regions of an address space show

An address space is looked at through what its regions show at an address, and through the
entries of its page tables. Unmapping a range replaces each region in it by what is left on
either side, so that nothing outside the range is shown differently.
-/

namespace MindOS.Kernel.Mm

open Ranges
open Tmpfs (Page pageSize wrap)

/-- What a region shows at an address. -/
structure Region where
  prot : Prot
  shared : Bool
  backing : Backing
  deriving DecidableEq

def Vma.regionAt (v : Vma) (va : Nat) : Region :=
  ⟨v.prot, v.shared, v.backing.forward (va - v.start)⟩

namespace AddressSpace

def regionAt (s : AddressSpace) (va : Nat) : Option Region :=
  (s.findVma va).map fun v => v.regionAt va

/-- The regions lie apart, are not empty, and are whole pages of the user half. -/
structure Tidy (s : AddressSpace) : Prop where
  apart : Map.Apart Vma.stop s.vmas
  start : ∀ v ∈ s.vmas, pageSize ∣ v.start
  stop : ∀ v ∈ s.vmas, pageSize ∣ v.stop
  user : ∀ v ∈ s.vmas, v.stop ≤ USER_TOP

structure Inv (s : AddressSpace) : Prop extends s.Tidy where
  brk : s.brk ≤ USER_TOP
  hint : pageSize ∣ s.mmapHint

/-- `t` is `s`, but for the pages at the addresses in `P`. -/
structure Within (P : Nat → Prop) (s t : AddressSpace) : Prop where
  region : ∀ va, ¬P va → t.regionAt va = s.regionAt va
  ptes : ∀ va, ¬P va → t.ptes (va / pageSize) = s.ptes (va / pageSize)

variable {s t u : AddressSpace} {v w : Vma} {va addr stop len : Nat} {P Q : Nat → Prop}

theorem Within.refl : Within P s s := ⟨fun _ _ => rfl, fun _ _ => rfl⟩

theorem Within.trans (h : Within P s t) (h' : Within P t u) : Within P s u where
  region va hva := (h'.region va hva).trans (h.region va hva)
  ptes va hva := (h'.ptes va hva).trans (h.ptes va hva)

theorem Within.mono (h : Within P s t) (hPQ : ∀ va, P va → Q va) : Within Q s t where
  region va hva := h.region va fun hP => hva (hPQ va hP)
  ptes va hva := h.ptes va fun hP => hva (hPQ va hP)

/-! ### What is shown where -/

namespace Tidy

theorem regionAt_eq_some (h : s.Tidy) (hv : v ∈ s.vmas) (hlo : v.start ≤ va) (hhi : va < v.stop) :
    s.regionAt va = some (v.regionAt va) := by
  rw [regionAt, findVma, h.apart.at?_eq_some.mpr ⟨hv, hlo, hhi⟩, Option.map_some]

theorem regionAt_eq_none (h : s.Tidy) :
    s.regionAt va = none ↔ ∀ v ∈ s.vmas, v.start ≤ va → v.stop ≤ va := by
  rw [regionAt, Option.map_eq_none_iff, findVma, h.apart.at?_eq_none]

/-- Two maps show the same of `va`, as far as `g` looks, if what holds it in one has a
counterpart in the other. -/
theorem map_regionAt_congr {β : Type} (g : Region → β) (hs : s.Tidy) (ht : t.Tidy)
    (hsome : ∀ v ∈ s.vmas, v.start ≤ va → va < v.stop →
      ∃ w ∈ t.vmas, w.start ≤ va ∧ va < w.stop ∧ g (w.regionAt va) = g (v.regionAt va))
    (hnone : ∀ w ∈ t.vmas, w.start ≤ va → va < w.stop →
      ∃ v ∈ s.vmas, v.start ≤ va ∧ va < v.stop) :
    (t.regionAt va).map g = (s.regionAt va).map g := by
  cases hfind : s.findVma va with
  | none =>
      have hs' : s.regionAt va = none := by rw [regionAt, hfind, Option.map_none]
      have ht' : t.regionAt va = none := ht.regionAt_eq_none.mpr fun w hw hlo => by
        by_contra hhi
        obtain ⟨v, hv, hvlo, hvhi⟩ := hnone w hw hlo (Nat.lt_of_not_le hhi)
        exact absurd (hs.regionAt_eq_none.mp hs' v hv hvlo) (Nat.not_le.mpr hvhi)
      rw [hs', ht']
  | some v =>
      obtain ⟨hv, hlo, hhi⟩ := Map.mem_of_at? hfind
      obtain ⟨w, hw, hwlo, hwhi, heq⟩ := hsome v hv hlo hhi
      rw [hs.regionAt_eq_some hv hlo hhi, ht.regionAt_eq_some hw hwlo hwhi, Option.map_some,
        Option.map_some, heq]

theorem regionAt_congr (hs : s.Tidy) (ht : t.Tidy)
    (hsome : ∀ v ∈ s.vmas, v.start ≤ va → va < v.stop →
      ∃ w ∈ t.vmas, w.start ≤ va ∧ va < w.stop ∧ w.regionAt va = v.regionAt va)
    (hnone : ∀ w ∈ t.vmas, w.start ≤ va → va < w.stop →
      ∃ v ∈ s.vmas, v.start ≤ va ∧ va < v.stop) :
    t.regionAt va = s.regionAt va := by
  have hmap := hs.map_regionAt_congr id ht hsome hnone
  rwa [Option.map_id, id, id] at hmap

end Tidy

/-! ### Pieces of regions -/

@[simp] theorem left_start : (v.left addr).start = v.start := rfl

@[simp] theorem left_stop : (v.left addr).stop = addr := rfl

@[simp] theorem right_start : (v.right addr).start = addr := rfl

@[simp] theorem right_stop : (v.right addr).stop = v.stop := rfl

theorem left_regionAt : (v.left addr).regionAt va = v.regionAt va := rfl

theorem forward_forward (b : Backing) (m n : Nat) :
    (b.forward m).forward n = b.forward (m + n) := by
  have hwrap (a : Nat) : wrap (wrap (a + m) + n) = wrap (a + (m + n)) := by
    rw [wrap, wrap, wrap, Nat.mod_add_mod, Nat.add_assoc]
  cases b with
  | anon => rfl
  | file inode offset => exact congrArg (Backing.file inode) (hwrap offset)
  | phys base wc => exact congrArg (Backing.phys · wc) (hwrap base)

theorem right_regionAt (hstart : v.start ≤ addr) (haddr : addr ≤ va) :
    (v.right addr).regionAt va = v.regionAt va := by
  have hsum : addr - v.start + (va - addr) = va - v.start := by omega
  simp only [Vma.regionAt, Vma.right, forward_forward, hsum]

/-! ### Putting pieces back -/

theorem mem_insert : w ∈ (s.insert v).vmas ↔ w = v ∨ w ∈ s.vmas ∧ w.start ≠ v.start :=
  Map.mem_insert

theorem mem_insertIf {c : Prop} [Decidable c] :
    w ∈ (s.insertIf c v).vmas ↔ c ∧ w = v ∨ w ∈ s.vmas ∧ (c → w.start ≠ v.start) := by
  rw [insertIf]
  split
  · next hc => simp only [mem_insert, hc, true_and, forall_const]
  · next hc => simp only [hc, false_and, false_or, IsEmpty.forall_iff, and_true]

/-- What is in the map after a region was trimmed, if nothing else began at the end of the
range: what was left of it and the other regions. -/
theorem mem_trim (hv : v ∈ s.vmas) (hstop : stop < v.stop → ∀ w ∈ s.vmas, w.start ≠ stop)
    (hle : addr ≤ stop) :
    w ∈ (s.trim v addr stop).vmas ↔ v.start < addr ∧ w = v.left addr ∨
      stop < v.stop ∧ w = v.right stop ∨ w ∈ s.vmas ∧ w ≠ v := by
  have hremove : w ∈ (s.remove v.start).vmas ↔ w ∈ s.vmas ∧ w ≠ v := by
    refine Map.mem_erase.trans (and_congr_right fun hw => not_congr ⟨fun h => ?_, fun h => ?_⟩)
    · exact Map.eq_of_key_eq hw hv h
    · rw [h]
  have hother : w ∈ s.vmas ∧ w ≠ v → w.start ≠ v.start := fun h heq =>
    h.2 (Map.eq_of_key_eq h.1 hv heq)
  rw [trim, mem_insertIf, mem_insertIf, hremove, right_start, left_start]
  constructor
  · rintro (hright | ⟨hleft | ⟨hw, -⟩, -⟩)
    · exact .inr (.inl hright)
    · exact .inl hleft
    · exact .inr (.inr hw)
  · rintro (⟨hlt, rfl⟩ | hright | hw)
    · refine .inr ⟨.inl ⟨hlt, rfl⟩, fun _ => ?_⟩
      rw [left_start]
      omega
    · exact .inl hright
    · exact .inr ⟨.inr ⟨hw, fun _ => hother hw⟩, fun hlt => hstop hlt w hw.1⟩

namespace Tidy

/-- A region reaches over the end of a range, so nothing else begins there. -/
theorem start_ne (h : s.Tidy) (hv : v ∈ s.vmas) (hlo : v.start < stop) (hhi : stop < v.stop) :
    ∀ w ∈ s.vmas, w.start ≠ stop := by
  intro w hw heq
  have hstop := h.apart.le_of_lt hv hw (heq ▸ hlo)
  omega

theorem insertIf_apart {c : Prop} [Decidable c] (h : Map.Apart Vma.stop s.vmas)
    (hne : c → v.start < v.stop)
    (hclear : c → ∀ w ∈ s.vmas, w.start ≠ v.start → w.stop ≤ v.start ∨ v.stop ≤ w.start) :
    Map.Apart Vma.stop (s.insertIf c v).vmas := by
  rw [insertIf]
  split
  · next hc => exact h.insert (hne hc) (hclear hc)
  · exact h

section Trim

variable (h : s.Tidy) (hv : v ∈ s.vmas) (hlo : v.start < stop) (hhi : addr < v.stop)
  (hle : addr ≤ stop)

include h hv hlo hhi hle

theorem trim_apart : Map.Apart Vma.stop (s.trim v addr stop).vmas := by
  have hrest : ∀ w ∈ (s.remove v.start).vmas, w.stop ≤ v.start ∨ v.stop ≤ w.start := by
    intro w hw
    obtain ⟨hws, hne⟩ := Map.mem_erase.mp hw
    exact h.apart.le_or_le hws hv hne
  have hleft := insertIf_apart (c := v.start < addr) (v := v.left addr)
    (h.apart.erase : Map.Apart Vma.stop (s.remove v.start).vmas) id fun _ w hw _ =>
      (hrest w hw).imp_right (hhi.le.trans ·)
  refine insertIf_apart hleft id fun hlt w hw _ => ?_
  rcases mem_insertIf.mp hw with ⟨-, rfl⟩ | ⟨hws, -⟩
  · exact .inl hle
  · exact (hrest w hws).imp_left (·.trans hlo.le)

theorem trim (haddr : pageSize ∣ addr) (hstop : pageSize ∣ stop) :
    (s.trim v addr stop).Tidy := by
  refine ⟨h.trim_apart hv hlo hhi hle, fun w hw => ?_, fun w hw => ?_, fun w hw => ?_⟩ <;>
    rcases (mem_trim hv (fun hlt => h.start_ne hv hlo hlt) hle).mp hw with
      ⟨hlt, rfl⟩ | ⟨hlt, rfl⟩ | ⟨hws, -⟩
  · exact h.start v hv
  · exact hstop
  · exact h.start w hws
  · exact haddr
  · exact h.stop v hv
  · exact h.stop w hws
  · exact hhi.le.trans (h.user v hv)
  · exact h.user v hv
  · exact h.user w hws

/-- Outside the range, and outside the region, nothing has changed. -/
theorem trim_regionAt (haddr : pageSize ∣ addr) (hstop : pageSize ∣ stop)
    (hva : v.start ≤ va → va < v.stop → ¬(addr ≤ va ∧ va < stop)) :
    (s.trim v addr stop).regionAt va = s.regionAt va := by
  have hmem := fun w => @mem_trim s v w addr stop hv (fun hlt => h.start_ne hv hlo hlt) hle
  refine h.regionAt_congr (h.trim hv hlo hhi hle haddr hstop) ?_ ?_
  · intro w hw hwlo hwhi
    by_cases hwv : w = v
    · subst hwv
      have hva := hva hwlo hwhi
      by_cases hlt : va < addr
      · exact ⟨w.left addr, (hmem _).mpr (.inl ⟨by omega, rfl⟩), hwlo, hlt, left_regionAt⟩
      · have hge : stop ≤ va := by omega
        exact ⟨w.right stop, (hmem _).mpr (.inr (.inl ⟨by omega, rfl⟩)), hge, hwhi,
          right_regionAt hlo.le hge⟩
    · exact ⟨w, (hmem w).mpr (.inr (.inr ⟨hw, hwv⟩)), hwlo, hwhi, rfl⟩
  · intro w hw hwlo hwhi
    rcases (hmem w).mp hw with ⟨hlt, rfl⟩ | ⟨hlt, rfl⟩ | ⟨hws, -⟩
    · exact ⟨v, hv, hwlo, Nat.lt_trans hwhi hhi⟩
    · exact ⟨v, hv, hlo.le.trans hwlo, hwhi⟩
    · exact ⟨w, hws, hwlo, hwhi⟩

end Trim

theorem of_vmas (h : s.Tidy) (heq : t.vmas = s.vmas) : t.Tidy := by
  obtain ⟨hapart, hstart, hstop, huser⟩ := h
  rw [← heq] at hapart hstart hstop huser
  exact ⟨hapart, hstart, hstop, huser⟩

end Tidy

theorem regionAt_of_vmas (heq : t.vmas = s.vmas) : t.regionAt va = s.regionAt va := by
  rw [regionAt, regionAt, findVma, findVma, heq]

end AddressSpace

/-! ### Unmapping -/

open AddressSpace

variable {lo hi va addr stop k n : Nat} {v w : Vma} {s : World} {l ks : List Nat}

theorem pageSize_eq : pageSize = 4096 := rfl

theorem dvd_max (hlo : n ∣ lo) (hhi : n ∣ hi) : n ∣ max lo hi := by
  rw [Nat.max_def]
  split
  exacts [hhi, hlo]

theorem dvd_min (hlo : n ∣ lo) (hhi : n ∣ hi) : n ∣ min lo hi := by
  rw [Nat.min_def]
  split
  exacts [hlo, hhi]

theorem mem_pages (hlo : pageSize ∣ lo) (hhi : pageSize ∣ hi) :
    va / pageSize ∈ pages lo hi ↔ lo ≤ va ∧ va < hi := by
  rw [pages, List.mem_range'_1]
  rw [pageSize_eq] at *
  omega

namespace World

theorem foldl_unmapPage_space : (l.foldl unmapPage s).space =
    { s.space with ptes := fun n => if n ∈ l then none else s.space.ptes n } := by
  induction l generalizing s with
  | nil => rfl
  | cons n l ih =>
      have hone : (s.unmapPage n).space =
          { s.space with ptes := Function.update s.space.ptes n none } := by
        rw [unmapPage]
        split
        · next hnone => rw [← hnone, Function.update_eq_self]
        · rfl
      rw [List.foldl_cons, ih, hone]
      refine congrArg (fun ptes => { s.space with ptes := ptes }) (funext fun i => ?_)
      change (if i ∈ l then none else Function.update s.space.ptes n none i) = _
      by_cases hi : i = n
      · rw [hi, Function.update_self, ite_self, if_pos List.mem_cons_self]
      · rw [Function.update_of_ne hi]
        exact if_congr (by rw [List.mem_cons, or_iff_right hi]) rfl rfl

theorem unmapPages_space : (s.unmapPages lo hi).space =
    { s.space with ptes := fun n => if n ∈ pages lo hi then none else s.space.ptes n } :=
  foldl_unmapPage_space

end World

namespace AddressSpace

/-- The addresses of a range. -/
def Span (addr stop va : Nat) : Prop := addr ≤ va ∧ va < stop

/-- A tidy `t` is `s` with nothing changed outside `P`, and the break as it was. -/
structure Changed (P : Nat → Prop) (s t : AddressSpace) : Prop extends Within P s t where
  tidy : t.Tidy
  brk : t.brk = s.brk
  hint : pageSize ∣ s.mmapHint → pageSize ∣ t.mmapHint

namespace Changed

variable {s t u : AddressSpace} {P Q : Nat → Prop}

theorem refl (h : s.Tidy) : Changed P s s := ⟨.refl, h, rfl, id⟩

theorem trans (h : Changed P s t) (h' : Changed P t u) : Changed P s u :=
  ⟨h.toWithin.trans h'.toWithin, h'.tidy, h'.brk.trans h.brk, h'.hint ∘ h.hint⟩

theorem mono (h : Changed P s t) (hPQ : ∀ va, P va → Q va) : Changed Q s t :=
  ⟨h.toWithin.mono hPQ, h.tidy, h.brk, h.hint⟩

end Changed

theorem trim_fields {s : AddressSpace} : (s.trim v addr stop).ptes = s.ptes ∧
    (s.trim v addr stop).brk = s.brk ∧ (s.trim v addr stop).mmapHint = s.mmapHint := by
  rw [trim, insertIf, insertIf]
  split <;> split <;> exact ⟨rfl, rfl, rfl⟩

end AddressSpace

namespace World

theorem cut_of_mem (hv : v ∈ s.space.vmas) : cut addr stop s v.start =
    ({ s with space := s.space.trim v addr stop } : World).unmapPages
      (max v.start addr) (min v.stop stop) := by
  rw [cut, Ranges.Map.get?_eq_some.mpr ⟨hv, rfl⟩]

theorem cut_vmas (hv : v ∈ s.space.vmas) :
    (cut addr stop s v.start).space.vmas = (s.space.trim v addr stop).vmas := by
  rw [cut_of_mem hv, unmapPages_space]

theorem mem_cut_pages (h : s.space.Tidy) (hv : v ∈ s.space.vmas) (haddr : pageSize ∣ addr)
    (hstop : pageSize ∣ stop) : va / pageSize ∈ pages (max v.start addr) (min v.stop stop) ↔
      (v.start ≤ va ∧ va < v.stop) ∧ Span addr stop va := by
  rw [mem_pages (dvd_max (h.start v hv) haddr) (dvd_min (h.stop v hv) hstop), Span]
  omega

theorem cut_ptes (n : Nat) : (cut addr stop s k).space.ptes n = s.space.ptes n ∨
    (cut addr stop s k).space.ptes n = none := by
  rw [cut]
  split
  · exact .inl rfl
  · next v hget =>
      rw [unmapPages_space]
      by_cases hn : n ∈ pages (max v.start addr) (min v.stop stop)
      · exact .inr (if_pos hn)
      · exact .inl ((if_neg hn).trans (congrFun trim_fields.1 n))

theorem foldl_cut_ptes (n : Nat) : (ks.foldl (cut addr stop) s).space.ptes n = s.space.ptes n ∨
    (ks.foldl (cut addr stop) s).space.ptes n = none := by
  induction ks generalizing s with
  | nil => exact .inl rfl
  | cons k ks ih =>
      rw [List.foldl_cons]
      rcases @ih (cut addr stop s k) with heq | hnone
      · rw [heq]
        exact cut_ptes n
      · exact .inr hnone

theorem cut_changed (h : s.space.Tidy) (hv : v ∈ s.space.vmas) (hlo : v.start < stop)
    (hhi : addr < v.stop) (hle : addr ≤ stop) (haddr : pageSize ∣ addr) (hstop : pageSize ∣ stop) :
    Changed (Span addr stop) s.space (cut addr stop s v.start).space := by
  obtain ⟨hptes, hbrk, hhint⟩ := @trim_fields addr stop v s.space
  have htidy := h.trim hv hlo hhi hle haddr hstop
  refine ⟨⟨fun va hva => ?_, fun va hva => ?_⟩, htidy.of_vmas (cut_vmas hv), ?_, fun hdvd => ?_⟩
  · rw [regionAt_of_vmas (cut_vmas hv)]
    exact h.trim_regionAt hv hlo hhi hle haddr hstop fun _ _ => hva
  · have hout : va / pageSize ∉ pages (max v.start addr) (min v.stop stop) := fun hin =>
      hva ((mem_cut_pages h hv haddr hstop).mp hin).2
    rw [cut_of_mem hv, unmapPages_space]
    exact (if_neg hout).trans (congrFun hptes _)
  · rw [cut_of_mem hv, unmapPages_space]
    exact hbrk
  · rw [cut_of_mem hv, unmapPages_space]
    exact hhint.symm ▸ hdvd

/-- The loop over the regions in the range: `ks` are those that are left. -/
theorem foldl_cut (hle : addr ≤ stop) (haddr : pageSize ∣ addr) (hstop : pageSize ∣ stop)
    (h : s.space.Tidy) (hnodup : ks.Nodup) (hlt : ∀ k ∈ ks, k < stop)
    (hks : ∀ v ∈ s.space.vmas, v.start ∈ ks ↔ v.start < stop ∧ addr < v.stop) :
    Changed (Span addr stop) s.space (ks.foldl (cut addr stop) s).space ∧
      (∀ v ∈ (ks.foldl (cut addr stop) s).space.vmas, v.start < stop → v.stop ≤ addr) ∧
      ∀ va, Span addr stop va → s.space.regionAt va ≠ none →
        (ks.foldl (cut addr stop) s).space.ptes (va / pageSize) = none := by
  induction ks generalizing s with
  | nil =>
      have hmiss : ∀ v ∈ s.space.vmas, v.start < stop → v.stop ≤ addr := by
        intro v hv hlo
        by_contra hhi
        exact absurd ((hks v hv).mpr ⟨hlo, Nat.lt_of_not_le hhi⟩) List.not_mem_nil
      refine ⟨.refl h, hmiss, fun va hva hsome => absurd ?_ hsome⟩
      exact h.regionAt_eq_none.mpr fun v hv hlo => (hmiss v hv (hlo.trans_lt hva.2)).trans hva.1
  | cons k ks ih =>
      rw [List.foldl_cons]
      obtain ⟨hk, hrestNodup⟩ := List.nodup_cons.mp hnodup
      have hltks : ∀ k ∈ ks, k < stop := fun k' hk' => hlt k' (List.mem_cons_of_mem k hk')
      by_cases hmem : ∃ v ∈ s.space.vmas, v.start = k
      · obtain ⟨v, hv, rfl⟩ := hmem
        obtain ⟨hlo, hhi⟩ := (hks v hv).mp List.mem_cons_self
        have hcut := cut_changed h hv hlo hhi hle haddr hstop
        have hrest := ih hcut.tidy hrestNodup hltks fun w hw => by
          rw [cut_vmas hv] at hw
          rcases (mem_trim hv (fun hlt => h.start_ne hv hlo hlt) hle).mp hw with
            ⟨-, rfl⟩ | ⟨-, rfl⟩ | ⟨hws, hne⟩
          · exact ⟨fun hin => absurd hin hk, fun hin => absurd hin.2 (lt_irrefl addr)⟩
          · exact ⟨fun hin => absurd (hltks _ hin) (lt_irrefl stop),
              fun hin => absurd hin.1 (lt_irrefl stop)⟩
          · rw [← hks w hws, List.mem_cons, or_iff_right]
            exact fun heq => hne (Ranges.Map.eq_of_key_eq hws hv heq)
        refine ⟨hcut.trans hrest.1, hrest.2.1, fun va hva hsome => ?_⟩
        by_cases hin : v.start ≤ va ∧ va < v.stop
        · have hgone : (cut addr stop s v.start).space.ptes (va / pageSize) = none := by
            rw [cut_of_mem hv, unmapPages_space]
            exact if_pos ((mem_cut_pages h hv haddr hstop).mpr ⟨hin, hva⟩)
          rcases foldl_cut_ptes (va / pageSize) with heq | hnone
          · exact heq.trans hgone
          · exact hnone
        · refine hrest.2.2 va hva ?_
          rw [regionAt_of_vmas (cut_vmas hv), h.trim_regionAt hv hlo hhi hle haddr hstop
            fun hlo' hhi' => absurd ⟨hlo', hhi'⟩ hin]
          exact hsome
      · have hnone : cut addr stop s k = s := by
          rw [cut]
          split
          · rfl
          · next v hget => exact absurd ⟨v, Ranges.Map.get?_eq_some.mp hget⟩ hmem
        rw [hnone]
        refine ih h hrestNodup hltks fun v hv => ?_
        rw [← hks v hv, List.mem_cons, or_iff_right]
        exact fun heq => hmem ⟨v, hv, heq⟩

/-- Unmapping leaves nothing in its range, and no entry of what was there, and all outside. -/
theorem unmapLocked_spec (len : Nat) (h : s.space.Tidy) (hle : addr ≤ wrap (addr + len))
    (haddr : pageSize ∣ addr) (hstop : pageSize ∣ wrap (addr + len)) :
    Changed (Span addr (wrap (addr + len))) s.space (s.unmapLocked addr len).space ∧
      (∀ v ∈ (s.unmapLocked addr len).space.vmas,
        v.start < wrap (addr + len) → v.stop ≤ addr) ∧
      ∀ va, Span addr (wrap (addr + len)) va → s.space.regionAt va ≠ none →
        (s.unmapLocked addr len).space.ptes (va / pageSize) = none := by
  have hkeys : (s.space.vmas.items.map Vma.start).Nodup :=
    List.pairwise_map.mpr (s.space.vmas.sorted.imp fun hlt => hlt.ne)
  refine foldl_cut hle haddr hstop h (hkeys.sublist (List.filter_sublist.map _)) ?_ ?_
  · intro k hk
    obtain ⟨v, hv, rfl⟩ := List.mem_map.mp hk
    exact (of_decide_eq_true (List.mem_filter.mp hv).2 :).1
  · intro v hv
    refine ⟨fun hk => ?_, fun hin => ?_⟩
    · obtain ⟨w, hw, heq⟩ := List.mem_map.mp hk
      obtain ⟨hwm, hin⟩ := List.mem_filter.mp hw
      rw [Ranges.Map.eq_of_key_eq hwm hv heq] at hin
      exact of_decide_eq_true hin
    · exact List.mem_map_of_mem (List.mem_filter.mpr ⟨hv, decide_eq_true hin⟩)

/-- Where no region meets the range there is nothing to do. -/
theorem unmapLocked_of_misses {len : Nat}
    (h : ∀ v ∈ s.space.vmas, v.start < wrap (addr + len) → v.stop ≤ addr) :
    s.unmapLocked addr len = s := by
  have hnone : s.space.affected addr (wrap (addr + len)) = [] := by
    refine List.map_eq_nil_iff.mpr (List.filter_eq_nil_iff.mpr fun v hv hin => ?_)
    obtain ⟨hlo, hhi⟩ := of_decide_eq_true hin
    exact absurd (h v hv hlo) (Nat.not_le.mpr hhi)
  rw [unmapLocked, hnone, List.foldl_nil]

end World

/-!
## Splitting and protecting regions

A change of protection first splits the regions that go across an end of its range, which
shows nothing different, and then changes those that begin inside it.
-/

variable {va addr stop k n : Nat} {v w : Vma} {l ks : List Nat}

namespace AddressSpace

variable {s t : AddressSpace} {a b : Nat} {prot : Prot}

/-- No region goes across `a`. -/
def Border (s : AddressSpace) (a : Nat) : Prop := ∀ v ∈ s.vmas, v.start < a → v.stop ≤ a

theorem splitAt_cases (s : AddressSpace) (a : Nat) :
    s.splitAt a = s ∧ s.findVma a = none ∨
      ∃ v, s.findVma a = some v ∧
        (v.start = a ∧ s.splitAt a = s ∨ v.start ≠ a ∧ s.splitAt a = s.trim v a a) := by
  rw [splitAt]
  cases hfind : s.findVma a with
  | none => exact .inl ⟨rfl, rfl⟩
  | some v =>
      refine .inr ⟨v, rfl, ?_⟩
      by_cases heq : v.start = a
      · exact .inl ⟨heq, if_pos heq⟩
      · obtain ⟨-, hlo, hhi⟩ := Ranges.Map.mem_of_at? hfind
        refine .inr ⟨heq, (if_neg heq).trans ?_⟩
        rw [trim, insertIf, insertIf, if_pos (show v.start < a by omega), if_pos hhi]
        refine congrArg (fun vmas => ({ s with vmas := vmas } : AddressSpace).insert (v.right a)) ?_
        exact (Ranges.Map.insert_erase (m := s.vmas) (a := v.left a)).symm

theorem splitAt_changed (h : s.Tidy) (ha : pageSize ∣ a) : Changed (Span a a) s (s.splitAt a) := by
  rcases s.splitAt_cases a with ⟨heq, -⟩ | ⟨v, hfind, ⟨-, heq⟩ | ⟨hne, heq⟩⟩
  · rw [heq]
    exact .refl h
  · rw [heq]
    exact .refl h
  · obtain ⟨hv, hlo, hhi⟩ := Ranges.Map.mem_of_at? hfind
    obtain ⟨hptes, hbrk, hhint⟩ := @trim_fields a a v s
    have hlt : v.start < a := by omega
    rw [heq]
    refine ⟨⟨fun va hva => ?_, fun va _ => ?_⟩, h.trim hv hlt hhi le_rfl ha ha, hbrk,
      fun hdvd => hhint.symm ▸ hdvd⟩
    · exact h.trim_regionAt hv hlt hhi le_rfl ha ha fun _ _ => hva
    · rw [hptes]

/-- After a split there is a border, and the borders there were remain. -/
theorem splitAt_border (h : s.Tidy) : (s.splitAt a).Border a := by
  rcases s.splitAt_cases a with ⟨heq, hfind⟩ | ⟨v, hfind, ⟨hstart, heq⟩ | ⟨hne, heq⟩⟩
  · rw [heq]
    exact fun w hw hlo => h.apart.at?_eq_none.mp hfind w hw hlo.le
  · rw [heq]
    intro w hw hlo
    rw [← hstart] at hlo ⊢
    exact h.apart.le_of_lt hw (Ranges.Map.mem_of_at? hfind).1 hlo
  · obtain ⟨hv, hlo, hhi⟩ := Ranges.Map.mem_of_at? hfind
    have hlt : v.start < a := by omega
    rw [heq]
    intro w hw hwlo
    rcases (mem_trim hv (fun hlt' => h.start_ne hv hlt hlt') le_rfl).mp hw with
      ⟨-, rfl⟩ | ⟨-, rfl⟩ | ⟨hws, hwv⟩
    · exact le_rfl
    · exact absurd hwlo (lt_irrefl a)
    · by_contra hwhi
      exact hwv (h.apart.unique w hws v hv a hwlo.le (Nat.lt_of_not_le hwhi) hlo hhi)

end AddressSpace

namespace World

variable {s : AddressSpace} {prot : Prot}

/-- What `mprotect` makes of an entry. -/
def reprotect (prot : Prot) (e : Pte) : Pte :=
  { e with writable := prot.write && !e.cow, nx := !prot.exec }

theorem foldl_protectPage : l.foldl (protectPage prot) s =
    { s with ptes := fun n => if n ∈ l then (s.ptes n).map (reprotect prot) else s.ptes n } := by
  induction l generalizing s with
  | nil => rfl
  | cons n l ih =>
      have hone : protectPage prot s n =
          { s with ptes := Function.update s.ptes n ((s.ptes n).map (reprotect prot)) } := by
        rw [protectPage]
        split
        · next hnone => rw [hnone, Option.map_none, ← hnone, Function.update_eq_self]
        · next e hsome => rw [hsome, Option.map_some, reprotect]
      rw [List.foldl_cons, ih, hone]
      refine congrArg (fun ptes => { s with ptes := ptes }) (funext fun i => ?_)
      change (if i ∈ l then
        (Function.update s.ptes n ((s.ptes n).map (reprotect prot)) i).map (reprotect prot)
        else Function.update s.ptes n ((s.ptes n).map (reprotect prot)) i) = _
      by_cases hi : i = n
      · rw [hi, Function.update_self, if_pos List.mem_cons_self, Option.map_map]
        exact ite_self _
      · rw [Function.update_of_ne hi]
        exact if_congr (by rw [List.mem_cons, or_iff_right hi]) rfl rfl

theorem protectVma_of_mem (hv : v ∈ s.vmas) : protectVma prot s v.start =
    (pages v.start v.stop).foldl (protectPage prot) (s.insert { v with prot := prot }) := by
  rw [protectVma, Ranges.Map.get?_eq_some.mpr ⟨hv, rfl⟩]

theorem mem_protectVma (hv : v ∈ s.vmas) : w ∈ (protectVma prot s v.start).vmas ↔
    w = { v with prot := prot } ∨ w ∈ s.vmas ∧ w ≠ v := by
  rw [protectVma_of_mem hv, foldl_protectPage]
  refine mem_insert.trans (or_congr_right (and_congr_right fun hw => not_congr ?_))
  exact ⟨fun heq => Ranges.Map.eq_of_key_eq hw hv heq, fun heq => by rw [heq]⟩

theorem protectVma_changed (h : s.Tidy) (hv : v ∈ s.vmas) :
    Changed (Span v.start v.stop) s (protectVma prot s v.start) := by
  have hmem := fun w => @mem_protectVma v w s prot hv
  have htidy : (protectVma prot s v.start).Tidy := by
    refine ⟨?_, fun w hw => ?_, fun w hw => ?_, fun w hw => ?_⟩
    · rw [protectVma_of_mem hv, foldl_protectPage]
      exact h.apart.insert (h.apart.nonempty v hv) fun w hw hne =>
        h.apart.le_or_le (b := v) hw hv hne
    all_goals rcases (hmem w).mp hw with rfl | ⟨hws, -⟩
    · exact h.start v hv
    · exact h.start w hws
    · exact h.stop v hv
    · exact h.stop w hws
    · exact h.user v hv
    · exact h.user w hws
  have hother : ∀ va, ¬(v.start ≤ va ∧ va < v.stop) →
      (protectVma prot s v.start).regionAt va = s.regionAt va := by
    intro va hva
    refine h.regionAt_congr htidy (fun w hw hlo hhi => ?_) fun w hw hlo hhi => ?_
    · refine ⟨w, (hmem w).mpr (.inr ⟨hw, fun heq => ?_⟩), hlo, hhi, rfl⟩
      rw [heq] at hlo hhi
      exact hva ⟨hlo, hhi⟩
    · rcases (hmem w).mp hw with rfl | ⟨hws, -⟩
      · exact ⟨v, hv, hlo, hhi⟩
      · exact ⟨w, hws, hlo, hhi⟩
  refine ⟨⟨hother, fun va hva => ?_⟩, htidy, ?_, fun hdvd => ?_⟩
  · rw [protectVma_of_mem hv, foldl_protectPage]
    refine if_neg ?_
    rw [mem_pages (h.start v hv) (h.stop v hv)]
    exact hva
  · rw [protectVma_of_mem hv, foldl_protectPage]
    rfl
  · rw [protectVma_of_mem hv, foldl_protectPage]
    exact hdvd

/-- A change of protection that keeps what is mapped where, and grants nothing outside its
range. -/
structure Protected (addr stop : Nat) (prot : Prot) (s t : AddressSpace) : Prop extends
    Changed (Span addr stop) s t where
  kind : ∀ va, (t.regionAt va).map (fun r => (r.shared, r.backing)) =
    (s.regionAt va).map fun r => (r.shared, r.backing)
  entries : ∀ n, t.ptes n = s.ptes n ∨ ∃ e, s.ptes n = some e ∧
    t.ptes n = some (reprotect prot e) ∧ Span addr stop (n * pageSize)

theorem Protected.refl (h : s.Tidy) : Protected addr stop prot s s :=
  ⟨.refl h, fun _ => rfl, fun _ => .inl rfl⟩

theorem Protected.trans {t u : AddressSpace} (h : Protected addr stop prot s t)
    (h' : Protected addr stop prot t u) : Protected addr stop prot s u := by
  refine ⟨h.toChanged.trans h'.toChanged, fun va => (h'.kind va).trans (h.kind va), fun n => ?_⟩
  rcases h'.entries n with heq' | ⟨e', he', hnew', hspan⟩
  · rw [heq']
    exact h.entries n
  · rcases h.entries n with heq | ⟨e, he, hnew, -⟩
    · exact .inr ⟨e', heq.symm.trans he', hnew', hspan⟩
    · obtain rfl := Option.some.inj (he'.symm.trans hnew)
      exact .inr ⟨e, he, hnew', hspan⟩

theorem Protected.mono {stop' : Nat} {t : AddressSpace} (h : Protected addr stop prot s t)
    (hle : stop ≤ stop') : Protected addr stop' prot s t := by
  have hspan : ∀ va, Span addr stop va → Span addr stop' va := fun va hva =>
    ⟨hva.1, hva.2.trans_le hle⟩
  refine ⟨h.toChanged.mono hspan, h.kind, fun n => (h.entries n).imp_right ?_⟩
  rintro ⟨e, he, hnew, hin⟩
  exact ⟨e, he, hnew, hspan _ hin⟩

theorem protected_of_split {a : Nat} {t : AddressSpace} (h : Changed (Span a a) s t) :
    Protected addr stop prot s t := by
  have hnot : ∀ va, ¬Span a a va := fun va hva => absurd hva.2 (Nat.not_lt.mpr hva.1)
  refine ⟨h.mono fun va hva => absurd hva (hnot va), fun va => ?_, fun n => .inl ?_⟩
  · rw [h.region va (hnot va)]
  · have hptes := h.ptes (n * pageSize) (hnot _)
    rwa [Nat.mul_div_cancel n (by decide)] at hptes

theorem protectVma_protected (h : s.Tidy) (hv : v ∈ s.vmas) (hlo : addr ≤ v.start)
    (hhi : v.stop ≤ stop) : Protected addr stop prot s (protectVma prot s v.start) := by
  have hchanged := (@protectVma_changed v s prot h hv).mono fun va hva =>
    (⟨hlo.trans hva.1, hva.2.trans_le hhi⟩ : Span addr stop va)
  have hmem := fun w => @mem_protectVma v w s prot hv
  refine ⟨hchanged, fun va => ?_, fun n => ?_⟩
  · refine h.map_regionAt_congr _ hchanged.tidy (fun w hw hwlo hwhi => ?_) fun w hw hwlo hwhi => ?_
    · by_cases hwv : w = v
      · subst hwv
        exact ⟨{ w with prot := prot }, (hmem _).mpr (.inl rfl), hwlo, hwhi, rfl⟩
      · exact ⟨w, (hmem w).mpr (.inr ⟨hw, hwv⟩), hwlo, hwhi, rfl⟩
    · rcases (hmem w).mp hw with rfl | ⟨hws, -⟩
      · exact ⟨v, hv, hwlo, hwhi⟩
      · exact ⟨w, hws, hwlo, hwhi⟩
  · rw [protectVma_of_mem hv, foldl_protectPage]
    by_cases hn : n ∈ pages v.start v.stop
    · have hpage : n * pageSize / pageSize = n := Nat.mul_div_cancel n (by decide)
      have hin := (mem_pages (h.start v hv) (h.stop v hv)).mp (hpage.symm ▸ hn)
      cases he : s.ptes n with
      | none => exact .inl ((if_pos hn).trans (congrArg (Option.map _) he))
      | some e =>
          refine .inr ⟨e, rfl, (if_pos hn).trans (congrArg (Option.map _) he), ?_⟩
          exact ⟨hlo.trans hin.1, hin.2.trans_le hhi⟩
    · exact .inl (if_neg hn)

/-- What each region in the range makes, the loop over them makes. -/
theorem foldl_protectVma_rec {R : AddressSpace → AddressSpace → Prop}
    (hrefl : ∀ s : AddressSpace, s.Tidy → R s s) (htrans : ∀ s t u, R s t → R t u → R s u)
    (hone : ∀ (s : AddressSpace) (v : Vma), s.Tidy → v ∈ s.vmas → addr ≤ v.start → v.stop ≤ stop →
      R s (protectVma prot s v.start))
    (hks : ∀ k ∈ ks, addr ≤ k ∧ k < stop) (h : s.Tidy)
    (hb : s.Border stop) : R s (ks.foldl (protectVma prot) s) := by
  induction ks generalizing s with
  | nil => exact hrefl s h
  | cons k ks ih =>
      have hrest : ∀ k ∈ ks, addr ≤ k ∧ k < stop := fun i hi => hks i (List.mem_cons_of_mem k hi)
      rw [List.foldl_cons]
      by_cases hmem : ∃ v ∈ s.vmas, v.start = k
      · obtain ⟨v, hv, rfl⟩ := hmem
        obtain ⟨hlo, hhi⟩ := hks v.start List.mem_cons_self
        have htidy := (@protectVma_changed v s prot h hv).tidy
        refine htrans _ _ _ (hone s v h hv hlo (hb v hv hhi)) (ih hrest htidy fun w hw hwlo => ?_)
        rcases (mem_protectVma hv).mp hw with rfl | ⟨hws, -⟩
        · exact hb v hv hwlo
        · exact hb w hws hwlo
      · have hnone : protectVma prot s k = s := by
          rw [protectVma]
          split
          · rfl
          · next v hget => exact absurd ⟨v, Ranges.Map.get?_eq_some.mp hget⟩ hmem
        rw [hnone]
        exact ih hrest h hb

theorem protectRange_rec {R : AddressSpace → AddressSpace → Prop}
    (hrefl : ∀ s : AddressSpace, s.Tidy → R s s) (htrans : ∀ s t u, R s t → R t u → R s u)
    (hone : ∀ (s : AddressSpace) (v : Vma), s.Tidy → v ∈ s.vmas → addr ≤ v.start → v.stop ≤ stop →
      R s (protectVma prot s v.start))
    (h : s.Tidy) (hb : s.Border stop) : R s (protectRange addr stop prot s) := by
  refine foldl_protectVma_rec hrefl htrans hone (fun k hk => ?_) h hb
  obtain ⟨v, hv, rfl⟩ := List.mem_map.mp hk
  exact (Ranges.Map.mem_between.mp hv).2

theorem protectRange_protected (addr : Nat) (prot : Prot) (h : s.Tidy) (hb : s.Border stop) :
    Protected addr stop prot s (protectRange addr stop prot s) :=
  protectRange_rec (fun _ => .refl) (fun _ _ _ => .trans) (fun _ _ => protectVma_protected) h hb

end World

end MindOS.Kernel.Mm
