import Mathlib.Data.List.Nodup
import MindOS.Kernel.Mm.OwnReads

/-!
# What a resize in place keeps

Cutting a range and extending it keep what is read of the rest, also where the sums wrap.
-/

namespace MindOS.Kernel.Mm

open AddressSpace Machine Ranges
open Tmpfs (Page pageSize wrap)

variable {addr stop va n : Nat} {v : Vma}

/-! ### What is read -/

namespace World

variable {w w' : World}

/-- What a process may read at an address. -/
def readable (w : World) (va : Nat) : Option UInt8 :=
  (w.space.regionAt (va / pageSize * pageSize)).bind fun r =>
    if r.prot.read then some (w.shows r (va / pageSize) (va % pageSize)) else none

theorem readable_eq_some {b : UInt8} : w.readable va = some b ↔
    ∃ r, w.space.regionAt (va / pageSize * pageSize) = some r ∧ r.prot.read = true ∧
      w.shows r (va / pageSize) (va % pageSize) = b := by
  rw [readable, Option.bind_eq_some_iff]
  refine exists_congr fun r => and_congr_right fun _ => ?_
  cases r.prot.read with
  | true => simp
  | false => simp

/-- What is read is the same where the region, the entry and what frames and files hold is. -/
theorem readable_congr (hregion : w'.space.regionAt (va / pageSize * pageSize) =
      w.space.regionAt (va / pageSize * pageSize))
    (hpte : w'.space.ptes (va / pageSize) = w.space.ptes (va / pageSize))
    (hmem : Memory.Lowered w.mem w'.mem) : w'.readable va = w.readable va := by
  rw [readable, readable, hregion]
  refine congrArg (Option.bind _) (funext fun r => ?_)
  have hshows : w'.shows r (va / pageSize) = w.shows r (va / pageSize) := by
    rw [shows, shows, hpte, hmem.data]
    cases w.space.ptes (va / pageSize) with
    | some e => rfl
    | none => exact funext fun o => hmem.backingByte r.backing
  rw [hshows]

end World

/-! ### Unmapping a range that wraps -/

namespace AddressSpace

variable {s : AddressSpace}

theorem regionAt_of_last (hlast : s.vmas.last (fun w => decide (w.start ≤ va)) = some v)
    (hva : va < v.stop) : s.regionAt va = some (v.regionAt va) := by
  rw [AddressSpace.regionAt, findVma, Map.at?, hlast, Option.filter_some,
    if_pos (decide_eq_true hva), Option.map_some]

/-- A region that is cut at its end and put in again from before that end on shows the same. -/
theorem trim_regionAt_of_le (h : s.Tidy) (hv : v ∈ s.vmas) (hlo : v.start < stop)
    (hle : stop ≤ addr) (hhi : addr < v.stop) (va : Nat) :
    (s.trim v addr stop).regionAt va = s.regionAt va := by
  have hleft : v.start < addr := hlo.trans_le hle
  have hright : stop < v.stop := hle.trans_lt hhi
  have hother : ∀ w ∈ s.vmas, w ≠ v → w.stop ≤ v.start ∨ v.stop ≤ w.start := fun w hw hne =>
    h.apart.le_or_le hw hv fun hkey => hne (Map.eq_of_key_eq hw hv hkey)
  have hmem : ∀ w, w ∈ (s.trim v addr stop).vmas ↔
      w = v.left addr ∨ w = v.right stop ∨ w ∈ s.vmas ∧ w ≠ v := by
    intro w
    rw [AddressSpace.trim, mem_insertIf, mem_insertIf]
    constructor
    · rintro (⟨-, rfl⟩ | ⟨⟨-, rfl⟩ | ⟨hw, -⟩, -⟩)
      · exact .inr (.inl rfl)
      · exact .inl rfl
      · obtain ⟨hws, hne⟩ := Map.mem_erase.mp hw
        exact .inr (.inr ⟨hws, fun heq => hne (congrArg Vma.start heq)⟩)
    · rintro (rfl | rfl | ⟨hw, hne⟩)
      · exact .inr ⟨.inl ⟨hleft, rfl⟩, fun _ => hlo.ne⟩
      · exact .inl ⟨hright, rfl⟩
      · have hkey : w.start ≠ v.start := fun hkey => hne (Map.eq_of_key_eq hw hv hkey)
        exact .inr ⟨.inr ⟨Map.mem_erase.mpr ⟨hw, hkey⟩, fun _ => hkey⟩,
          fun hlt => h.start_ne hv hlo hlt w hw⟩
  have hstart : ∀ w ∈ s.vmas, w ≠ v → v.start ≤ w.start → v.stop ≤ w.start := fun w hw hne hle => by
    have hnonempty := h.apart.nonempty w hw
    rcases hother w hw hne with hbefore | hafter
    · omega
    · exact hafter
  by_cases hbelow : va < v.start
  · -- what comes into question is the same
    have hlast : (s.trim v addr stop).vmas.last (fun w => decide (w.start ≤ va)) =
        s.vmas.last fun w => decide (w.start ≤ va) := by
      refine Map.last_congr fun w hw => ?_
      have hw := of_decide_eq_true hw
      rw [hmem]
      constructor
      · rintro (rfl | rfl | ⟨hws, -⟩)
        · exact absurd hw (Nat.not_le.mpr hbelow)
        · exact absurd hw (Nat.not_le.mpr (hbelow.trans hlo))
        · exact hws
      · exact fun hws => .inr (.inr ⟨hws, fun heq => by
          rw [heq] at hw
          exact absurd hw (Nat.not_le.mpr hbelow)⟩)
    rw [AddressSpace.regionAt, AddressSpace.regionAt, findVma, findVma, Map.at?, Map.at?, hlast]
  rw [Nat.not_lt] at hbelow
  have hlate : ∀ w ∈ s.vmas, w ≠ v → va < v.stop → w.start ≤ va → w.start ≤ v.start :=
    fun w hw hne hva hle => by
      by_contra hlt
      have := hstart w hw hne (Nat.le_of_not_le hlt)
      omega
  by_cases hstop : va < v.stop
  · rw [h.regionAt_eq_some hv hbelow hstop]
    by_cases hva : va < stop
    · -- what is left of the region before the start of the range
      refine regionAt_of_last (v := v.left addr) (Map.last_eq_some.mpr ⟨(hmem _).mpr (.inl rfl),
        decide_eq_true hbelow, fun w hw hle => ?_⟩) (hva.trans_le hle)
      have hle := of_decide_eq_true hle
      rcases (hmem w).mp hw with rfl | rfl | ⟨hws, hne⟩
      · exact le_rfl
      · exact absurd hle (Nat.not_le.mpr hva)
      · exact hlate w hws hne hstop hle
    · rw [Nat.not_lt] at hva
      rw [← right_regionAt hlo.le hva]
      refine regionAt_of_last (Map.last_eq_some.mpr ⟨(hmem _).mpr (.inr (.inl rfl)),
        decide_eq_true hva, fun w hw hle => ?_⟩) hstop
      have hle := of_decide_eq_true hle
      rcases (hmem w).mp hw with rfl | rfl | ⟨hws, hne⟩
      · exact hlo.le
      · exact le_rfl
      · exact (hlate w hws hne hstop hle).trans hlo.le
  · -- behind the region, which does not reach there before or after
    rw [Nat.not_lt] at hstop
    cases hlast : s.vmas.last (fun w => decide (w.start ≤ va)) with
    | none => exact absurd hbelow (of_decide_eq_false (Map.last_eq_none.mp hlast v hv))
    | some u =>
        obtain ⟨hu, hule, hmax⟩ := Map.last_eq_some.mp hlast
        have hvu : v.start ≤ u.start := hmax v hv (decide_eq_true hbelow)
        by_cases huv : u = v
        · subst huv
          have hlast' : (s.trim u addr stop).vmas.last (fun w => decide (w.start ≤ va)) =
              some (u.right stop) := by
            refine Map.last_eq_some.mpr ⟨(hmem _).mpr (.inr (.inl rfl)),
              decide_eq_true (hright.le.trans hstop), fun w hw hle => ?_⟩
            rcases (hmem w).mp hw with rfl | rfl | ⟨hws, -⟩
            · exact hlo.le
            · exact le_rfl
            · exact (hmax w hws hle).trans hlo.le
          have hnone : ∀ w : Vma, w.stop = u.stop → (some w).filter (va < ·.stop) = none :=
            fun w hw => by
              rw [Option.filter_some, if_neg (by simpa [hw] using hstop)]
          rw [AddressSpace.regionAt, AddressSpace.regionAt, findVma, findVma, Map.at?, Map.at?,
            hlast, hlast', hnone u rfl, hnone (u.right stop) rfl]
        · have hlast' : (s.trim v addr stop).vmas.last (fun w => decide (w.start ≤ va)) =
              some u := by
            have hustart := hstart u hu huv hvu
            refine Map.last_eq_some.mpr ⟨(hmem _).mpr (.inr (.inr ⟨hu, huv⟩)), hule,
              fun w hw hle => ?_⟩
            rcases (hmem w).mp hw with rfl | rfl | ⟨hws, -⟩
            · exact hvu
            · exact hright.le.trans hustart
            · exact hmax w hws hle
          rw [AddressSpace.regionAt, AddressSpace.regionAt, findVma, findVma, Map.at?, Map.at?,
            hlast, hlast']

end AddressSpace

namespace World

variable {s t : World} {len src oldLen newLen : Nat}

/-- A range whose end wraps to below its start takes nothing away: it cuts the region that reaches
over both, and puts in its end again. -/
theorem unmapLocked_of_le (h : s.space.Tidy) (hle : wrap (addr + len) ≤ addr) :
    (∀ va, (s.unmapLocked addr len).space.regionAt va = s.space.regionAt va) ∧
      (s.unmapLocked addr len).space.ptes = s.space.ptes ∧
      (s.unmapLocked addr len).mem = s.mem := by
  by_cases hmiss : ∀ v ∈ s.space.vmas, v.start < wrap (addr + len) → v.stop ≤ addr
  · rw [unmapLocked_of_misses hmiss]
    exact ⟨fun _ => rfl, rfl, rfl⟩
  rw [not_forall] at hmiss
  obtain ⟨v, hv⟩ := hmiss
  rw [Classical.not_imp, Classical.not_imp, Nat.not_le] at hv
  obtain ⟨hv, hlo, hhi⟩ := hv
  have haffected : s.space.affected addr (wrap (addr + len)) = [v.start] := by
    have hnodup : s.space.vmas.items.Nodup := s.space.vmas.sorted.imp fun hlt heq => by
      rw [heq] at hlt
      exact lt_irrefl _ hlt
    have honly : s.space.vmas.items.filter (fun w => w.start < wrap (addr + len) ∧ addr < w.stop) =
        s.space.vmas.items.filter (fun w => w = v) := by
      refine List.filter_congr fun w hw => decide_eq_decide.mpr ⟨fun ⟨hwlo, hwhi⟩ => ?_, ?_⟩
      · exact h.apart.unique w hw v hv addr (by omega) hwhi (by omega) hhi
      · rintro rfl
        exact ⟨hlo, hhi⟩
    rw [affected, honly, List.filter_eq, List.count_eq_one_of_mem hnodup hv]
    rfl
  have hpages : pages (max v.start addr) (min v.stop (wrap (addr + len))) = [] := by
    rw [pages, Nat.sub_eq_zero_of_le (by omega)]
    rfl
  rw [unmapLocked, haffected, List.foldl_cons, List.foldl_nil, cut_of_mem hv, unmapPages, hpages]
  exact ⟨trim_regionAt_of_le h hv hlo hle hhi, trim_fields.1, rfl⟩

/-! ### Resizing in place -/

/-- What is read of the first bytes of a range is read of those of another one afterwards. -/
def Keeps (s : World) (src len : Nat) (t : World) (dst : Nat) : Prop :=
  ∀ i < len, ∀ b, s.readable (src + i) = some b → t.readable (dst + i) = some b

/-- Success keeps what is read of the first bytes, and an error changes nothing. -/
def Right (s : World) (src len : Nat) : Option (World × Except Errno Nat) → Prop
  | none => False
  | some (t, .ok dst) => s.Keeps src len t dst
  | some (t, .error _) => t = s

theorem Right.mono {n : Nat} {r : Option (World × Except Errno Nat)} (h : s.Right src n r)
    (hle : len ≤ n) : s.Right src len r := by
  match r with
  | none => exact h.elim
  | some (t, .ok dst) => exact fun i hi => h i (hi.trans_le hle)
  | some (t, .error e) => exact h

theorem keeps_of_within {P : Nat → Prop} (h : Within P s.space t.space)
    (hmem : Memory.Lowered s.mem t.mem) (hout : ∀ i < len,
      s.space.regionAt ((src + i) / pageSize * pageSize) ≠ none →
      ¬P ((src + i) / pageSize * pageSize)) : s.Keeps src len t src := by
  intro i hi b hb
  obtain ⟨r, hr, -⟩ := readable_eq_some.mp hb
  have hout := hout i hi (by rw [hr]; exact Option.some_ne_none r)
  have hpte := h.ptes _ hout
  rw [Nat.mul_div_cancel _ (by decide : 0 < pageSize)] at hpte
  rwa [readable_congr (h.region _ hout) hpte hmem]

theorem leave_eq {dst : Nat} (haddr : pageSize ∣ addr) (hlen : pageSize ∣ len) (hpos : 0 < len)
    (hlt : len < 2 ^ 64) : s.leave addr len dst = (s.unmapLocked addr len, .ok dst) := by
  have hal : aligned addr = true := beq_iff_eq.mpr (Nat.mod_eq_zero_of_dvd haddr)
  rw [leave, munmap, hal, alignUp_of_dvd hlen hlt, decide_eq_false (Nat.ne_of_gt hpos)]
  rfl

/-- Cutting off the end of a range keeps the rest, also where its end wraps. -/
theorem shrink_keeps (h : s.space.Tidy) (hsrc : pageSize ∣ src) (hold : pageSize ∣ oldLen)
    (hnew : pageSize ∣ newLen) (hlt : newLen < oldLen) (hbound : oldLen < 2 ^ 64) :
    s.Keeps src newLen (s.unmapLocked (wrap (src + newLen)) (oldLen - newLen)) src := by
  have hend : wrap (wrap (src + newLen) + (oldLen - newLen)) = wrap (src + oldLen) := by
    rw [wrap_wrap_add]
    congr 1
    omega
  have haddr := dvd_wrap (Nat.dvd_add hsrc hnew)
  have hstop := dvd_wrap (Nat.dvd_add hsrc hold)
  by_cases hle : wrap (src + newLen) ≤ wrap (src + oldLen)
  · have hspec := (unmapLocked_spec (oldLen - newLen) h (hend.symm ▸ hle) haddr
      (hend.symm ▸ hstop)).1
    refine keeps_of_within hspec.toWithin unmapLocked_lowered fun i hi _ hspan => ?_
    have hlo := hspan.1
    have hhi := hspan.2
    rw [hend] at hhi
    rw [wrap_eq] at *
    rw [pageSize_eq] at *
    omega
  · obtain ⟨hregion, hptes, hmem⟩ := unmapLocked_of_le h (by rw [hend]; omega)
    intro i _ b hb
    rwa [readable_congr (hregion _) (congrFun hptes _) (hmem.symm ▸ .refl)]

variable {prot : Prot} {flags : MapFlags} {backing : Backing} {e : Errno}

theorem mmap_error (h : s.mmap addr len prot flags backing = (t, .error e)) : t = s := by
  rw [mmap] at h
  split at h
  · exact (Prod.mk.inj h).1.symm
  split at h
  · rw [mmapFixed] at h
    split at h
    · exact (Prod.mk.inj h).1.symm
    split at h
    · exact (Prod.mk.inj h).1.symm
    · cases (Prod.mk.inj h).2
  · rw [mmapHinted] at h
    split at h
    · cases (Prod.mk.inj h).2
    split at h
    · exact (Prod.mk.inj h).1.symm
    · cases (Prod.mk.inj h).2

theorem lowered_of_mmap {x : Except Errno Nat}
    (h : s.mmap addr len prot flags backing = (t, x)) : Memory.Lowered s.mem t.mem := by
  obtain rfl : (s.mmap addr len prot flags backing).1 = t := congrArg Prod.fst h
  rw [mmap]
  split
  · exact .refl
  split
  · rw [mmapFixed]
    split
    · exact .refl
    split
    · exact .refl
    · exact unmapLocked_lowered
  · rw [mmapHinted]
    split
    · exact .refl
    split
    · exact .refl
    · exact .refl

theorem grow_right (h : s.space.Inv) (hfind : s.space.findVma src = some v)
    (hold : pageSize ∣ oldLen) (hnew : pageSize ∣ newLen) (hlt : oldLen < newLen)
    (hbound : newLen < 2 ^ 64) (hle : wrap (src + oldLen) ≤ wrap (src + newLen))
    (hgrow : s.growOk v src oldLen newLen = true) :
    s.Right src oldLen (some (s.grow src oldLen newLen v)) := by
  have hchanged := grow_changed h hfind hold hnew hlt hbound hle hgrow
  rw [grow] at hchanged ⊢
  split at hchanged
  · next u e hu => exact mmap_error hu
  · next u _ hu =>
      exact keeps_of_within hchanged.toWithin (lowered_of_mmap hu) fun i _ hsome hnone =>
        hsome hnone

end World

end MindOS.Kernel.Mm
