import MindOS.Kernel.Mm.Mapping

/-!
# The layout of an address space

## The layout of an address space

The regions of an address space lie apart, whole pages each and inside the user half, and an
operation changes neither what a page outside its range shows nor its entry in the page
tables. Both are lost where a sum or a rounding wraps and still passes its check.
-/

namespace MindOS.Kernel.Mm

open AddressSpace Ranges Transition
open Tmpfs (Page pageSize wrap)

variable {addr len stop va n src dst : Nat} {v : Vma} {s : World} {picks : Picks}

/-! ### Entries of one page -/

namespace AddressSpace

/-- At most the entry of page `n` is another one. -/
def Touched (n : Nat) (s t : AddressSpace) : Prop :=
  ∃ e, t = { s with ptes := Function.update s.ptes n e }

variable {s t : AddressSpace}

theorem Touched.refl : Touched n s s :=
  ⟨s.ptes n, by rw [Function.update_eq_self]⟩

theorem Touched.changed {P : Nat → Prop} (h : Touched n s t) (hs : s.Tidy)
    (hP : ∀ va, va / pageSize = n → P va) : Changed P s t := by
  obtain ⟨e, rfl⟩ := h
  refine ⟨⟨fun _ _ => rfl, fun va hva => ?_⟩, hs.of_vmas rfl, rfl, id⟩
  exact Function.update_of_ne (fun heq => hva (hP va heq)) _ _

end AddressSpace

namespace World

theorem copyOnWrite_touched {e : Pte} {pick : Option Nat} :
    Touched n s.space (s.copyOnWrite n e pick).1.space := by
  rw [copyOnWrite]
  split
  · exact ⟨_, rfl⟩
  · split
    · exact .refl
    · exact ⟨_, rfl⟩

theorem mapCached_touched {write : Bool} {f : Nat} {pick : Option Nat} :
    Touched n s.space (s.mapCached n v write f pick).1.space := by
  rw [mapCached]
  split
  · exact ⟨_, rfl⟩
  · split
    · split
      · exact .refl
      · exact ⟨_, rfl⟩
    · exact ⟨_, rfl⟩

theorem populateNew_touched {write : Bool} :
    Touched (va / pageSize) s.space (s.populateNew v va write picks).1.space := by
  rw [populateNew]
  split
  · split
    · exact .refl
    · exact ⟨_, rfl⟩
  · exact ⟨_, rfl⟩
  · split
    · exact .refl
    · exact mapCached_touched

theorem populatePage_touched {write : Bool} :
    Touched (va / pageSize) s.space (s.populatePage v va write picks).1.space := by
  rw [populatePage]
  split
  · exact populateNew_touched
  · split
    · split
      · exact copyOnWrite_touched
      · exact .refl
    · exact .refl

theorem populateRange_touched {write : Bool} :
    Touched (va / pageSize) s.space (s.populateRange va write picks).1.space := by
  rw [populateRange]
  repeat' split
  all_goals first | exact .refl | exact populatePage_touched

theorem populateRange_present (picks : Picks)
    (h : (s.space.ptes (va / pageSize)).isNone = false) :
    (s.populateRange va false picks).1 = s := by
  obtain ⟨e, he⟩ := Option.isSome_iff_exists.mp (Option.isNone_eq_false_iff.mp h)
  rw [populateRange]
  repeat' split
  all_goals first | rfl | skip
  next hmapped => exact absurd (by rw [he]; rfl) hmapped

theorem store_space {page : Page} : (s.store va page).space = s.space := by
  rw [store]
  split <;> rfl

theorem copyPage_touched : Touched (dst / pageSize) s.space (s.copyPage src dst picks).1.space := by
  rw [copyPage]
  split
  · exact .refl
  · next hpresent =>
      have hsame := populateRange_present picks (Bool.eq_false_iff.mpr hpresent)
      split
      · next t e hread =>
          rw [hread] at hsame
          rw [show t = s from hsame]
          exact .refl
      · next t _ hread =>
          rw [hread] at hsame
          obtain rfl : t = s := hsame
          have hdst := @populateRange_touched dst t picks true
          split
          · next u e hwrite =>
              rw [hwrite] at hdst
              exact hdst
          · next u _ hwrite =>
              rw [hwrite] at hdst
              have hstore := @store_space dst u (t.load src)
              exact hstore.symm ▸ hdst

theorem copyPages_changed (src len : Nat) (picks : Nat → Picks) (is : List Nat) (h : s.space.Tidy)
    (hdst : pageSize ∣ dst) (huser : dst + len ≤ USER_TOP)
    (his : ∀ i ∈ is, i * pageSize + pageSize ≤ len) :
    Changed (Span dst (dst + len)) s.space (s.copyPages src dst picks is).1.space := by
  induction is generalizing s with
  | nil => exact .refl h
  | cons i is ih =>
      have hrest : ∀ j ∈ is, j * pageSize + pageSize ≤ len := fun j hj =>
        his j (List.mem_cons_of_mem i hj)
      have hroom := his i List.mem_cons_self
      have hone := (@copyPage_touched (wrap (src + i * pageSize)) (wrap (dst + i * pageSize)) s
        (picks i)).changed (P := Span dst (dst + len)) h fun va hva => by
          rw [pageSize_eq] at *
          rw [wrap_of_lt (by rw [USER_TOP] at huser; omega)] at hva
          unfold Span
          omega
      rw [copyPages]
      split
      · next t e hcopy =>
          rw [hcopy] at hone
          exact hone
      · next t _ hcopy =>
          rw [hcopy] at hone
          exact hone.trans (ih hone.tidy hrest)

/-! ### Moving and resizing -/

variable {oldLen newLen newAddr : Nat} {flags : RemapFlags}

theorem leave_world {len : Nat} : (s.leave src len dst).1 = (s.munmap src len).1 := by
  rw [leave]
  split
  · next ht => rw [ht]
  · next ht => rw [ht]

end World

namespace AddressSpace

/-- The addresses that a move or a resize is about: what it cuts off; or the old range, and
where the new one may be put. The lengths are rounded. -/
def RemapAsked (s : AddressSpace) (src oldLen newLen : Nat) (fixed : Bool) (newAddr va : Nat) :
    Prop :=
  if newLen ≤ oldLen then Span (src + newLen) (src + oldLen) va
  else Span src (src + oldLen) va ∨ s.Granted fixed newAddr newLen va

/-- The sums of a move or a resize are the true ones where it comes to use them. -/
def RemapSound (s : AddressSpace) (src oldLen newLen : Nat) (flags : RemapFlags)
    (newAddr : Nat) : Prop :=
  (newLen < oldLen → src + oldLen < 2 ^ 64 ∨
    s.Misses (wrap (src + newLen)) (wrap (src + oldLen))) ∧
  (oldLen < newLen → flags.fixed = true → s.placesAt newAddr newLen true false = true →
    newAddr + newLen < 2 ^ 64)

end AddressSpace

namespace World

variable {oldLen newLen newAddr : Nat} {flags : RemapFlags}

theorem wrap_wrap_add {a b : Nat} : wrap (wrap a + b) = wrap (a + b) := Nat.mod_add_mod _ _ _

theorem alignUp_of_dvd (h : pageSize ∣ n) (hlt : n < 2 ^ 64) : alignUp n = n := by
  rw [pageSize_eq] at h
  rw [alignUp_eq, wrap_eq]
  omega

theorem shrink_changed (h : s.space.Tidy) (hold : pageSize ∣ oldLen) (hnew : pageSize ∣ newLen)
    (hlt : newLen < oldLen) (hbound : oldLen < 2 ^ 64)
    (hsum : src + oldLen < 2 ^ 64 ∨ s.space.Misses (wrap (src + newLen)) (wrap (src + oldLen))) :
    Changed (Span (src + newLen) (src + oldLen)) s.space
      (s.leave (wrap (src + newLen)) (oldLen - newLen) dst).1.space := by
  have hlen : alignUp (oldLen - newLen) = oldLen - newLen :=
    alignUp_of_dvd (Nat.dvd_sub hold hnew) (by omega)
  have hend : src + newLen + (oldLen - newLen) = src + oldLen := by omega
  rw [leave_world]
  rcases hsum with htrue | hmiss
  · have hwrap : wrap (src + newLen) = src + newLen := wrap_of_lt (by omega)
    have hunmap := munmap_changed (src + newLen) (oldLen - newLen) h
      (.inl (by rw [hlen]; omega))
    rw [hwrap]
    rwa [hlen, hend] at hunmap
  · rw [munmap_of_misses]
    · exact .refl h
    · rwa [hlen, wrap_wrap_add, hend]

/-- Where a mapping grows in place nothing was before, and no sum wraps. -/
theorem misses_of_growOk (h : s.space.Tidy) (hfind : s.space.findVma src = some v)
    (hold : oldLen < 2 ^ 64) (hnew : newLen < 2 ^ 64)
    (hle : wrap (src + oldLen) ≤ wrap (src + newLen))
    (hgrow : s.growOk v src oldLen newLen = true) :
    v.stop = src + oldLen ∧ src + newLen < 2 ^ 64 ∧
      s.space.Misses (src + oldLen) (src + newLen) := by
  obtain ⟨hempty, hstop⟩ := Bool.and_eq_true_iff.mp hgrow
  obtain ⟨hv, hlo, hhi⟩ := Map.mem_of_at? hfind
  have huser := h.user v hv
  have hstop := eq_of_beq hstop
  rw [USER_TOP] at huser
  have htrue : src + oldLen < 2 ^ 64 := by
    rw [wrap_eq] at hstop
    omega
  rw [wrap_of_lt htrue] at hstop hle
  have htrue' : src + newLen < 2 ^ 64 := by
    rw [wrap_eq] at hle
    omega
  refine ⟨hstop, htrue', fun w hw hlt => ?_⟩
  by_cases hwlt : src + oldLen ≤ w.start
  · have hin : w ∈ s.space.vmas.between (wrap (src + oldLen)) (wrap (src + newLen)) := by
      rw [wrap_of_lt htrue, wrap_of_lt htrue', Map.mem_between]
      exact ⟨hw, hwlt, hlt⟩
    rw [List.isEmpty_iff.mp hempty] at hin
    exact absurd hin List.not_mem_nil
  · by_cases heq : w.start = v.start
    · rw [Map.eq_of_key_eq hw hv heq, hstop]
    · have hvne := h.apart.nonempty v hv
      rcases h.apart.le_or_le hw hv heq with hwv | hwv <;> omega

theorem grow_changed (h : s.space.Inv) (hfind : s.space.findVma src = some v)
    (hold : pageSize ∣ oldLen) (hnew : pageSize ∣ newLen) (hlt : oldLen < newLen)
    (hbound : newLen < 2 ^ 64) (hle : wrap (src + oldLen) ≤ wrap (src + newLen))
    (hgrow : s.growOk v src oldLen newLen = true) :
    Changed (fun va => s.space.regionAt va = none) s.space
      (s.grow src oldLen newLen v).1.space := by
  obtain ⟨hstop, hsum, hmiss⟩ :=
    misses_of_growOk h.toTidy hfind (by omega) hbound hle hgrow
  have hdvd := Nat.dvd_sub hnew hold
  have hlen : alignUp (newLen - oldLen) = newLen - oldLen := alignUp_of_dvd hdvd (by omega)
  have hwrap : wrap (src + oldLen) = src + oldLen := wrap_of_lt (by omega)
  have hmapped := mmap_mapped (src + oldLen) (newLen - oldLen) v.prot ⟨true, false, v.shared⟩
    (v.backing.forward oldLen) h
    ⟨by rw [pageSize_eq] at *; omega, fun _ => by rw [hlen]; omega⟩
  have hchanged := hmapped.changed.mono (Q := fun va => s.space.regionAt va = none)
    fun va hva => h.regionAt_of_free hmiss ⟨hva.1, by
      have hend := hva.2
      rw [roundUp_of_dvd hdvd] at hend
      omega⟩
  rw [grow, hwrap]
  split
  · next t e ht =>
      rw [ht] at hchanged
      exact hchanged
  · next t _ ht =>
      rw [ht] at hchanged
      exact hchanged

theorem move_changed {picks : Nat → Picks} (h : s.space.Inv)
    (hfind : s.space.findVma src = some v) (hold : pageSize ∣ oldLen) (hnew : pageSize ∣ newLen)
    (hlt : oldLen < newLen) (hbound : newLen < 2 ^ 64)
    (hsum : flags.fixed = true → s.space.placesAt newAddr newLen true false = true →
      newAddr + newLen < 2 ^ 64) :
    Changed (fun va => Span src (src + oldLen) va ∨ s.space.Granted flags.fixed newAddr newLen va)
      s.space (s.move src oldLen newLen v flags newAddr picks).1.space := by
  have hlen : alignUp newLen = newLen := alignUp_of_dvd hnew hbound
  have hmapped := mmap_mapped (if flags.fixed then newAddr else 0) newLen v.prot
    ⟨flags.fixed, false, v.shared⟩ v.backing h
    ⟨by rw [pageSize_eq] at *; omega, by
      rw [hlen]
      cases hfixed : flags.fixed with
      | true => exact hsum hfixed
      | false => exact fun _ => by simpa using hbound⟩
  rw [roundUp_of_dvd hnew] at hmapped
  have hgranted : ∀ va,
      s.space.Granted flags.fixed (if flags.fixed then newAddr else 0) newLen va →
      s.space.Granted flags.fixed newAddr newLen va := by
    cases flags.fixed <;> exact fun _ => id
  have hleave : ∀ {u : World} {dst : Nat}, dst + newLen ≤ USER_TOP → u.space.Tidy →
      Changed (fun va => Span src (src + oldLen) va ∨
        s.space.Granted flags.fixed newAddr newLen va) u.space
        (u.leave src oldLen dst).1.space := by
    intro u dst hdst hu
    obtain ⟨hv, -, hhi⟩ := Map.mem_of_at? hfind
    have huser := h.user v hv
    have holdLen : alignUp oldLen = oldLen := alignUp_of_dvd hold (by omega)
    have hunmap := munmap_changed src oldLen hu
      (.inl (by rw [holdLen]; rw [USER_TOP] at *; omega))
    rw [holdLen] at hunmap
    rw [leave_world]
    exact hunmap.mono fun va => .inl
  have hmap := hmapped.changed.mono (Q := fun va => Span src (src + oldLen) va ∨
    s.space.Granted flags.fixed newAddr newLen va) fun va hva => .inr (hgranted va hva)
  rw [move]
  split
  · next t e ht =>
      rw [ht] at hmap
      exact hmap
  · next t dst ht =>
      rw [ht] at hmap
      obtain ⟨hdst, huser, hplace⟩ := hmapped.placed dst (by rw [ht])
      have hcopy := copyPages_changed src newLen picks (List.range (oldLen / pageSize))
        hmap.tidy hdst huser fun i hi => by
          have hi := List.mem_range.mp hi
          rw [pageSize_eq] at *
          omega
      have hcopy := hcopy.mono (Q := fun va => Span src (src + oldLen) va ∨
        s.space.Granted flags.fixed newAddr newLen va) fun va hva =>
          .inr (hgranted va (hplace va hva))
      split
      · split
        · next u e hu =>
            rw [hu] at hcopy
            exact hmap.trans hcopy
        · next u _ hu =>
            rw [hu] at hcopy
            exact (hmap.trans hcopy).trans (hleave huser hcopy.tidy)
      · exact hmap.trans (hleave huser hmap.tidy)

theorem remap_changed {picks : Nat → Picks} {t : World × Except Errno Nat} (h : s.space.Inv)
    (hold : pageSize ∣ oldLen) (hnew : pageSize ∣ newLen) (hbound : oldLen < 2 ^ 64)
    (hbound' : newLen < 2 ^ 64) (hsound : s.space.RemapSound src oldLen newLen flags newAddr)
    (ht : s.remap src oldLen newLen flags newAddr picks = some t) :
    Changed (s.space.RemapAsked src oldLen newLen flags.fixed newAddr) s.space t.1.space := by
  rw [remap] at ht
  split at ht
  · cases ht
    exact .refl h.toTidy
  · split at ht
    · cases ht
      exact .refl h.toTidy
    · next hne =>
        split at ht
        · next hlt =>
            cases ht
            refine (shrink_changed h.toTidy hold hnew hlt hbound (hsound.1 hlt)).mono
              fun va hva => ?_
            rw [RemapAsked, if_pos hlt.le]
            exact hva
        · next hge =>
            have hlt : oldLen < newLen := by omega
            have hasked : ∀ va, Span src (src + oldLen) va ∨
                s.space.Granted flags.fixed newAddr newLen va →
                s.space.RemapAsked src oldLen newLen flags.fixed newAddr va := fun va hva => by
              rw [RemapAsked, if_neg (by omega)]
              exact hva
            split at ht
            · cases ht
              exact .refl h.toTidy
            · next v hfind =>
                split at ht
                · cases ht
                · next hle =>
                    split at ht
                    · next hgrow =>
                        cases ht
                        obtain ⟨hgrow, hfree⟩ := Bool.and_eq_true_iff.mp hgrow
                        refine (grow_changed h hfind hold hnew hlt hbound' (Nat.le_of_not_lt hle)
                          hgrow).mono fun va hva => hasked va (.inr ?_)
                        rw [Granted, (Bool.not_eq_true' _).mp hfree]
                        exact hva
                    · split at ht
                      · cases ht
                        exact .refl h.toTidy
                      · cases ht
                        refine (move_changed h hfind hold hnew hlt hbound' (hsound.2 hlt)).mono
                          fun va hva => hasked va hva

end World

/-! ### Runs -/

/-- A system call of a process on its own address space. -/
inductive Call where
  | mmap (addr len : UInt64) (prot : Prot) (flags : MapFlags) (backing : Backing)
  | munmap (addr len : UInt64)
  | mprotect (addr len : UInt64) (prot : Prot)
  | mremap (src oldLen newLen : UInt64) (flags : RemapFlags) (newAddr : UInt64)
      (picks : Nat → Picks)
  | brk (newBrk : UInt64)

namespace Call

def step (s : World) : Call → Option World
  | mmap addr len prot flags backing => some (s.mmap addr.toNat len.toNat prot flags backing).1
  | munmap addr len => some (s.munmap addr.toNat len.toNat).1
  | mprotect addr len prot => (s.mprotect addr.toNat len.toNat prot).map Prod.fst
  | mremap src oldLen newLen flags newAddr picks =>
      (s.mremap src.toNat oldLen.toNat newLen.toNat flags newAddr.toNat picks).map Prod.fst
  | brk newBrk => some (s.brk newBrk.toNat).1

/-- The addresses of the range that a call is about. -/
def Asked (s : AddressSpace) : Call → Nat → Prop
  | mmap addr len _ flags _, va => s.Granted flags.fixed addr.toNat (roundUp len.toNat) va
  | munmap addr len, va => Span addr.toNat (addr.toNat + roundUp len.toNat) va
  | mprotect addr len _, va => Span addr.toNat (addr.toNat + roundUp len.toNat) va
  | mremap src oldLen newLen flags newAddr _, va =>
      s.RemapAsked src.toNat (alignUp oldLen.toNat) (alignUp newLen.toNat) flags.fixed
        newAddr.toNat va
  | brk newBrk, va => s.BrkAsked newBrk.toNat va

/-- No sum and no rounding of the call wraps where the kernel goes on with it. -/
def Sound (s : AddressSpace) : Call → Prop
  | mmap addr len _ flags _ => s.MapSound addr.toNat len.toNat flags
  | munmap addr len => addr.toNat + alignUp len.toNat < 2 ^ 64 ∨
      s.Misses addr.toNat (wrap (addr.toNat + alignUp len.toNat))
  | mprotect _ _ _ => True
  | mremap src oldLen newLen flags newAddr _ =>
      s.RemapSound src.toNat (alignUp oldLen.toNat) (alignUp newLen.toNat) flags newAddr.toNat
  | brk newBrk => newBrk.toNat + (pageSize - 1) < 2 ^ 64

/-- The regions are in order, and nothing has changed outside the range of the call. -/
def Good (s : World) (c : Call) (t : World) : Prop :=
  t.space.Tidy ∧ Within (Asked s.space c) s.space t.space

theorem alignUp_le_roundUp : alignUp n ≤ roundUp n := by
  rw [alignUp_eq, roundUp_eq, wrap_eq]
  omega

theorem kept_of_sound {s t : World} {c : Call} (h : s.space.Inv) (hstep : step s c = some t)
    (hsound : Sound s.space c) : Kept (Asked s.space c) s.space t.space := by
  have hrange : ∀ {addr len va : Nat}, Span addr (addr + alignUp len) va →
      Span addr (addr + roundUp len) va := fun hva =>
    ⟨hva.1, hva.2.trans_le (Nat.add_le_add_left alignUp_le_roundUp _)⟩
  cases c with
  | mmap addr len prot flags backing =>
      cases hstep
      exact (World.mmap_mapped _ _ _ _ _ h hsound).changed.kept h
  | munmap addr len =>
      cases hstep
      exact ((World.munmap_changed _ _ h.toTidy hsound).mono fun va => hrange).kept h
  | mprotect addr len prot =>
      obtain ⟨u, hu, rfl⟩ := Option.map_eq_some_iff.mp hstep
      exact ((World.mprotect_protected h.toTidy hu).2.toChanged.mono fun va => hrange).kept h
  | mremap src oldLen newLen flags newAddr picks =>
      obtain ⟨u, hu, rfl⟩ := Option.map_eq_some_iff.mp hstep
      exact (World.remap_changed h (dvd_alignUp _) (dvd_alignUp _) (alignUp_lt _) (alignUp_lt _)
        hsound hu).kept h
  | brk newBrk =>
      cases hstep
      exact World.brk_kept h hsound

/-- As long as no sum wraps, every call keeps the regions in order and changes nothing
outside its range. -/
theorem layout_of_sound (s : World) (cs : List Call) (h : s.space.Inv)
    (hsound : Along step (fun s c _ => Sound s.space c) s cs) : Along step Good s cs :=
  Along.imp (fun s => s.space.Inv)
    (fun _ _ _ hs hstep hc => (kept_of_sound hs hstep hc).inv)
    (fun _ _ _ hs hstep hc => ⟨(kept_of_sound hs hstep hc).inv.toTidy,
      (kept_of_sound hs hstep hc).toWithin⟩) h hsound

theorem empty_inv {brk : Nat} (hbrk : brk ≤ USER_TOP) :
    ({ brkStart := brk, brk := brk } : AddressSpace).Inv where
  apart := .empty
  start _ hv := absurd hv Map.not_mem_empty
  stop _ hv := absurd hv Map.not_mem_empty
  user _ hv := absurd hv Map.not_mem_empty
  brk := hbrk
  hint := (by decide : pageSize ∣ MMAP_TOP)

/-- An address space after `exec`, with a page of the program below the break. -/
def program : World := ⟨{ brkStart := 0x20000, brk := 0x20000 }, .fresh⟩

def loadPage : Call :=
  mmap 0x10000 0x1000 ⟨true, false, true⟩ ⟨true, false, false⟩ (.file 7 0)

theorem layout_of_sound_program :
    Along step Good program [loadPage, brk 0x21000, mprotect 0x10000 0x1000 ⟨true, true, false⟩,
      mremap 0x20000 0x1000 0x3000 ⟨true, false⟩ 0 fun _ => {}, munmap 0x10000 0x800] := by
  have hbrk : (0x21000 : UInt64).toNat + (pageSize - 1) < 2 ^ 64 := by decide
  exact layout_of_sound program _ (empty_inv (by decide)) fun _ _ =>
    ⟨⟨by decide, fun _ => by decide⟩, fun _ _ => ⟨hbrk, fun _ _ => ⟨trivial, fun _ _ =>
      ⟨⟨fun _ => .inl (by decide), fun _ _ _ => by decide⟩, fun _ _ =>
        ⟨.inl (by decide), trivial⟩⟩⟩⟩⟩

/-- A break so high that its rounding wraps takes the program away. -/
theorem not_always_layout : ¬∀ (s : World) (cs : List Call), s.space.Inv →
    Along step Good s cs := by
  intro hall
  have hrun := hall program [loadPage, brk 0xffffffffffffffff] (empty_inv (by decide))
  have hgood := ((hrun _ rfl).2 _ rfl).1
  have hregion := hgood.2.region 0x10000 fun hasked => by
    rcases hasked with ⟨hin, -⟩ | hin
    · exact absurd hin.1 (by decide)
    · exact absurd hin.1 (by decide)
  revert hregion
  decide

end Call

/-!
## The search for a gap

The search goes down from the last place it gave, and finds a gap below that if there is one. It
never goes up again, whatever is unmapped.
-/

open Tmpfs (pageSize wrap)

namespace AddressSpace

variable {s : AddressSpace} {len top hint a : Nat}

/-- `len` bytes from `a` on, in the area for mappings and below `top`, that no region overlaps. -/
structure Gap (s : AddressSpace) (len top a : Nat) : Prop where
  above : MMAP_MIN ≤ a
  below : a + len ≤ top
  free : ∀ v ∈ s.vmas, v.stop ≤ a ∨ a + len ≤ v.start

theorem gapBelow_complete {l : List Vma} (hmin : MMAP_MIN ≤ a) (htop : a + len ≤ top)
    (hfree : ∀ v ∈ l, v.stop ≤ a ∨ a + len ≤ v.start) : gapBelow len l top ≠ none := by
  induction l generalizing top with
  | nil =>
      rw [gapBelow, if_neg (by omega)]
      exact Option.some_ne_none _
  | cons v l ih =>
      have hrest : ∀ w ∈ l, w.stop ≤ a ∨ a + len ≤ w.start := fun w hw =>
        hfree w (List.mem_cons_of_mem v hw)
      rw [gapBelow, if_neg (by omega)]
      split
      · exact ih htop hrest
      split
      · rename_i hover
        -- a region that overlaps the candidate lies above the gap
        refine ih ?_ hrest
        rcases hfree v List.mem_cons_self with hbelow | habove
        · omega
        · exact habove
      · exact Option.some_ne_none _

theorem le_of_gapBelow {l : List Vma} {c : Nat} (h : gapBelow len l top = some c) :
    MMAP_MIN ≤ c ∧ c + len ≤ top := by
  induction l generalizing top with
  | nil =>
      rw [gapBelow] at h
      split at h
      · cases h
      · cases h
        omega
  | cons v l ih =>
      rw [gapBelow] at h
      split at h
      · cases h
      split at h
      · exact ih h
      split at h
      · obtain ⟨hmin, hle⟩ := ih h
        exact ⟨hmin, by omega⟩
      · cases h
        omega

theorem findGap_eq_none (h : s.findGap len hint = none) : ¬s.Gap len (min hint MMAP_TOP) a :=
  fun hgap => gapBelow_complete hgap.above hgap.below
    (fun v hv => hgap.free v (List.mem_reverse.mp hv)) h

theorem gap_of_findGap (hs : s.Tidy) (hlen : pageSize ∣ len) (hhint : pageSize ∣ hint)
    (h : s.findGap len hint = some a) : s.Gap len (min hint MMAP_TOP) a := by
  obtain ⟨hmin, hle⟩ := le_of_gapBelow h
  refine ⟨hmin, hle, fun v hv => ?_⟩
  have hclear := (findGap_spec hs hlen hhint h).2.2 v hv
  omega

end AddressSpace

namespace Call

variable {s t : World}

/-- A mapping without an address fails only where there is no gap below the hint, and is put in a
gap. -/
def Searched (s : World) (c : Call) (t : World) : Prop :=
  ∀ len prot flags backing, c = mmap 0 len prot flags backing → flags.fixed = false → len ≠ 0 →
    match (s.mmap 0 len.toNat prot flags backing).2 with
    | .error e => e = .ENOMEM ∧
        ∀ a, ¬s.space.Gap (roundUp len.toNat) (min s.space.mmapHint MMAP_TOP) a
    | .ok a => s.space.Gap (roundUp len.toNat) (min s.space.mmapHint MMAP_TOP) a ∧
        t.space.mmapHint = a

theorem searched_of_sound {c : Call} (h : s.space.Inv) (hstep : step s c = some t)
    (hsound : Sound s.space c) : Searched s c t := by
  rintro len prot flags backing rfl hfixed hlen
  have hpos : len.toNat ≠ 0 := fun hzero => hlen (UInt64.toNat_inj.mp hzero)
  have hround := alignUp_of_lt hsound.1
  obtain rfl : (s.mmap 0 len.toNat prot flags backing).1 = t := Option.some.inj hstep
  have hmmap : s.mmap 0 len.toNat prot flags backing =
      s.mmapHinted 0 (roundUp len.toNat) prot flags backing := by
    rw [World.mmap, if_neg hpos, hfixed, hround]
    rfl
  rw [hmmap, World.mmapHinted, if_neg (by simp)]
  cases hgap : s.space.findGap (roundUp len.toNat) s.space.mmapHint with
  | none => exact ⟨rfl, fun a => findGap_eq_none hgap⟩
  | some a =>
      exact ⟨gap_of_findGap h.toTidy (hround ▸ dvd_alignUp _) h.hint hgap, rfl⟩

/-- As long as no sum wraps, every mapping without an address is put in a gap, if there is one
below the place where the last was put. -/
theorem gaps_of_sound (s : World) (cs : List Call) (h : s.space.Inv)
    (hsound : Along step (fun s c _ => Sound s.space c) s cs) : Along step Searched s cs :=
  Along.imp (fun s => s.space.Inv)
    (fun _ _ _ hs hstep hc => (kept_of_sound hs hstep hc).inv)
    (fun _ _ _ hs hstep hc => searched_of_sound hs hstep hc) h hsound

def anonymous (len : UInt64) : Call :=
  mmap 0 len ⟨true, true, false⟩ ⟨false, false, false⟩ .anon

theorem gaps_of_sound_program :
    Along step Searched program [loadPage, anonymous 0x2345, munmap 0x7effffffd000 0x3000] :=
  gaps_of_sound program _ (empty_inv (by decide)) fun _ _ =>
    ⟨⟨by decide, fun _ => by decide⟩, fun _ _ => ⟨⟨by decide, fun _ => by decide⟩, fun _ _ =>
      ⟨.inl (by decide), trivial⟩⟩⟩

/-- A page at the top of the area is free, and is not found. -/
theorem not_always_gap :
    ∃ t, exec step program [anonymous 0x7effffff0000, munmap 0x7efffffff000 0x1000] = some t ∧
      (t.mmap 0 0x1000 ⟨true, true, false⟩ ⟨false, false, false⟩ .anon).2 = .error .ENOMEM ∧
      t.space.Gap (roundUp 0x1000) MMAP_TOP 0x7efffffff000 := by
  refine ⟨_, rfl, rfl, by decide, by decide, ?_⟩
  decide

end Call

end MindOS.Kernel.Mm
