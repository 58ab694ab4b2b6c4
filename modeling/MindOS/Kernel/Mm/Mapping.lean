import MindOS.Kernel.Mm.Regions

/-!
# Mapping, unmapping and the break

What the operations do to a tidy address space, where the sums and roundings that pass their
checks are the true ones: nothing changes outside the range that was asked for. Where the
kernel chooses the place of a mapping, it is one at which nothing was.
-/

namespace MindOS.Kernel.Mm

open AddressSpace Ranges
open Tmpfs (Page pageSize wrap)

variable {addr len stop va n : Nat} {v w : Vma}

/-! ### Sums and roundings -/

/-- The end of the last page that `n` bytes reach. -/
def roundUp (n : Nat) : Nat := (n + (pageSize - 1)) / pageSize * pageSize

theorem wrap_eq : wrap n = n % 18446744073709551616 := rfl

theorem alignUp_eq : alignUp n = wrap (n + 4095) / 4096 * 4096 := rfl

theorem roundUp_eq : roundUp n = (n + 4095) / 4096 * 4096 := rfl

theorem wrap_of_lt (h : n < 2 ^ 64) : wrap n = n := Nat.mod_eq_of_lt h

theorem dvd_wrap (h : pageSize ∣ n) : pageSize ∣ wrap n := by
  rw [pageSize_eq] at *
  rw [wrap_eq]
  omega

theorem dvd_alignUp (n : Nat) : pageSize ∣ alignUp n := Nat.dvd_mul_left pageSize _

theorem alignUp_lt (n : Nat) : alignUp n < 2 ^ 64 := by
  rw [alignUp_eq, wrap_eq]
  omega

theorem alignUp_of_lt (h : n + (pageSize - 1) < 2 ^ 64) : alignUp n = roundUp n := by
  rw [alignUp, roundUp, wrap_of_lt h]

theorem le_roundUp (n : Nat) : n ≤ roundUp n := by
  rw [roundUp_eq]
  omega

theorem roundUp_of_dvd (h : pageSize ∣ n) : roundUp n = n := by
  rw [pageSize_eq] at h
  rw [roundUp_eq]
  omega

theorem dvd_of_aligned (h : aligned n = true) : pageSize ∣ n :=
  Nat.dvd_of_mod_eq_zero (beq_iff_eq.mp h)

namespace AddressSpace

variable {s t : AddressSpace}

/-! ### A new region -/

theorem insert_changed (h : s.Tidy) (hlt : v.start < v.stop) (hstart : pageSize ∣ v.start)
    (hstop : pageSize ∣ v.stop) (huser : v.stop ≤ USER_TOP)
    (hclear : ∀ w ∈ s.vmas, w.start < v.stop → w.stop ≤ v.start) :
    Changed (Span v.start v.stop) s (s.insert v) := by
  have hne : ∀ w ∈ s.vmas, w.start ≠ v.start := by
    intro w hw heq
    have hend := hclear w hw (heq ▸ hlt)
    have hnonempty := h.apart.nonempty w hw
    omega
  have htidy : (s.insert v).Tidy := by
    refine ⟨h.apart.insert hlt fun w hw _ => ?_, fun w hw => ?_, fun w hw => ?_, fun w hw => ?_⟩
    · by_cases hwlt : w.start < v.stop
      · exact .inl (hclear w hw hwlt)
      · exact .inr (Nat.le_of_not_lt hwlt)
    all_goals rcases mem_insert.mp hw with rfl | ⟨hws, -⟩
    · exact hstart
    · exact h.start w hws
    · exact hstop
    · exact h.stop w hws
    · exact huser
    · exact h.user w hws
  refine ⟨⟨fun va hva => ?_, fun _ _ => rfl⟩, htidy, rfl, id⟩
  refine h.regionAt_congr htidy (fun w hw hlo hhi => ?_) fun w hw hlo hhi => ?_
  · exact ⟨w, mem_insert.mpr (.inr ⟨hw, hne w hw⟩), hlo, hhi, rfl⟩
  · rcases mem_insert.mp hw with rfl | ⟨hws, -⟩
    · exact absurd ⟨hlo, hhi⟩ hva
    · exact ⟨w, hws, hlo, hhi⟩

theorem Tidy.regionAt_of_free (h : s.Tidy) (hclear : ∀ w ∈ s.vmas, w.start < stop → w.stop ≤ addr)
    (hva : Span addr stop va) : s.regionAt va = none :=
  h.regionAt_eq_none.mpr fun w hw hlo => (hclear w hw (hlo.trans_lt hva.2)).trans hva.1

theorem gapBelow_spec (h : s.Tidy) (hlen : pageSize ∣ len) {l : List Vma} {top c : Nat}
    (hsorted : l.Pairwise fun a b => b.start < a.start) (hmem : ∀ v ∈ l, v ∈ s.vmas)
    (habove : ∀ v ∈ s.vmas, v ∈ l ∨ top ≤ v.start) (htop : pageSize ∣ top)
    (hgap : gapBelow len l top = some c) :
    c + len ≤ top ∧ pageSize ∣ c ∧ ∀ v ∈ s.vmas, v.start < c + len → v.stop ≤ c := by
  induction l generalizing top with
  | nil =>
      rw [gapBelow] at hgap
      split at hgap
      · cases hgap
      · next hroom =>
          cases hgap
          refine ⟨by omega, Nat.dvd_sub htop hlen, fun v hv hlt => ?_⟩
          have hge := (habove v hv).resolve_left List.not_mem_nil
          omega
  | cons u l ih =>
      obtain ⟨hfirst, hsorted⟩ := List.pairwise_cons.mp hsorted
      have hmem' : ∀ v ∈ l, v ∈ s.vmas := fun v hv => hmem v (List.mem_cons_of_mem u hv)
      have hu := hmem u List.mem_cons_self
      rw [gapBelow] at hgap
      split at hgap
      · cases hgap
      · next hroom =>
          split at hgap
          · next hpast =>
              refine ih hsorted hmem' (fun v hv => ?_) htop hgap
              rcases habove v hv with hvl | hge
              · rcases List.mem_cons.mp hvl with rfl | hvl
                · exact .inr hpast
                · exact .inl hvl
              · exact .inr hge
          · next hpast =>
              split at hgap
              · next hover =>
                  have hrest := ih hsorted hmem' (fun v hv => ?_) (h.start u hu) hgap
                  · exact ⟨by omega, hrest.2⟩
                  · rcases habove v hv with hvl | hge
                    · rcases List.mem_cons.mp hvl with rfl | hvl
                      · exact .inr le_rfl
                      · exact .inl hvl
                    · exact .inr (by omega)
              · next hover =>
                  cases hgap
                  refine ⟨by omega, Nat.dvd_sub htop hlen, fun v hv hlt => ?_⟩
                  rcases habove v hv with hvl | hge
                  · rcases List.mem_cons.mp hvl with rfl | hvl
                    · omega
                    · have hend := h.apart.le_of_lt hv hu (hfirst v hvl)
                      have hne := h.apart.nonempty u hu
                      omega
                  · omega

theorem findGap_spec (h : s.Tidy) (hlen : pageSize ∣ len) {hint c : Nat} (hhint : pageSize ∣ hint)
    (hgap : s.findGap len hint = some c) :
    c + len ≤ MMAP_TOP ∧ pageSize ∣ c ∧ ∀ v ∈ s.vmas, v.start < c + len → v.stop ≤ c := by
  have htop : pageSize ∣ min hint MMAP_TOP := dvd_min hhint (by decide)
  obtain ⟨hle, hrest⟩ := gapBelow_spec h hlen
    (List.pairwise_reverse.mpr s.vmas.sorted) (fun v hv => List.mem_reverse.mp hv)
    (fun v hv => .inl (List.mem_reverse.mpr hv)) htop hgap
  exact ⟨hle.trans (Nat.min_le_right _ _), hrest⟩

/-- No region reaches from below `stop` over `addr`. -/
def Misses (s : AddressSpace) (addr stop : Nat) : Prop :=
  ∀ v ∈ s.vmas, v.start < stop → v.stop ≤ addr

theorem Tidy.misses_of_rangeFree (h : s.Tidy) (hfree : s.rangeFree addr stop = true) :
    s.Misses addr stop := h.apart.free_iff.mp hfree

/-- The sums and roundings of a mapping are the true ones where they pass the checks. -/
def MapSound (s : AddressSpace) (addr len : Nat) (flags : MapFlags) : Prop :=
  len + (pageSize - 1) < 2 ^ 64 ∧
    (s.placesAt addr (alignUp len) flags.fixed flags.noreplace = true →
      addr + alignUp len < 2 ^ 64)

/-- Where a new mapping may be put: the range the caller insists on, or else wherever
nothing is. -/
def Granted (s : AddressSpace) (fixed : Bool) (addr len va : Nat) : Prop :=
  if fixed then Span addr (addr + len) va else s.regionAt va = none

end AddressSpace

namespace World

variable {s : World} {prot : Prot} {flags : MapFlags} {backing : Backing}

theorem unmapLocked_changed (h : s.space.Tidy) (haddr : pageSize ∣ addr) (hlen : pageSize ∣ len)
    (hsum : addr + len < 2 ^ 64 ∨ s.space.Misses addr (wrap (addr + len))) :
    Changed (Span addr (addr + len)) s.space (s.unmapLocked addr len).space := by
  rcases hsum with hlt | hmiss
  · have hwrap := wrap_of_lt hlt
    have hspec := (unmapLocked_spec len h (by omega) haddr
      (dvd_wrap (Nat.dvd_add haddr hlen))).1
    rwa [hwrap] at hspec
  · rw [unmapLocked_of_misses hmiss]
    exact .refl h

theorem mapAt_changed (prot : Prot) (flags : MapFlags) (backing : Backing)
    (h : s.space.Tidy) (hpos : 0 < len) (haddr : pageSize ∣ addr)
    (hlen : pageSize ∣ len) (huser : addr + len ≤ USER_TOP)
    (hmiss : s.space.Misses addr (addr + len)) :
    Changed (Span addr (addr + len)) s.space
      (s.mapAt addr len prot flags.shared backing).space := by
  have hwrap : wrap (addr + len) = addr + len := wrap_of_lt (by rw [USER_TOP] at huser; omega)
  rw [mapAt, hwrap]
  exact insert_changed (v := ⟨addr, addr + len, prot, flags.shared, backing⟩) h
    (show addr < addr + len by omega) haddr (Nat.dvd_add haddr hlen) huser hmiss

theorem mapAt_regionAt (prot : Prot) (flags : MapFlags) (backing : Backing)
    (h : s.space.Tidy) (hpos : 0 < len) (haddr : pageSize ∣ addr) (hlen : pageSize ∣ len)
    (huser : addr + len ≤ USER_TOP) (hmiss : s.space.Misses addr (addr + len))
    (hva : Span addr (addr + len) va) :
    (s.mapAt addr len prot flags.shared backing).space.regionAt va =
      some ⟨prot, flags.shared, backing.forward (va - addr)⟩ := by
  have hwrap : wrap (addr + len) = addr + len := wrap_of_lt (by rw [USER_TOP] at huser; omega)
  have hmapped := mapAt_changed prot flags backing h hpos haddr hlen huser hmiss
  rw [mapAt, hwrap] at hmapped ⊢
  exact hmapped.tidy.regionAt_eq_some (mem_insert.mpr (.inl rfl)) hva.1 hva.2

/-- What a request for a mapping does, and what it answers. An entry that remains is one of a
region that does. -/
structure Mapped (s : World) (fixed : Bool) (addr len : Nat) (backing : Backing)
    (t : World × Except Errno Nat) : Prop where
  changed : Changed (s.space.Granted fixed addr len) s.space t.1.space
  placed : ∀ a, t.2 = .ok a → pageSize ∣ a ∧ a + len ≤ USER_TOP ∧
    ∀ va, Span a (a + len) va → s.space.Granted fixed addr len va
  kept : ∀ va, t.1.space.ptes (va / pageSize) ≠ none → s.space.regionAt va ≠ none →
    t.1.space.regionAt va = s.space.regionAt va
  shown : ∀ va r, t.1.space.regionAt va = some r → s.space.regionAt va = some r ∨
    ∃ a, pageSize ∣ a ∧ Span a (a + len) va ∧ r.backing = backing.forward (va - a)

theorem Mapped.of_error (h : s.space.Tidy) {fixed : Bool} {e : Errno} :
    Mapped s fixed addr len backing (s, .error e) :=
  ⟨.refl h, fun _ ha => (by cases ha), fun _ _ _ => rfl, fun _ _ => .inl⟩

/-- A mapping at an address where nothing is, of a world that shows nothing new. -/
theorem mapAt_shown {t : World} {a : Nat} {r : Region} (h : t.space.Tidy) (hpos : 0 < len)
    (ha : pageSize ∣ a) (hlen : pageSize ∣ len) (huser : a + len ≤ USER_TOP)
    (hmiss : t.space.Misses a (a + len))
    (hsame : ¬Span a (a + len) va → t.space.regionAt va = s.space.regionAt va)
    (hr : (t.mapAt a len prot flags.shared backing).space.regionAt va = some r) :
    s.space.regionAt va = some r ∨
      ∃ a, pageSize ∣ a ∧ Span a (a + len) va ∧ r.backing = backing.forward (va - a) := by
  by_cases hva : Span a (a + len) va
  · rw [mapAt_regionAt prot flags backing h hpos ha hlen huser hmiss hva] at hr
    cases hr
    exact .inr ⟨a, ha, hva, rfl⟩
  · have hmap := mapAt_changed prot flags backing h hpos ha hlen huser hmiss
    exact .inl ((hsame hva).symm.trans ((hmap.region va hva).symm.trans hr))

theorem mmapFixed_mapped (h : s.space.Tidy) (hpos : 0 < len) (hlen : pageSize ∣ len)
    (hsum : s.space.placesAt addr len true flags.noreplace = true → addr + len < 2 ^ 64) :
    Mapped s true addr len backing (s.mmapFixed addr len prot flags backing) := by
  rw [mmapFixed]
  split
  · exact .of_error h
  · next hpass =>
      split
      · exact .of_error h
      · next hroom =>
          rw [Bool.or_eq_true, not_or, Bool.not_eq_true', Bool.not_eq_false, decide_eq_true_iff,
            Nat.not_lt] at hpass
          have hlt := hsum (by simp [placesAt, hpass.1, hpass.2, hroom])
          have haddr := dvd_of_aligned hpass.1
          have hwrap := wrap_of_lt hlt
          have huser : addr + len ≤ USER_TOP := hwrap ▸ hpass.2
          have hspec := unmapLocked_spec len h (by omega) haddr
            (dvd_wrap (Nat.dvd_add haddr hlen))
          rw [hwrap] at hspec
          have hmap := mapAt_changed prot flags backing
            hspec.1.tidy hpos haddr hlen huser hspec.2.1
          refine ⟨hspec.1.trans hmap, fun a ha => ?_, fun va hentry hsome => ?_, fun va r hr => ?_⟩
          · cases ha
            exact ⟨haddr, huser, fun _ => id⟩
          · exact (hspec.1.trans hmap).region va fun hva =>
              hentry (hspec.2.2 va hva hsome)
          · exact mapAt_shown hspec.1.tidy hpos haddr hlen huser hspec.2.1
              (hspec.1.region va) hr

theorem mmapHinted_mapped (h : s.space.Inv) (hpos : 0 < len) (hlen : pageSize ∣ len)
    (hsum : s.space.placesAt addr len false flags.noreplace = true → addr + len < 2 ^ 64) :
    Mapped s false addr len backing (s.mmapHinted addr len prot flags backing) := by
  have hfree : ∀ {a : Nat}, s.space.Misses a (a + len) → ∀ va, Span a (a + len) va →
      s.space.Granted false addr len va := fun hmiss va hva => h.regionAt_of_free hmiss hva
  rw [mmapHinted]
  split
  · next hpass =>
      have hlt := hsum hpass
      have hwrap := wrap_of_lt hlt
      obtain ⟨hpass, hroom⟩ := Bool.and_eq_true_iff.mp hpass
      obtain ⟨hpass, -⟩ := Bool.and_eq_true_iff.mp hpass
      obtain ⟨hpass, huser⟩ := Bool.and_eq_true_iff.mp hpass
      have haddr := dvd_of_aligned (Bool.and_eq_true_iff.mp hpass).2
      rw [hwrap] at huser hroom
      have hmiss := h.misses_of_rangeFree hroom
      have hmap := mapAt_changed prot flags backing h.toTidy hpos haddr hlen
        (of_decide_eq_true huser) hmiss
      have hchanged := hmap.mono (hfree hmiss)
      refine ⟨hchanged, fun a ha => ?_, fun va _ hsome => hchanged.region va hsome, fun va r hr =>
        mapAt_shown h.toTidy hpos haddr hlen (of_decide_eq_true huser) hmiss (fun _ => rfl) hr⟩
      cases ha
      exact ⟨haddr, of_decide_eq_true huser, hfree hmiss⟩
  · split
    · exact .of_error h.toTidy
    · next start hgap =>
        obtain ⟨htop, hstart, hmiss⟩ := findGap_spec h.toTidy hlen h.hint hgap
        have huser : start + len ≤ USER_TOP := htop.trans (by decide)
        have hmap := mapAt_changed prot flags backing
          (s := { s with space := { s.space with mmapHint := start } })
          (h.toTidy.of_vmas rfl) hpos hstart hlen huser hmiss
        have hwithin := hmap.toWithin.mono (hfree hmiss)
        refine ⟨⟨⟨fun va hva => hwithin.region va hva, fun va hva => hwithin.ptes va hva⟩,
            hmap.tidy, hmap.brk, fun _ => hstart⟩, fun a ha => ?_,
          fun va _ hsome => hwithin.region va hsome, fun va r hr => ?_⟩
        · cases ha
          exact ⟨hstart, huser, hfree hmiss⟩
        · exact mapAt_shown (t := { s with space := { s.space with mmapHint := start } })
            (h.toTidy.of_vmas rfl) hpos hstart hlen huser hmiss (fun _ => rfl) hr

theorem mmap_mapped (addr len : Nat) (prot : Prot) (flags : MapFlags) (backing : Backing)
    (h : s.space.Inv) (hsound : MapSound s.space addr len flags) :
    Mapped s flags.fixed addr (roundUp len) backing (s.mmap addr len prot flags backing) := by
  obtain ⟨hround, hsum⟩ := hsound
  rw [← alignUp_of_lt hround]
  rw [mmap]
  split
  · exact .of_error h.toTidy
  · next hne =>
      have hpos : 0 < alignUp len := by
        have hle := le_roundUp len
        rw [← alignUp_of_lt hround] at hle
        omega
      split
      · next hfixed =>
          rw [hfixed] at hsum ⊢
          exact mmapFixed_mapped h.toTidy hpos (dvd_alignUp len) hsum
      · next hfixed =>
          rw [Bool.eq_false_iff.mpr hfixed] at hsum ⊢
          exact mmapHinted_mapped h hpos (dvd_alignUp len) hsum

theorem munmap_changed (addr len : Nat) (h : s.space.Tidy)
    (hsum : addr + alignUp len < 2 ^ 64 ∨
      s.space.Misses addr (wrap (addr + alignUp len))) :
    Changed (Span addr (addr + alignUp len)) s.space (s.munmap addr len).1.space := by
  rw [munmap]
  split
  · exact .refl h
  · next hpass =>
      rw [Bool.or_eq_true, not_or, Bool.not_eq_true', Bool.not_eq_false] at hpass
      exact unmapLocked_changed h (dvd_of_aligned hpass.1) (dvd_alignUp len) hsum

theorem munmap_of_misses (h : s.space.Misses addr (wrap (addr + alignUp len))) :
    (s.munmap addr len).1 = s := by
  rw [munmap]
  split
  · rfl
  · exact unmapLocked_of_misses h

theorem mprotect_protected {t : World × Except Errno Unit} (h : s.space.Tidy)
    (ht : s.mprotect addr len prot = some t) :
    t.1.mem = s.mem ∧ Protected addr (addr + alignUp len) prot s.space t.1.space := by
  rw [mprotect] at ht
  split at ht
  · cases ht
    exact ⟨rfl, .refl h⟩
  · next hpass =>
      split at ht
      · cases ht
      · next hle =>
          cases ht
          rw [Bool.not_eq_true', Bool.not_eq_false] at hpass
          have haddr := dvd_of_aligned hpass
          have hstop := dvd_wrap (Nat.dvd_add haddr (dvd_alignUp len))
          have hend : wrap (addr + alignUp len) ≤ addr + alignUp len := Nat.mod_le _ _
          have hfirst := splitAt_changed h haddr
          have hsecond := splitAt_changed hfirst.tidy hstop
          have hprotect := protectRange_protected addr prot hsecond.tidy
            (splitAt_border hfirst.tidy)
          have hsplit : Protected addr (wrap (addr + alignUp len)) prot s.space
              ((s.space.splitAt addr).splitAt (wrap (addr + alignUp len))) :=
            (protected_of_split hfirst).trans (protected_of_split hsecond)
          exact ⟨rfl, (hsplit.trans hprotect).mono hend⟩

/-! ### The break -/

theorem extend_changed {s : AddressSpace} (h : s.Tidy) (hv : v ∈ s.vmas) (hlt : v.stop < stop)
    (hstop : pageSize ∣ stop) (huser : stop ≤ USER_TOP) (hmiss : s.Misses v.stop stop) :
    Changed (Span v.stop stop) s (s.insert { v with stop := stop }) := by
  have hnonempty := h.apart.nonempty v hv
  have hclear : ∀ w ∈ s.vmas, w.start ≠ v.start → w.stop ≤ v.start ∨ stop ≤ w.start := by
    intro w hw hne
    rcases h.apart.le_or_le hw hv hne with hle | hle
    · exact .inl hle
    · refine .inr (Nat.le_of_not_lt fun hws => ?_)
      have hend := hmiss w hw hws
      have hwne := h.apart.nonempty w hw
      omega
  have htidy : (s.insert { v with stop := stop }).Tidy := by
    have hapart := Map.Apart.insert (a := ({ v with stop := stop } : Vma)) h.apart
      (hnonempty.trans hlt) hclear
    refine ⟨hapart, fun w hw => ?_, fun w hw => ?_, fun w hw => ?_⟩
    all_goals rcases mem_insert.mp hw with rfl | ⟨hws, -⟩
    · exact h.start v hv
    · exact h.start w hws
    · exact hstop
    · exact h.stop w hws
    · exact huser
    · exact h.user w hws
  refine ⟨⟨fun va hva => ?_, fun _ _ => rfl⟩, htidy, rfl, id⟩
  refine h.regionAt_congr htidy (fun w hw hlo hhi => ?_) fun w hw hlo hhi => ?_
  · by_cases heq : w = v
    · subst heq
      exact ⟨{ w with stop := stop }, mem_insert.mpr (.inl rfl), hlo, hhi.trans hlt, rfl⟩
    · refine ⟨w, mem_insert.mpr (.inr ⟨hw, fun hkey => heq ?_⟩), hlo, hhi, rfl⟩
      exact Map.eq_of_key_eq hw hv hkey
  · rcases mem_insert.mp hw with rfl | ⟨hws, -⟩
    · exact ⟨v, hv, hlo, Nat.lt_of_not_le fun hge => hva ⟨hge, hhi⟩⟩
    · exact ⟨w, hws, hlo, hhi⟩

theorem growBrk_changed (start : Nat) (h : s.space.Tidy) {curEnd newEnd : Nat}
    (hlt : curEnd < newEnd) (hcur : pageSize ∣ curEnd) (hnew : pageSize ∣ newEnd)
    (huser : newEnd ≤ USER_TOP) (hmiss : s.space.Misses curEnd newEnd) :
    Changed (Span curEnd newEnd) s.space (s.growBrk start curEnd newEnd) := by
  have hheap := insert_changed (v := heap curEnd newEnd) h hlt hcur hnew huser hmiss
  rw [growBrk]
  split
  · next v hget =>
      split
      · next heq =>
          subst heq
          exact extend_changed h (Map.get?_eq_some.mp hget).1 hlt hnew huser hmiss
      · exact hheap
  · exact hheap

end World

namespace AddressSpace

/-- The pages between the old break and the new one; those above it only where nothing is. -/
def BrkAsked (s : AddressSpace) (newBrk va : Nat) : Prop :=
  Span (roundUp s.brk) (roundUp newBrk) va ∧ s.regionAt va = none ∨
    Span (roundUp newBrk) (roundUp s.brk) va

/-- A step that changes no more than it was asked to, in an address space that stays in
order. -/
structure Kept (P : Nat → Prop) (s t : AddressSpace) : Prop extends Within P s t where
  inv : t.Inv

variable {s t : AddressSpace} {P Q : Nat → Prop}

theorem Changed.kept (h : Changed P s t) (hs : s.Inv) : Kept P s t :=
  ⟨h.toWithin, h.tidy, h.brk.symm ▸ hs.brk, h.hint hs.hint⟩

/-- The new break does not count as a change of what is mapped. -/
theorem Changed.setBrk (h : Changed P s t) (hs : s.Inv) {newBrk : Nat} (hle : newBrk ≤ USER_TOP) :
    Kept P s { t with brk := newBrk } :=
  ⟨⟨fun va hva => h.region va hva, fun va hva => h.ptes va hva⟩, h.tidy.of_vmas rfl, hle,
    h.hint hs.hint⟩

end AddressSpace

namespace World

variable {s : World} {prot : Prot} {backing : Backing}

theorem brk_kept (h : s.space.Inv) {newBrk : Nat} (hround : newBrk + (pageSize - 1) < 2 ^ 64) :
    Kept (s.space.BrkAsked newBrk) s.space (s.brk newBrk).1.space := by
  have hbrk := h.brk
  have hcur : alignUp s.space.brk = roundUp s.space.brk :=
    alignUp_of_lt (by rw [USER_TOP] at hbrk; rw [pageSize_eq]; omega)
  have htop : roundUp s.space.brk ≤ USER_TOP := by
    rw [USER_TOP] at hbrk ⊢
    rw [roundUp_eq]
    omega
  have hnew := le_roundUp newBrk
  have hdvd : ∀ n, pageSize ∣ roundUp n := fun n => Nat.dvd_mul_left pageSize _
  rw [World.brk, hcur, alignUp_of_lt hround]
  split
  · exact (Changed.refl h.toTidy).kept h
  · split
    · next hgrow =>
        split
        · exact (Changed.refl h.toTidy).kept h
        · next hroom =>
            rw [Bool.or_eq_true, not_or, Bool.not_eq_true', Bool.not_eq_false,
              decide_eq_true_iff, Nat.not_lt] at hroom
            have hmiss := h.misses_of_rangeFree hroom.1
            have huser : roundUp newBrk ≤ USER_TOP := hroom.2.trans (by decide)
            have hchanged := growBrk_changed s.space.brkStart h.toTidy hgrow (hdvd _)
              (hdvd _) huser hmiss
            refine (hchanged.mono fun va hva => ?_).setBrk h (hnew.trans huser)
            exact .inl ⟨hva, h.regionAt_of_free hmiss hva⟩
    · split
      · next hshrink =>
          have hsum : roundUp newBrk + (roundUp s.space.brk - roundUp newBrk) =
              roundUp s.space.brk := by omega
          have hunmap := unmapLocked_changed h.toTidy (hdvd newBrk)
            (Nat.dvd_sub (hdvd s.space.brk) (hdvd newBrk))
            (.inl (by rw [hsum]; rw [USER_TOP] at htop; omega))
          rw [hsum] at hunmap
          exact (hunmap.mono fun va => .inr).setBrk h (hnew.trans (hshrink.le.trans htop))
      · next hgrow hshrink =>
          exact (Changed.refl h.toTidy).setBrk h (by omega)

end World

end MindOS.Kernel.Mm
