import MindOS.Kernel.Mm.Isolation

/-!
# Entries and protections

An entry of the page tables always lets the process read: only whether it may write and execute is
taken from the protection of the region. So the entries grant what the regions do as long as pages
are put in, and kept, only where reading is granted.
-/

namespace MindOS.Kernel.Mm

open AddressSpace Transition
open Tmpfs (pageSize wrap)

variable {addr stop n : Nat} {v : Vma} {e : Pte} {prot : Prot}

/-- All that an entry lets a process do is granted. -/
structure Prot.Covers (prot : Prot) (e : Pte) : Prop where
  read : prot.read = true
  write : e.writable = true → prot.write = true
  exec : e.nx = false → prot.exec = true

namespace AddressSpace

variable {s t : AddressSpace}

/-- Every entry is one of a page of a region, whose protection grants all that it does. -/
def Covered (s : AddressSpace) : Prop :=
  ∀ n e, s.ptes n = some e → ∃ r, s.regionAt (n * pageSize) = some r ∧ r.prot.Covers e

structure Guarded (s : AddressSpace) : Prop extends s.Inv where
  covers : s.Covered

/-- A fault that is let through to a page without an entry is in a region that grants reading. -/
def Readable (s : AddressSpace) (addr : Nat) (write exec : Bool) : Prop :=
  ∀ r, s.regionAt (addr / pageSize * pageSize) = some r → s.ptes (addr / pageSize) = none →
    (write = true → r.prot.write = true) → (exec = true → r.prot.exec = true) →
    (write = false → exec = false → r.prot.read = true) → r.prot.read = true

/-! ### Faults -/

/-- The page has its old entry, or one that lets the process write and execute only as the region
does. -/
def Entered (v : Vma) (n : Nat) (s t : AddressSpace) : Prop :=
  ∃ o, t = { s with ptes := Function.update s.ptes n o } ∧ (o = s.ptes n ∨ ∃ e, o = some e ∧
    (e.writable = true → v.prot.write = true) ∧ (e.nx = false → v.prot.exec = true))

theorem Entered.refl : Entered v n s s :=
  ⟨s.ptes n, by rw [Function.update_eq_self], .inl rfl⟩

end AddressSpace

namespace World

variable {s : World} {va : Nat} {picks : Picks} {write : Bool}

theorem entered_mapPage {mem : Memory} (hwrite : e.writable = true → v.prot.write = true)
    (hexec : e.nx = false → v.prot.exec = true) :
    Entered v n s.space (({ s with mem := mem } : World).mapPage n e).space :=
  ⟨some e, rfl, .inr ⟨e, rfl, hwrite, hexec⟩⟩

theorem pteFlags_exec {f : Nat} (h : (v.pteFlags f).nx = false) : v.prot.exec = true := by
  simpa [Vma.pteFlags] using h

theorem mapCached_entered {f : Nat} {pick : Option Nat} :
    Entered v n s.space (s.mapCached n v write f pick).1.space := by
  rw [mapCached]
  split
  · exact entered_mapPage id pteFlags_exec
  split
  · split
    · exact .refl
    · exact entered_mapPage id pteFlags_exec
  · exact entered_mapPage (fun h => Bool.noConfusion h) fun h => @pteFlags_exec v f h

theorem populateNew_entered :
    Entered v (va / pageSize) s.space (s.populateNew v va write picks).1.space := by
  rw [populateNew]
  split
  · split
    · exact .refl
    · exact entered_mapPage id pteFlags_exec
  · exact entered_mapPage id fun h => @pteFlags_exec v 0 h
  · split
    · exact .refl
    · exact mapCached_entered

theorem populatePage_entered (hwrite : write = true → v.prot.write = true)
    (hold : ∀ e, s.space.ptes (va / pageSize) = some e → e.nx = false → v.prot.exec = true) :
    Entered v (va / pageSize) s.space (s.populatePage v va write picks).1.space := by
  rw [populatePage]
  split
  · exact populateNew_entered
  · rename_i e he
    split
    · rename_i hw
      have hw := hwrite (Bool.and_eq_true_iff.mp hw).1
      split
      · rw [copyOnWrite]
        split
        · exact entered_mapPage (fun _ => hw) (hold e he)
        split
        · exact .refl
        · exact entered_mapPage (fun _ => hw) (hold e he)
      · exact .refl
    · exact .refl

end World

namespace AddressSpace

variable {s t : AddressSpace}

theorem Guarded.entered (h : s.Guarded) {r : Region} (hr : s.regionAt (n * pageSize) = some r)
    (hprot : r.prot = v.prot) (hread : s.ptes n = none → v.prot.read = true)
    (ht : Entered v n s t) : t.Guarded := by
  obtain ⟨o, rfl, ho⟩ := ht
  refine ⟨⟨h.toTidy.of_vmas rfl, h.brk, h.hint⟩, fun k e he => ?_⟩
  change Function.update s.ptes n o k = some e at he
  change ∃ r, s.regionAt (k * pageSize) = some r ∧ r.prot.Covers e
  by_cases hk : k = n
  · subst hk
    rw [Function.update_self] at he
    obtain rfl | ⟨e', rfl, hwrite, hexec⟩ := ho
    · exact h.covers k e he
    · obtain rfl := Option.some.inj he
      refine ⟨r, hr, ?_, fun hw => by rw [hprot, hwrite hw], fun hx => by rw [hprot, hexec hx]⟩
      cases hold : s.ptes k with
      | none => rw [hprot, hread hold]
      | some e =>
          obtain ⟨r', hr', hcovers⟩ := h.covers k e hold
          rw [Option.some.inj (hr.symm.trans hr')]
          exact hcovers.read
  · rw [Function.update_of_ne hk] at he
    exact h.covers k e he

end AddressSpace

namespace World

variable {s : World} {picks : Picks} {write exec : Bool}

theorem fault_guarded (h : s.space.Guarded) (hread : s.space.Readable addr write exec) :
    (s.fault addr write exec picks).1.space.Guarded := by
  rw [fault]
  split
  · exact h
  rename_i v hfind
  split
  · exact h
  rename_i hwrite
  split
  · exact h
  rename_i hexec
  split
  · exact h
  rename_i hplain
  obtain ⟨hv, hlo, hhi⟩ := Machine.page_mem_region h.toTidy hfind
  have hr := h.toTidy.regionAt_eq_some hv hlo hhi
  have hwrite : write = true → v.prot.write = true := fun hw => by simpa [hw] using hwrite
  have hpage : addr / pageSize * pageSize / pageSize = addr / pageSize :=
    Nat.mul_div_cancel _ (by decide)
  refine h.entered (v := v) (n := addr / pageSize) hr rfl (fun hnone => ?_) ?_
  · have hexec : exec = true → v.prot.exec = true := fun hx => by simpa [hx] using hexec
    have hplain : write = false → exec = false → v.prot.read = true := fun hw hx => by
      simpa [hw, hx] using hplain
    exact hread _ hr hnone hwrite hexec hplain
  · have hentered := @populatePage_entered v s (addr / pageSize * pageSize) picks write hwrite
      fun e he hnx => by
        rw [hpage] at he
        obtain ⟨r, hr', hcovers⟩ := h.covers _ e he
        rw [← Option.some.inj (hr.symm.trans hr')] at hcovers
        exact hcovers.exec hnx
    rwa [hpage] at hentered

theorem userWrite_guarded {b : UInt8} (h : s.space.Guarded)
    (hread : s.space.Readable addr true false) : (s.userWrite addr b picks).space.Guarded := by
  have hstore : ∀ w : World, (w.storeByte addr b).space = w.space := fun w => by
    rw [storeByte]
    repeat' split
    all_goals rfl
  have hfault := @fault_guarded addr s picks true false h hread
  rw [userWrite]
  split
  · rwa [hstore]
  · split
    · rename_i heq
      rwa [heq] at hfault
    · rename_i heq
      rw [heq] at hfault
      rwa [hstore]

/-! ### Mappings -/

theorem mmap_ptes (s : World) (addr len : Nat) (prot : Prot) (flags : MapFlags)
    (backing : Backing) (n : Nat) :
    (s.mmap addr len prot flags backing).1.space.ptes n = s.space.ptes n ∨
      (s.mmap addr len prot flags backing).1.space.ptes n = none := by
  rw [mmap]
  split
  · exact .inl rfl
  split
  · rw [mmapFixed]
    split
    · exact .inl rfl
    split
    · exact .inl rfl
    · exact foldl_cut_ptes n
  · rw [mmapHinted]
    split
    · exact .inl rfl
    split
    · exact .inl rfl
    · exact .inl rfl

theorem mmap_guarded {len : Nat} {flags : MapFlags} {backing : Backing} (h : s.space.Guarded)
    (hsound : s.space.MapSound addr len flags) :
    (s.mmap addr len prot flags backing).1.space.Guarded := by
  have hmapped := mmap_mapped addr len prot flags backing h.toInv hsound
  refine ⟨(hmapped.changed.kept h.toInv).inv, fun n e he => ?_⟩
  obtain hsame | hnone := mmap_ptes s addr len prot flags backing n
  · rw [hsame] at he
    obtain ⟨r, hr, hcovers⟩ := h.covers n e he
    have hpage : n * pageSize / pageSize = n := Nat.mul_div_cancel _ (by decide)
    refine ⟨r, (hmapped.kept (n * pageSize) ?_ ?_).trans hr, hcovers⟩
    · rw [hpage, hsame, he]
      exact Option.some_ne_none e
    · rw [hr]
      exact Option.some_ne_none r
  · rw [hnone] at he
    cases he

/-! ### Protections -/

/-- A page shows and has what it did, or the new protection, in its region and in its entry. -/
def Restated (addr stop : Nat) (prot : Prot) (s t : AddressSpace) : Prop :=
  ∀ n, t.regionAt (n * pageSize) = s.regionAt (n * pageSize) ∧ t.ptes n = s.ptes n ∨
    Span addr stop (n * pageSize) ∧
      t.regionAt (n * pageSize) =
        (s.regionAt (n * pageSize)).map (fun r => { r with prot := prot }) ∧
      t.ptes n = (s.ptes n).map (reprotect prot)

theorem Restated.refl {s : AddressSpace} : Restated addr stop prot s s := fun _ => .inl ⟨rfl, rfl⟩

theorem Restated.trans {s t u : AddressSpace} (h : Restated addr stop prot s t)
    (h' : Restated addr stop prot t u) : Restated addr stop prot s u := by
  intro n
  obtain ⟨hr', he'⟩ | ⟨hspan, hr', he'⟩ := h' n
  · rw [hr', he']
    exact h n
  · refine .inr ⟨hspan, ?_⟩
    rw [hr', he']
    obtain ⟨hr, he⟩ | ⟨-, hr, he⟩ := h n
    · rw [hr, he]
      exact ⟨rfl, rfl⟩
    · rw [hr, he, Option.map_map, Option.map_map]
      exact ⟨rfl, rfl⟩

theorem restated_of_split {a : Nat} {s t : AddressSpace} (h : Changed (Span a a) s t) :
    Restated addr stop prot s t := by
  have hnot : ∀ va, ¬Span a a va := fun va hva => absurd hva.2 (Nat.not_lt.mpr hva.1)
  intro n
  have hptes := h.ptes (n * pageSize) (hnot _)
  rw [Nat.mul_div_cancel _ (by decide : 0 < pageSize)] at hptes
  exact .inl ⟨h.region _ (hnot _), hptes⟩

theorem protectVma_restated {s : AddressSpace} (h : s.Tidy) (hv : v ∈ s.vmas) (hlo : addr ≤ v.start)
    (hhi : v.stop ≤ stop) : Restated addr stop prot s (protectVma prot s v.start) := by
  intro n
  have hchanged := @protectVma_changed v s prot h hv
  have hpage : n * pageSize / pageSize = n := Nat.mul_div_cancel n (by decide)
  have hpages : n ∈ pages v.start v.stop ↔ Span v.start v.stop (n * pageSize) := by
    have hmem := @mem_pages v.start v.stop (n * pageSize) (h.start v hv) (h.stop v hv)
    rwa [hpage] at hmem
  by_cases hin : Span v.start v.stop (n * pageSize)
  · refine .inr ⟨⟨hlo.trans hin.1, hin.2.trans_le hhi⟩, ?_, ?_⟩
    · rw [h.regionAt_eq_some hv hin.1 hin.2, Option.map_some]
      exact hchanged.tidy.regionAt_eq_some ((mem_protectVma hv).mpr (.inl rfl)) hin.1 hin.2
    · rw [protectVma_of_mem hv, foldl_protectPage]
      exact if_pos (hpages.mpr hin)
  · have hptes := hchanged.ptes (n * pageSize) hin
    rw [hpage] at hptes
    exact .inl ⟨hchanged.region _ hin, hptes⟩

theorem mprotect_restated {len : Nat} {t : World × Except Errno Unit} (h : s.space.Tidy)
    (ht : s.mprotect addr len prot = some t) :
    Restated addr (addr + alignUp len) prot s.space t.1.space := by
  rw [mprotect] at ht
  split at ht
  · cases ht
    exact .refl
  rename_i hpass
  split at ht
  · cases ht
  cases ht
  rw [Bool.not_eq_true', Bool.not_eq_false] at hpass
  have haddr := dvd_of_aligned hpass
  have hstop := dvd_wrap (Nat.dvd_add haddr (dvd_alignUp len))
  have hend : wrap (addr + alignUp len) ≤ addr + alignUp len := Nat.mod_le _ _
  have hfirst := splitAt_changed h haddr
  have hsecond := splitAt_changed hfirst.tidy hstop
  have hnone : Restated addr (addr + alignUp len) prot _ _ := restated_of_split hfirst
  have hsplit := hnone.trans (restated_of_split hsecond)
  refine hsplit.trans ?_
  exact protectRange_rec (fun _ _ => .refl) (fun _ _ _ => .trans)
    (fun _ _ htidy hv hlo hhi => protectVma_restated htidy hv hlo (hhi.trans hend)) hsecond.tidy
    (splitAt_border hfirst.tidy)

/-- Where the new protection grants no reading there is no page. -/
theorem mprotect_guarded {len : Nat} {t : World × Except Errno Unit} (h : s.space.Guarded)
    (hread : prot.read = true ∨
      ∀ n, Span addr (addr + alignUp len) (n * pageSize) → s.space.ptes n = none)
    (ht : s.mprotect addr len prot = some t) : t.1.space.Guarded := by
  refine ⟨((mprotect_protected h.toTidy ht).2.toChanged.kept h.toInv).inv, fun n e he => ?_⟩
  obtain ⟨hr, hptes⟩ | ⟨hspan, hr, hptes⟩ := mprotect_restated h.toTidy ht n
  · rw [hptes] at he
    rw [hr]
    exact h.covers n e he
  · rw [hptes] at he
    obtain ⟨e, hold, rfl⟩ := Option.map_eq_some_iff.mp he
    obtain ⟨r, hregion, -⟩ := h.covers n e hold
    refine ⟨{ r with prot := prot }, by rw [hr, hregion, Option.map_some], ?_, fun hw => ?_,
      fun hx => ?_⟩
    · refine hread.resolve_right fun hnone => ?_
      rw [hnone n hspan] at hold
      cases hold
    · exact (Bool.and_eq_true_iff.mp hw).1
    · simpa [reprotect] using hx

end World

namespace Machine

variable {m t : Machine} {p c : Nat} {s s' sc : AddressSpace}

/-- Every present entry of every process grants no more than the region of its page. -/
def Covered (m : Machine) : Prop := ∀ p s, m.spaces p = some s → s.Covered

def Guarded (m : Machine) : Prop := ∀ p s, m.spaces p = some s → s.Guarded

theorem Guarded.put (h : m.Guarded) {w : World} (hw : w.space.Guarded) : (m.put p w).Guarded := by
  intro q s hs
  by_cases hq : q = p
  · rw [hq, put_spaces_self] at hs
    rwa [← Option.some.inj hs]
  · rw [put_spaces_of_ne hq] at hs
    exact h q s hs

/-- The entry after a fork grants no more than the one before. -/
theorem covers_forkPte (h : prot.Covers e) : prot.Covers (v.forkPte e) := by
  rcases forkPte_cases v e with ⟨-, -, heq⟩ | ⟨heq, -⟩
  · rw [heq]
    exact ⟨h.read, fun hw => Bool.noConfusion hw, h.exec⟩
  · rwa [heq]

theorem Guarded.forkPage (h : m.Guarded) (hs : m.spaces p = some s) (hc : m.spaces c = some sc)
    (hpc : c ≠ p) (hvmas : sc.vmas = s.vmas) : (forkPage p c m (v, n)).Guarded := by
  obtain ⟨s', sc', hs', hc', hsv, hcv, hsinv, hcinv, hrest⟩ :=
    @forkPage_spaces m p c n s sc v hs hc hpc
  cases he : m.pte p n with
  | none =>
      have hsame : Machine.forkPage p c m (v, n) = m := by
        rw [Machine.forkPage]
        simp only [he]
      rwa [hsame]
  | some e =>
      have hptes : ∀ q t, (Machine.forkPage p c m (v, n)).spaces q = some t → ∀ k,
          t.ptes k = if k = n ∧ (q = p ∨ q = c) then some (v.forkPte e) else m.pte q k :=
        fun q t ht k => (pte_of_space ht).symm.trans (forkPage_pte hs hc hpc he)
      rw [pte_of_space hs] at he
      obtain ⟨r, hr, hcovers⟩ := (h p s hs).covers n e he
      intro q t ht
      by_cases hq : q = p ∨ q = c
      · -- parent and child have the regions of the parent
        have ht' : t.Inv ∧ (∀ k e, m.pte q k = some e →
            ∃ r, t.regionAt (k * pageSize) = some r ∧ r.prot.Covers e) ∧ t.vmas = s.vmas := by
          rcases hq with rfl | rfl
          · rw [hs'] at ht
            cases ht
            refine ⟨hsinv (h q s hs).toInv, fun k e hk => ?_, hsv⟩
            rw [regionAt_of_vmas hsv]
            rw [pte_of_space hs] at hk
            exact (h q s hs).covers k e hk
          · rw [hc'] at ht
            cases ht
            refine ⟨hcinv (h q sc hc).toInv, fun k e hk => ?_, hcv.trans hvmas⟩
            rw [regionAt_of_vmas hcv]
            rw [pte_of_space hc] at hk
            exact (h q sc hc).covers k e hk
        obtain ⟨hinv, hold, htv⟩ := ht'
        refine ⟨hinv, fun k e' he' => ?_⟩
        rw [hptes q t ht k] at he'
        split at he'
        · rename_i hk
          obtain rfl := Option.some.inj he'
          refine ⟨r, ?_, covers_forkPte hcovers⟩
          rw [regionAt_of_vmas htv, hk.1, hr]
        · exact hold k e' he'
      · rw [hrest q (fun hqp => hq (.inl hqp)) fun hqc => hq (.inr hqc)] at ht
        exact h q t ht

theorem Guarded.fork (h : m.Guarded) (hc : m.spaces c = none) (ht : m.fork p c = some t) :
    t.Guarded := by
  obtain ⟨s, hs, rfl⟩ := Option.map_eq_some_iff.mp ht
  have hpc : c ≠ p := fun heq => by
    rw [heq, hs] at hc
    cases hc
  have hchild : (m.put c ⟨{ s with ptes := fun _ => none }, m.mem⟩).Guarded := by
    have hinv := (h p s hs).toInv
    exact h.put ⟨⟨hinv.toTidy.of_vmas rfl, hinv.brk, hinv.hint⟩, fun n e he => by cases he⟩
  have hfold : ∀ (l : List (Vma × Nat)) (m : Machine) (s sc : AddressSpace), m.Guarded →
      m.spaces p = some s → m.spaces c = some sc → sc.vmas = s.vmas →
      (l.foldl (Machine.forkPage p c) m).Guarded := by
    intro l
    induction l with
    | nil => exact fun m s sc h _ _ _ => h
    | cons visit l ih =>
        intro m s sc h hs hc hvmas
        obtain ⟨v, n⟩ := visit
        obtain ⟨s', sc', hs', hc', hsv, hcv, -⟩ := @forkPage_spaces m p c n s sc v hs hc hpc
        exact ih _ s' sc' (h.forkPage hs hc hpc hvmas) hs' hc'
          (hcv.trans (hvmas.trans hsv.symm))
  exact hfold _ _ s _ hchild ((Function.update_of_ne hpc.symm _ _).trans hs)
    (Function.update_self _ _ _) rfl

end Machine

namespace Act

open Machine

/-- Pages are put in, and kept, only where reading is granted, and no sum wraps. -/
def Readable (m : Machine) : Act → Prop
  | mmap p addr len _ flags _ => ∀ s, m.spaces p = some s →
      s.MapSound addr.toNat len.toNat flags
  | fault p addr w exec _ => ∀ s, m.spaces p = some s → s.Readable addr.toNat w exec
  | fork _ _ => True
  | mprotect p addr len prot => prot.read = true ∨ ∀ s, m.spaces p = some s →
      ∀ n, Span addr.toNat (addr.toNat + alignUp len.toNat) (n * pageSize) → s.ptes n = none
  | write p addr _ _ => ∀ s, m.spaces p = some s → s.Readable addr.toNat true false

variable {m t : Machine} {a : Act}

theorem guarded_of_step (h : m.Guarded) (hstep : m.step a = some t) (ha : Readable m a) :
    t.Guarded := by
  cases a with
  | mmap p addr len prot flags backing =>
      rw [step] at hstep
      obtain ⟨s, w, hs, hw, rfl⟩ := on_eq_some hstep
      cases hw
      exact h.put (World.mmap_guarded (h p s hs) (ha s hs))
  | fault p addr write exec picks =>
      rw [step] at hstep
      obtain ⟨s, w, hs, hw, rfl⟩ := on_eq_some hstep
      cases hw
      exact h.put (World.fault_guarded (h p s hs) (ha s hs))
  | fork p c =>
      rw [step] at hstep
      split at hstep
      · cases hstep
      · rename_i hc
        rw [Bool.not_eq_true, Option.isSome_eq_false_iff, Option.isNone_iff_eq_none] at hc
        exact h.fork hc hstep
  | mprotect p addr len prot =>
      rw [step] at hstep
      obtain ⟨s, w, hs, hw, rfl⟩ := on_eq_some hstep
      obtain ⟨u, hu, rfl⟩ := Option.map_eq_some_iff.mp hw
      exact h.put (World.mprotect_guarded (h p s hs) (ha.imp_right fun ha => ha s hs) hu)
  | write p addr b picks =>
      rw [step] at hstep
      obtain ⟨s, w, hs, hw, rfl⟩ := on_eq_some hstep
      cases hw
      exact h.put (World.userWrite_guarded (h p s hs) (ha s hs))

/-- Nothing was touched yet. -/
def Untouched (m : Machine) : Prop :=
  ∀ p s, m.spaces p = some s → s.Inv ∧ ∀ n, s.ptes n = none

/-- As long as pages are put in and kept only where reading is granted, no entry grants more than
the region of its page. -/
theorem covered_of_readable (m : Machine) (acts : List Act) (h : Untouched m)
    (hread : Along step (fun m a _ => Readable m a) m acts) :
    Along step (fun _ _ t => t.Covered) m acts := by
  have hstart : m.Guarded := fun p s hs => ⟨(h p s hs).1, fun n e he => by
    rw [(h p s hs).2 n] at he
    cases he⟩
  exact Along.imp Machine.Guarded (fun _ _ _ => guarded_of_step)
    (fun _ _ _ h hstep ha p s hs => (guarded_of_step h hstep ha p s hs).covers) hstart hread

theorem twoProcesses_untouched : Untouched twoProcesses := twoProcesses_fresh.spaces

theorem covered_of_readable_read : Along step (fun _ _ t => t.Covered) twoProcesses
    [mapFile true, fault 0 0x10000 false false ⟨none, none⟩, fork 0 2,
      mprotect 0 0x10000 0x1000 ⟨true, false, false⟩] := by
  refine covered_of_readable twoProcesses _ twoProcesses_untouched fun t ht => ?_
  cases ht
  exact ⟨fun s _ => ⟨by decide, fun _ => by decide⟩, fun _ _ => ⟨fun _ _ _ _ _ _ _ h => h rfl rfl,
    fun _ _ => ⟨trivial, fun _ _ => ⟨.inl rfl, trivial⟩⟩⟩⟩

/-- A page that was read stays readable when the process gives up all access to it. -/
theorem entries_not_always_covered : ¬∀ (m : Machine) (acts : List Act), Untouched m →
    Along step (fun _ _ t => t.Covered) m acts := by
  intro hall
  have hrun := hall twoProcesses [mapFile true, fault 0 0x10000 false false ⟨none, none⟩,
    mprotect 0 0x10000 0x1000 ⟨false, false, false⟩] twoProcesses_untouched
  have hcovered := (((hrun _ rfl).2 _ rfl).2 _ rfl).1
  obtain ⟨r, hr, hcovers⟩ := hcovered 0 _ rfl 16 _ rfl
  have hread : r.prot.read = false := by
    rw [← Option.some.inj hr]
    decide
  exact Bool.noConfusion (hread.symm.trans hcovers.read)

end Act

end MindOS.Kernel.Mm
