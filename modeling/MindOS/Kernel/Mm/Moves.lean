import MindOS.Kernel.Mm.Resizes

/-!
# Moves of a mapping

## The new range of a move and the copy

A move maps a new range, and copies the pages of anonymous memory that are there. Where each page
finds a frame, all of them have a copy.
-/

namespace MindOS.Kernel.Mm

open AddressSpace Machine Ranges
open Tmpfs (Page pageSize wrap)

variable {addr stop va n : Nat} {v : Vma}

/-! ### Where a moved mapping goes -/

/-- Where the new range is put, if it is anywhere. -/
def AddressSpace.placed (s : AddressSpace) (fixed : Bool) (newAddr newLen : Nat) : Option Nat :=
  if fixed then if s.placesAt newAddr newLen true false then some newAddr else none
  else s.findGap newLen s.mmapHint

namespace World

variable {s t : World} {len src oldLen newLen newAddr dst : Nat} {prot : Prot} {backing : Backing}
  {fixed shared : Bool} {p : Nat} {m : Machine}

/-- The place of the new range is cleared. -/
def cleared (s : World) (fixed : Bool) (dst newLen : Nat) : World :=
  if fixed then s.unmapLocked dst newLen
  else { s with space := { s.space with mmapHint := dst } }

/-- The new range is there. -/
def opened (s : World) (fixed shared : Bool) (dst newLen : Nat) (prot : Prot) (backing : Backing) :
    World :=
  (s.cleared fixed dst newLen).mapAt dst newLen prot shared backing

theorem mmap_of_placed (hnew : pageSize ∣ newLen) (hpos : 0 < newLen) (hbound : newLen < 2 ^ 64) :
    (s.space.placed fixed newAddr newLen = none ∧ ∃ e, s.mmap (if fixed then newAddr else 0) newLen
        prot ⟨fixed, false, shared⟩ backing = (s, .error e)) ∨
      ∃ dst, s.space.placed fixed newAddr newLen = some dst ∧
        s.mmap (if fixed then newAddr else 0) newLen prot ⟨fixed, false, shared⟩ backing =
          (s.opened fixed shared dst newLen prot backing, .ok dst) := by
  rw [mmap, if_neg (Nat.ne_of_gt hpos), alignUp_of_dvd hnew hbound, placed]
  cases fixed with
  | true =>
      simp only [if_true, mmapFixed, placesAt, Bool.false_and, Bool.not_false, Bool.and_true,
        Bool.false_eq_true, if_false]
      cases hal : aligned newAddr with
      | false => exact .inl ⟨rfl, _, rfl⟩
      | true =>
          by_cases htop : USER_TOP < wrap (newAddr + newLen)
          · refine .inl ⟨if_neg ?_, .EINVAL, if_pos ?_⟩
            · simpa using htop
            · simpa using htop
          · refine .inr ⟨newAddr, if_pos ?_, if_neg ?_⟩
            · simpa using htop
            · simpa using htop
  | false =>
      simp only [Bool.false_eq_true, if_false, mmapHinted, bne_self_eq_false, Bool.false_and]
      cases hgap : s.space.findGap newLen s.space.mmapHint with
      | none => exact .inl ⟨rfl, _, rfl⟩
      | some start => exact .inr ⟨start, rfl, rfl⟩

/-- `u` is `s` with a range that shows its backing, and has no entries yet. -/
structure Ranged (s : World) (dst len : Nat) (prot : Prot) (shared : Bool) (backing : Backing)
    (u : World) : Prop where
  region : ∀ va, Span dst (dst + len) va →
    u.space.regionAt va = some ⟨prot, shared, backing.forward (va - dst)⟩
  clear : ∀ va, Span dst (dst + len) va → u.space.ptes (va / pageSize) = none
  within : Within (Span dst (dst + len)) s.space u.space
  tidy : u.space.Tidy
  mem : Memory.Lowered s.mem u.mem

theorem pte_of_no_region (h : (m.put p s).Isolated)
    (hnone : s.space.regionAt (n * pageSize) = none) : s.space.ptes n = none := by
  by_contra hsome
  obtain ⟨e, he⟩ := Option.ne_none_iff_exists'.mp hsome
  obtain ⟨r, hr, -⟩ := h.entries p n e (pte_put_self.trans he)
  rw [regionAt_put_self, hnone] at hr
  cases hr

theorem mapAt_ranged {u : World} (h : u.space.Tidy) (hpos : 0 < len) (hdst : pageSize ∣ dst)
    (hlen : pageSize ∣ len) (huser : dst + len ≤ USER_TOP)
    (hmiss : u.space.Misses dst (dst + len))
    (hwithin : Within (Span dst (dst + len)) s.space u.space)
    (hclear : ∀ va, Span dst (dst + len) va → u.space.ptes (va / pageSize) = none)
    (hmem : Memory.Lowered s.mem u.mem) :
    Ranged s dst len prot shared backing (u.mapAt dst len prot shared backing) := by
  have hmapped := mapAt_changed prot ⟨true, false, shared⟩ backing h hpos hdst hlen huser hmiss
  exact ⟨fun va hva => mapAt_regionAt prot ⟨true, false, shared⟩ backing h hpos hdst hlen huser
    hmiss hva, hclear, hwithin.trans hmapped.toWithin, hmapped.tidy, hmem⟩

theorem opened_ranged (h : (m.put p s).Isolated) (hnew : pageSize ∣ newLen) (hpos : 0 < newLen)
    (hplaced : s.space.placed fixed newAddr newLen = some dst) (hsum : dst + newLen < 2 ^ 64) :
    pageSize ∣ dst ∧ dst + newLen ≤ USER_TOP ∧
      Ranged s dst newLen prot shared backing (s.opened fixed shared dst newLen prot backing) := by
  have hinv := h.spaces p s.space put_spaces_self
  rw [placed] at hplaced
  cases fixed with
  | true =>
      rw [if_pos rfl] at hplaced
      split at hplaced
      case isFalse => cases hplaced
      next hplaces =>
      obtain rfl := Option.some.inj hplaced
      have hwrap := wrap_of_lt hsum
      obtain ⟨hpass, -⟩ := Bool.and_eq_true_iff.mp hplaces
      obtain ⟨hal, htop⟩ := Bool.and_eq_true_iff.mp hpass
      have hdst := dvd_of_aligned hal
      have huser : newAddr + newLen ≤ USER_TOP := hwrap ▸ of_decide_eq_true htop
      have hspec := unmapLocked_spec newLen hinv.toTidy (by omega) hdst
        (dvd_wrap (Nat.dvd_add hdst hnew))
      rw [hwrap] at hspec
      obtain ⟨hchanged, hmiss, hgone⟩ := hspec
      refine ⟨hdst, huser, mapAt_ranged hchanged.tidy hpos hdst hnew huser hmiss
        hchanged.toWithin (fun va hva => ?_) unmapLocked_lowered⟩
      have hpage : va / pageSize * pageSize / pageSize = va / pageSize :=
        Nat.mul_div_cancel _ (by decide)
      have hin : Span newAddr (newAddr + newLen) (va / pageSize * pageSize) := by
        rw [pageSize_eq] at *
        unfold Span at *
        omega
      by_cases hregion : s.space.regionAt (va / pageSize * pageSize) = none
      · refine (foldl_cut_ptes (va / pageSize)).elim (fun hsame => hsame.trans ?_) id
        exact pte_of_no_region h hregion
      · rw [← hpage]
        exact hgone _ hin hregion
  | false =>
      obtain ⟨htop, hdst, hmiss⟩ := findGap_spec hinv.toTidy hnew hinv.hint hplaced
      have huser : dst + newLen ≤ USER_TOP := htop.trans (by decide)
      refine ⟨hdst, huser, mapAt_ranged (hinv.toTidy.of_vmas rfl) hpos hdst hnew huser hmiss
        ⟨fun _ _ => rfl, fun _ _ => rfl⟩ (fun va hva => ?_) .refl⟩
      change s.space.ptes (va / pageSize) = none
      refine pte_of_no_region h (hinv.toTidy.regionAt_of_free hmiss ?_)
      rw [pageSize_eq] at *
      unfold Span at *
      omega

/-! ### Copying -/

variable {u : World} {a d f : Nat} {e : Pte} {r : Region} {picks : Picks}

theorem copyPage_of_none (h : u.space.ptes (a / pageSize) = none) :
    u.copyPage a d picks = (u, .ok ()) := by
  rw [copyPage, h]
  rfl

/-- The page has a copy, in a frame that was free. -/
def withCopy (u : World) (n : Nat) (e : Pte) (page : Page) : World where
  space := { u.space with ptes := Function.update u.space.ptes n (some e) }
  mem :=
    { u.mem with
      used := Function.update u.mem.used e.frame true
      count := Function.update u.mem.count e.frame 1
      data := Function.update u.mem.data e.frame page }

theorem findVma_of_region (h : u.space.regionAt a = some r) :
    ∃ v, u.space.findVma a = some v ∧ v.prot = r.prot ∧
      v.backing.forward (a - v.start) = r.backing := by
  obtain ⟨v, hv, rfl⟩ := Option.map_eq_some_iff.mp h
  exact ⟨v, hv, rfl, rfl⟩

theorem copyPage_of_some (he : u.space.ptes (a / pageSize) = some e)
    (hr : u.space.regionAt a = some r) (hread : r.prot.read = true) (ha : a + pageSize ≤ USER_TOP)
    (hd : u.space.regionAt d = some ⟨prot, shared, .anon⟩) (hwrite : prot.write = true)
    (hnone : u.space.ptes (d / pageSize) = none) (hdtop : d + pageSize ≤ USER_TOP)
    (hpick : picks.own = some f) (hfree : u.mem.used f = false) :
    ∃ e', e'.frame = f ∧ u.copyPage a d picks =
      (u.withCopy (d / pageSize) e' (u.mem.data e.frame), .ok ()) := by
  obtain ⟨v, hv, hprot, -⟩ := findVma_of_region hr
  obtain ⟨w, hw, hwprot, hwback⟩ := findVma_of_region hd
  have hanon : w.backing = .anon := by
    cases hb : w.backing with
    | anon => rfl
    | file i offset =>
        rw [hb] at hwback
        cases hwback
    | phys base wc =>
        rw [hb] at hwback
        cases hwback
  have hsrc : u.populateRange a false picks = (u, .ok ()) := by
    rw [populateRange, if_neg (Nat.not_lt.mpr ha), hv]
    simp [hprot, hread, he]
  have halloc : u.mem.allocZeroedRef (some f) = some (f, { u.mem with
      used := Function.update u.mem.used f true
      count := Function.update u.mem.count f 1
      data := Function.update u.mem.data f .zeroed }) := by
    rw [Memory.allocZeroedRef, Memory.allocFrameRef, hfree]
    rfl
  have hdst : u.populateRange d true picks =
      (({ u with mem := { u.mem with
        used := Function.update u.mem.used f true
        count := Function.update u.mem.count f 1
        data := Function.update u.mem.data f .zeroed } } : World).mapPage (d / pageSize)
          (w.pteFlags f), .ok ()) := by
    rw [populateRange, if_neg (Nat.not_lt.mpr hdtop), hw]
    simp only [hwprot, hwrite, hnone, Bool.not_true, Bool.and_false, Bool.false_eq_true, if_false,
      Option.any_none, Bool.false_and]
    rw [populatePage, hnone]
    dsimp only
    rw [populateNew, hanon]
    dsimp only
    rw [hpick, halloc]
  refine ⟨w.pteFlags f, rfl, ?_⟩
  rw [copyPage, he]
  simp only [Option.isNone_some, Bool.false_eq_true, if_false, hsrc, hdst]
  have hload : u.load a = u.mem.data e.frame := by
    rw [load, he]
    rfl
  have hstore : ∀ (t : World) e' page, t.space.ptes (d / pageSize) = some e' →
      t.store d page = { t with mem := t.mem.fill e'.frame page } := fun t e' page h => by
    rw [store, h]
  rw [hload, hstore _ (w.pteFlags f) _ (Function.update_self _ _ _)]
  refine congrArg (fun t : World => (t, Except.ok ())) (congrArg (World.mk _) ?_)
  exact congrArg (fun data => { u.mem with
    used := Function.update u.mem.used f true
    count := Function.update u.mem.count f 1
    data := data }) (Function.update_idem _ _ _)

/-- Page `i` of a range is copied to a frame of its own, which is free. -/
def Supplied (s : World) (mem : Memory) (src : Nat) (picks : Nat → Picks) (i : Nat) : Prop :=
  ∃ f, (picks i).own = some f ∧ mem.used f = false ∧
    ∀ j < i, s.space.ptes (src / pageSize + j) ≠ none → (picks j).own ≠ some f

/-- What it takes to copy the pages of a range, where they are, to another one. -/
structure Copyable (u : World) (src dst k : Nat) (prot : Prot) (shared : Bool)
    (picks : Nat → Picks) : Prop where
  srcPage : pageSize ∣ src
  dstPage : pageSize ∣ dst
  sum : src + k * pageSize < 2 ^ 64
  user : dst + k * pageSize ≤ USER_TOP
  apart : src + k * pageSize ≤ dst ∨ dst + k * pageSize ≤ src
  region : ∀ i < k, u.space.regionAt (dst + i * pageSize) = some ⟨prot, shared, .anon⟩
  clear : ∀ i < k, u.space.ptes (dst / pageSize + i) = none
  page : ∀ i < k, u.space.ptes (src / pageSize + i) ≠ none → prot.write = true ∧
    src + i * pageSize + pageSize ≤ USER_TOP ∧
    (∃ r, u.space.regionAt (src + i * pageSize) = some r ∧ r.prot.read = true) ∧
    u.Supplied u.mem src picks i
  used : ∀ n e, u.space.ptes n = some e → u.mem.used e.frame = true

/-- The first pages of a range were copied. -/
structure Copied (u : World) (src dst : Nat) (picks : Nat → Picks) (i : Nat) (w : World) :
    Prop where
  vmas : w.space.vmas = u.space.vmas
  kept : ∀ n, n < dst / pageSize ∨ dst / pageSize + i ≤ n → w.space.ptes n = u.space.ptes n
  absent : ∀ j < i, u.space.ptes (src / pageSize + j) = none →
    w.space.ptes (dst / pageSize + j) = none
  present : ∀ j < i, ∀ e, u.space.ptes (src / pageSize + j) = some e →
    ∃ e', w.space.ptes (dst / pageSize + j) = some e' ∧ w.mem.used e'.frame = true ∧
      w.mem.data e'.frame = u.mem.data e.frame
  data : ∀ f, u.mem.used f = true → w.mem.used f = true ∧ w.mem.data f = u.mem.data f
  free : ∀ f, u.mem.used f = false →
    (∀ j < i, u.space.ptes (src / pageSize + j) ≠ none → (picks j).own ≠ some f) →
    w.mem.used f = false
  inodes : w.mem.inodes = u.mem.inodes

theorem copied_zero {picks : Nat → Picks} : Copied u src dst picks 0 u where
  vmas := rfl
  kept _ _ := rfl
  absent _ h := absurd h (Nat.not_lt_zero _)
  present _ h := absurd h (Nat.not_lt_zero _)
  data _ h := ⟨h, rfl⟩
  free _ h _ := h
  inodes := rfl

theorem page_add {i : Nat} : (a + i * pageSize) / pageSize = a / pageSize + i :=
  Nat.add_mul_div_right a i (by decide)

theorem Copied.next {picks : Nat → Picks} {w : World} {i k : Nat}
    (hc : Copyable u src dst k prot shared picks) (h : Copied u src dst picks i w) (hi : i < k) :
    ∃ w', w.copyPage (wrap (src + i * pageSize)) (wrap (dst + i * pageSize)) (picks i) =
      (w', .ok ()) ∧ Copied u src dst picks (i + 1) w' := by
  obtain ⟨hsrc, hdst, hsum, huser, happart, hregion, hclear, hpage, hused⟩ := hc
  have hk : i * pageSize + pageSize ≤ k * pageSize := by
    rw [← Nat.succ_mul]
    exact Nat.mul_le_mul_right _ hi
  have hdiv := Nat.div_mul_cancel hsrc
  have hdiv' := Nat.div_mul_cancel hdst
  have hout : src / pageSize + i < dst / pageSize ∨ dst / pageSize + i ≤ src / pageSize + i := by
    rw [pageSize_eq] at *
    omega
  have hsame := h.kept _ hout
  rw [wrap_of_lt (by omega), wrap_of_lt (by rw [USER_TOP] at huser; omega)]
  cases he : u.space.ptes (src / pageSize + i) with
  | none =>
      refine ⟨w, copyPage_of_none (by rw [page_add, hsame, he]), h.vmas,
        fun n hn => h.kept n (by omega), fun j hj hnone => ?_, fun j hj e' he' => ?_, h.data,
        fun f hf hdist => h.free f hf fun j hj => hdist j (by omega), h.inodes⟩
      · obtain hj | rfl := Nat.lt_succ_iff_lt_or_eq.mp hj
        · exact h.absent j hj hnone
        · exact (h.kept _ (.inr le_rfl)).trans (hclear j hi)
      · obtain hj | rfl := Nat.lt_succ_iff_lt_or_eq.mp hj
        · exact h.present j hj e' he'
        · cases he.symm.trans he'
  | some e =>
      obtain ⟨hwrite, htop, ⟨r, hr, hread⟩, f, hpick, hfree, hdist⟩ :=
        hpage i hi (by rw [he]; exact Option.some_ne_none e)
      have hunused := h.free f hfree hdist
      have hne : ∀ {g}, w.mem.used g = true → g ≠ f := fun hg heq => by
        rw [heq, hunused] at hg
        cases hg
      obtain ⟨e', rfl, hcopy⟩ := copyPage_of_some (u := w) (a := src + i * pageSize)
        (d := dst + i * pageSize) (by rw [page_add, hsame, he])
        ((regionAt_of_vmas h.vmas).trans hr) hread htop
        ((regionAt_of_vmas h.vmas).trans (hregion i hi)) hwrite
        (by rw [page_add, h.kept _ (.inr le_rfl), hclear i hi]) (by omega) hpick hunused
      rw [page_add] at hcopy
      have hpte : ∀ n, n ≠ dst / pageSize + i →
          (w.withCopy (dst / pageSize + i) e' (w.mem.data e.frame)).space.ptes n =
            w.space.ptes n := fun n hn => Function.update_of_ne hn _ _
      have hused' : ∀ {g}, w.mem.used g = true →
          Function.update w.mem.used e'.frame true g = true ∧
          Function.update w.mem.data e'.frame (w.mem.data e.frame) g = w.mem.data g := fun hg =>
        ⟨(Function.update_of_ne (hne hg) _ _).trans hg, Function.update_of_ne (hne hg) _ _⟩
      refine ⟨_, hcopy, h.vmas, fun n hn => (hpte n (by omega)).trans (h.kept n (by omega)),
        fun j hj hnone => ?_, fun j hj e'' he'' => ?_, fun g hg => ?_, fun g hg hpicks => ?_,
        h.inodes⟩
      · obtain hj | rfl := Nat.lt_succ_iff_lt_or_eq.mp hj
        · exact (hpte _ (by omega)).trans (h.absent j hj hnone)
        · cases he.symm.trans hnone
      · obtain hj | rfl := Nat.lt_succ_iff_lt_or_eq.mp hj
        · obtain ⟨e₁, he₁, hg, hdata⟩ := h.present j hj e'' he''
          exact ⟨e₁, (hpte _ (by omega)).trans he₁, (hused' hg).1, (hused' hg).2.trans hdata⟩
        · obtain rfl := Option.some.inj (he.symm.trans he'')
          exact ⟨e', Function.update_self _ _ _, Function.update_self _ _ _,
            (Function.update_self _ _ _).trans (h.data _ (hused _ _ he)).2⟩
      · obtain ⟨hgw, hdata⟩ := h.data g hg
        exact ⟨(hused' hgw).1, (hused' hgw).2.trans hdata⟩
      · have hgf : g ≠ e'.frame := fun heq => by
          refine hpicks i (Nat.lt_succ_self i) (by rw [he]; exact Option.some_ne_none e) ?_
          rw [heq]
          exact hpick
        exact (Function.update_of_ne hgf _ _).trans
          (h.free g hg fun j hj => hpicks j (Nat.lt_succ_of_lt hj))

theorem copyPages_copied {picks : Nat → Picks} {w : World} {i k : Nat}
    (hc : Copyable u src dst k prot shared picks) (h : Copied u src dst picks i w) (hi : i ≤ k) :
    ∃ w', w.copyPages src dst picks (List.range' i (k - i)) = (w', .ok ()) ∧
      Copied u src dst picks k w' := by
  induction hn : k - i generalizing i w with
  | zero =>
      obtain rfl : i = k := by omega
      exact ⟨w, rfl, h⟩
  | succ n ih =>
      obtain ⟨w', hcopy, hnext⟩ := h.next hc (by omega)
      obtain ⟨t, hrest, hall⟩ := ih hnext (by omega) (by omega)
      refine ⟨t, ?_, hall⟩
      rw [List.range'_succ, copyPages, hcopy]
      exact hrest

end World

/-!
## What a move of a mapping keeps

A move unmaps the old range after the copy: it keeps what is read if the new range shows that
already, or the copy is made, and apart from the old range. It is not rolled back when the copy
fails.
-/

namespace World

variable {s t u : World} {v : Vma} {src oldLen newLen newAddr dst a n : Nat} {prot : Prot}
  {fixed shared : Bool} {backing : Backing} {len p : Nat} {m : Machine}
  {picks : Nat → Picks}

/-- A move to `dst` has something to move and no sum that wraps, goes to where the old range is not,
shows there what was read or copies it, and has what it copies and can copy it. -/
structure Movable (s : World) (src oldLen newLen : Nat) (v : Vma) (fixed : Bool) (dst : Nat)
    (picks : Nat → Picks) : Prop where
  nonempty : oldLen ≠ 0
  sum : dst + newLen < 2 ^ 64
  apart : src + oldLen ≤ dst ∨ dst + oldLen ≤ src
  shown : ∀ i < oldLen, ∀ b, s.readable (src + i) = some b → v.prot.read = true ∧
    (v.backing = .anon ∧ s.space.ptes ((src + i) / pageSize) ≠ none ∨
      s.mem.backingByte (v.backing.forward (i / pageSize * pageSize)) (i % pageSize) = b)
  uncut : v.backing = .anon → src + oldLen ≤ dst ∨ dst + newLen ≤ src
  copied : v.backing = .anon → ∀ i < oldLen / pageSize,
    s.space.ptes (src / pageSize + i) ≠ none → v.prot.write = true ∧
      (∃ r, s.space.regionAt (src + i * pageSize) = some r ∧ r.prot.read = true) ∧
      s.Supplied (s.cleared fixed dst newLen).mem src picks i

theorem readable_unmapLocked {i : Nat} (h : u.space.Tidy) (hsrc : pageSize ∣ src)
    (hdst : pageSize ∣ dst) (hold : pageSize ∣ oldLen) (hsum : src + oldLen < 2 ^ 64)
    (hapart : src + oldLen ≤ dst ∨ dst + oldLen ≤ src) (hi : i < oldLen) :
    (u.unmapLocked src oldLen).readable (dst + i) = u.readable (dst + i) := by
  have hchanged := unmapLocked_changed h hsrc hold (.inl hsum)
  have hout : ¬Span src (src + oldLen) ((dst + i) / pageSize * pageSize) := fun hin => by
    have hlo := hin.1
    have hhi := hin.2
    rw [pageSize_eq] at *
    omega
  have hpte := hchanged.ptes _ hout
  rw [Nat.mul_div_cancel _ (by decide : 0 < pageSize)] at hpte
  exact readable_congr (hchanged.region _ hout) hpte unmapLocked_lowered

theorem page_of_add {i : Nat} (h : pageSize ∣ a) :
    (a + i) / pageSize = a / pageSize + i / pageSize ∧
      (a + i) / pageSize * pageSize = a + i / pageSize * pageSize ∧
      (a + i) % pageSize = i % pageSize := by
  rw [pageSize_eq] at *
  omega

/-- What is read in the new range: what its entries give, or else the backing. -/
theorem Ranged.readable {i : Nat} {w : World} {b : UInt8}
    (h : Ranged s dst len prot shared backing u) (hvmas : w.space.vmas = u.space.vmas)
    (hdst : pageSize ∣ dst) (hlen : pageSize ∣ len) (hi : i < len) (hread : prot.read = true)
    (hb : w.shows ⟨prot, shared, backing.forward (i / pageSize * pageSize)⟩
      (dst / pageSize + i / pageSize) (i % pageSize) = b) :
    w.readable (dst + i) = some b := by
  obtain ⟨hdiv, hpage, hmod⟩ := @page_of_add dst i hdst
  have hin : Span dst (dst + len) (dst + i / pageSize * pageSize) := by
    rw [pageSize_eq] at *
    unfold Span
    omega
  have hregion := (regionAt_of_vmas hvmas).trans (h.region _ hin)
  rw [Nat.add_sub_cancel_left, ← hpage] at hregion
  refine readable_eq_some.mpr ⟨_, hregion, hread, ?_⟩
  rw [hdiv, hmod]
  exact hb

theorem opened_isolated (h : (m.put p s).Isolated) (hnew : pageSize ∣ newLen) (hpos : 0 < newLen)
    (hplaced : s.space.placed fixed newAddr newLen = some dst) (hsum : dst + newLen < 2 ^ 64)
    (huser : newLen ≤ USER_TOP) :
    (m.put p (s.opened fixed shared dst newLen prot .anon)).Isolated := by
  have hlt : newLen < 2 ^ 64 := by omega
  rcases @mmap_of_placed s newLen newAddr prot .anon fixed shared hnew hpos hlt with
    ⟨hnone, -⟩ | ⟨dst', hsome, hmap⟩
  · rw [hplaced] at hnone
    cases hnone
  obtain rfl := Option.some.inj (hplaced.symm.trans hsome)
  have hsound : s.space.MapSound (if fixed then newAddr else 0) newLen ⟨fixed, false, shared⟩ := by
    refine ⟨by rw [USER_TOP] at huser; rw [pageSize_eq]; omega, fun _ => ?_⟩
    rw [alignUp_of_dvd hnew hlt]
    cases fixed with
    | true =>
        rw [placed, if_pos rfl] at hplaced
        split at hplaced
        · obtain rfl := Option.some.inj hplaced
          exact hsum
        · cases hplaced
    | false => simpa using hlt
  have hisolated := @Machine.mmap_isolated _ _ _ _ _ prot _ .anon h put_spaces_self hsound
    fun _ _ _ => trivial
  rw [put_put] at hisolated
  change (m.put p (s.mmap _ _ _ _ _).1).Isolated at hisolated
  rwa [hmap] at hisolated

variable {flags : RemapFlags} {picks : Nat → Picks}

/-- What a move to a new range needs of the copies. -/
theorem Movable.copyable (h : (m.put p s).Isolated) (hfind : s.space.findVma src = some v)
    (hsrc : pageSize ∣ src) (hold : pageSize ∣ oldLen) (hlt : oldLen < newLen)
    (hnew : pageSize ∣ newLen) (hplaced : s.space.placed fixed newAddr newLen = some dst)
    (hmov : Movable s src oldLen newLen v fixed dst picks) (hanon : v.backing = .anon) :
    Copyable (s.opened fixed v.shared dst newLen v.prot v.backing) src dst (oldLen / pageSize)
      v.prot v.shared picks := by
  obtain ⟨-, hsum, -, -, huncut, hcopied⟩ := hmov
  have happart := huncut hanon
  have hcopied := hcopied hanon
  rw [hanon]
  obtain ⟨hdst, huser, hranged⟩ :=
    @opened_ranged s newLen newAddr dst v.prot .anon fixed v.shared p m h hnew
      (by omega) hplaced hsum
  have hinv := h.spaces p s.space put_spaces_self
  obtain ⟨hv, hvlo, hvhi⟩ := Map.mem_of_at? hfind
  have hvuser := hinv.user v hv
  have hlen := Nat.div_mul_cancel hold
  have hin : ∀ i < oldLen / pageSize, i * pageSize + pageSize ≤ oldLen := fun i hi => by
    rw [← Nat.succ_mul]
    exact (Nat.mul_le_mul_right _ hi).trans hlen.le
  have hout : ∀ i < oldLen / pageSize, ¬Span dst (dst + newLen) (src + i * pageSize) :=
    fun i hi hspan => by
      have hlo := hspan.1
      have hhi := hspan.2
      have := hin i hi
      rw [pageSize_eq] at *
      omega
  have hpte : ∀ i < oldLen / pageSize,
      (s.opened fixed v.shared dst newLen v.prot .anon).space.ptes (src / pageSize + i) =
        s.space.ptes (src / pageSize + i) := fun i hi => by
    rw [← page_add]
    exact hranged.within.ptes _ (hout i hi)
  have hspan : ∀ i < oldLen / pageSize, Span dst (dst + newLen) (dst + i * pageSize) :=
    fun i hi => by
      have := hin i hi
      rw [pageSize_eq] at *
      unfold Span
      omega
  rw [USER_TOP] at huser hvuser
  refine ⟨hsrc, hdst, by omega, by rw [hlen, USER_TOP]; omega, by rw [hlen]; omega,
    fun i hi => hranged.region _ (hspan i hi), fun i hi => ?_, fun i hi hsome => ?_,
      fun n e he => ?_⟩
  · rw [← page_add]
    exact hranged.clear _ (hspan i hi)
  · rw [hpte i hi] at hsome
    obtain ⟨hwrite, ⟨r, hr, hread⟩, f, hpick, hfree, hdist⟩ := hcopied i hi hsome
    refine ⟨hwrite, ?_, ⟨r, (hranged.within.region _ (hout i hi)).trans hr, hread⟩, f, hpick,
      hfree, fun j hj hjs => hdist j hj ?_⟩
    · obtain ⟨w, hw, -⟩ := findVma_of_region hr
      obtain ⟨hw, hwlo, hwhi⟩ := Map.mem_of_at? hw
      have hstop := hinv.stop w hw
      have hwuser := hinv.user w hw
      rw [pageSize_eq] at *
      omega
    · rwa [hpte j (by omega)] at hjs
  · have hisolated := @opened_isolated s newLen newAddr dst v.prot fixed v.shared p m h hnew
      (by omega) hplaced hsum (by rw [USER_TOP]; omega)
    exact hisolated.used_of_holds (o := .pte p n) ⟨e, pte_put_self.trans he, rfl⟩

/-- The move is complete where the new range shows what was read. -/
theorem move_keeps {w : World} (hsrc : pageSize ∣ src) (hold : pageSize ∣ oldLen)
    (hnew : pageSize ∣ newLen) (hdst : pageSize ∣ dst) (hsum : src + oldLen < 2 ^ 64)
    (hlt : oldLen < newLen) (hmov : Movable s src oldLen newLen v fixed dst picks)
    (hranged : Ranged s dst newLen v.prot v.shared v.backing u)
    (hvmas : w.space.vmas = u.space.vmas)
    (hshows : ∀ i < oldLen, ∀ b, s.readable (src + i) = some b →
      w.shows ⟨v.prot, v.shared, v.backing.forward (i / pageSize * pageSize)⟩
        (dst / pageSize + i / pageSize) (i % pageSize) = b) :
    s.Keeps src oldLen (w.unmapLocked src oldLen) dst := by
  intro i hi b hb
  have hread := (hmov.shown i hi b hb).1
  rw [readable_unmapLocked (hranged.tidy.of_vmas hvmas) hsrc hdst hold hsum hmov.apart hi]
  exact hranged.readable hvmas hdst hnew (hi.trans hlt) hread (hshows i hi b hb)

theorem move_right (h : (m.put p s).Isolated) (hfind : s.space.findVma src = some v)
    (hsrc : pageSize ∣ src) (hold : pageSize ∣ oldLen) (hnew : pageSize ∣ newLen)
    (hlt : oldLen < newLen) (hbound : newLen < 2 ^ 64) (hlen : oldLen ≠ 0 → len ≤ oldLen)
    (hmov : ∀ dst, s.space.placed flags.fixed newAddr newLen = some dst →
      Movable s src oldLen newLen v flags.fixed dst picks) :
    s.Right src len (some (s.move src oldLen newLen v flags newAddr picks)) := by
  rw [move]
  rcases @mmap_of_placed s newLen newAddr v.prot v.backing flags.fixed v.shared hnew (by omega)
    hbound with ⟨-, e, hmap⟩ | ⟨dst, hplaced, hmap⟩
  · rw [hmap]
    rfl
  rw [hmap]
  dsimp only
  have hmovable := hmov dst hplaced
  obtain ⟨hdst, -, hranged⟩ := @opened_ranged s newLen newAddr dst v.prot v.backing flags.fixed
    v.shared p m h hnew (by omega) hplaced hmovable.sum
  refine Right.mono ?_ (hlen hmovable.nonempty)
  have hpos := Nat.pos_of_ne_zero hmovable.nonempty
  have hsum : src + oldLen < 2 ^ 64 := by
    have happart := hmovable.apart
    have hdsum := hmovable.sum
    obtain ⟨hv, -, hvhi⟩ := Map.mem_of_at? hfind
    have huser := (h.spaces p s.space put_spaces_self).user v hv
    rw [USER_TOP] at huser
    omega
  have hspan : ∀ i < oldLen, Span dst (dst + newLen) (dst + i / pageSize * pageSize) :=
    fun i hi => by
      rw [pageSize_eq] at *
      unfold Span
      omega
  by_cases hanon : v.backing = .anon
  · rw [if_pos hanon, List.range_eq_range']
    have hcopyable := hmovable.copyable h hfind hsrc hold hlt hnew hplaced hanon
    obtain ⟨w, hcopy, hcopied⟩ := copyPages_copied hcopyable copied_zero (Nat.zero_le _)
    rw [Nat.sub_zero] at hcopy
    rw [hcopy]
    dsimp only
    rw [leave_eq hsrc hold hpos (hlt.trans hbound)]
    refine move_keeps hsrc hold hnew hdst hsum hlt hmovable hranged hcopied.vmas
      fun i hi b hb => ?_
    obtain ⟨hdiv, -, hmod⟩ := @page_of_add src i hsrc
    have hpage : i / pageSize < oldLen / pageSize :=
      Nat.div_lt_div_of_lt_of_dvd hold hi
    have hout : ¬Span dst (dst + newLen) ((src + i) / pageSize * pageSize) := fun hin => by
      have happart := hmovable.uncut hanon
      have hlo := hin.1
      have hhi := hin.2
      rw [pageSize_eq] at *
      omega
    have hpte := hranged.within.ptes _ hout
    rw [Nat.mul_div_cancel _ (by decide : 0 < pageSize), hdiv] at hpte
    cases he : s.space.ptes (src / pageSize + i / pageSize) with
    | none =>
        obtain ⟨-, ⟨-, hsome⟩ | hback⟩ := hmovable.shown i hi b hb
        · rw [hdiv] at hsome
          exact absurd he hsome
        · rw [shows, hcopied.absent _ hpage (hpte.trans he)]
          rw [hanon] at hback ⊢
          exact hback
    | some e =>
        obtain ⟨e', he', -, hdata⟩ := hcopied.present _ hpage e (hpte.trans he)
        obtain ⟨r, -, -, hr⟩ := readable_eq_some.mp hb
        rw [shows, hdiv, he, hmod] at hr
        rw [shows, he']
        dsimp only at hr ⊢
        rw [hdata, hranged.mem.data]
        exact hr
  · rw [if_neg hanon, leave_eq hsrc hold hpos (hlt.trans hbound)]
    refine move_keeps hsrc hold hnew hdst hsum hlt hmovable hranged rfl fun i hi b hb => ?_
    obtain ⟨-, ⟨hback, -⟩ | hback⟩ := hmovable.shown i hi b hb
    · exact absurd hback hanon
    · have hclear := hranged.clear _ (hspan i hi)
      rw [page_add] at hclear
      rw [shows, hclear]
      exact (hranged.mem.backingByte _).trans hback

/-! ### Every resize -/

/-- The lengths are rounded. Where the range grows its end does not wrap to below the old one, and
it grows in place or can be moved. -/
def RemapSafe (s : World) (src oldLen newLen : Nat) (flags : RemapFlags) (newAddr : Nat)
    (picks : Nat → Picks) : Prop :=
  aligned src = true → newLen ≠ 0 → oldLen < newLen → ∀ v, s.space.findVma src = some v →
    wrap (src + oldLen) ≤ wrap (src + newLen) ∧
    ((s.growOk v src oldLen newLen && !flags.fixed) = false → flags.mayMove = true →
      ∀ dst, s.space.placed flags.fixed newAddr newLen = some dst →
        Movable s src oldLen newLen v flags.fixed dst picks)

theorem remap_right (h : (m.put p s).Isolated) (hold : pageSize ∣ oldLen)
    (hnew : pageSize ∣ newLen) (hbound : oldLen < 2 ^ 64) (hbound' : newLen < 2 ^ 64)
    (hlen : oldLen ≠ 0 → newLen ≠ 0 → len ≤ min oldLen newLen)
    (hsafe : s.RemapSafe src oldLen newLen flags newAddr picks) :
    s.Right src len (s.remap src oldLen newLen flags newAddr picks) := by
  have hinv := h.spaces p s.space put_spaces_self
  rw [remap]
  by_cases hinvalid : (!aligned src || newLen = 0) = true
  · rw [if_pos hinvalid]
    rfl
  rw [if_neg hinvalid]
  rw [Bool.not_eq_true, Bool.or_eq_false_iff, Bool.not_eq_false', decide_eq_false_iff_not]
    at hinvalid
  obtain ⟨hal, hne⟩ := hinvalid
  have hsrc := dvd_of_aligned hal
  rcases Nat.lt_trichotomy newLen oldLen with hlt | rfl | hlt
  · rw [if_neg hlt.ne, if_pos hlt, leave_eq (dvd_wrap (Nat.dvd_add hsrc hnew))
      (Nat.dvd_sub hold hnew) (Nat.sub_pos_of_lt hlt) (by omega)]
    exact Right.mono (shrink_keeps hinv.toTidy hsrc hold hnew hlt hbound)
      ((hlen (by omega) hne).trans (min_le_right _ _))
  · rw [if_pos rfl]
    exact fun i _ b hb => hb
  rw [if_neg hlt.ne', if_neg hlt.not_gt]
  cases hfind : s.space.findVma src with
  | none => rfl
  | some v =>
      obtain ⟨hle, hmov⟩ := hsafe hal hne hlt v hfind
      have hlen' : oldLen ≠ 0 → len ≤ oldLen := fun hzero =>
        (hlen hzero hne).trans (min_le_left _ _)
      dsimp only
      rw [if_neg (Nat.not_lt.mpr hle)]
      cases hgrow : s.growOk v src oldLen newLen && !flags.fixed with
      | true =>
          rw [if_pos rfl]
          have hgrow := (Bool.and_eq_true_iff.mp hgrow).1
          obtain ⟨hstop, -, -⟩ := misses_of_growOk hinv.toTidy hfind hbound hbound' hle hgrow
          obtain ⟨-, -, hhi⟩ := Map.mem_of_at? hfind
          exact Right.mono (grow_right hinv hfind hold hnew hlt hbound' hle hgrow)
            (hlen' (by omega))
      | false =>
          rw [if_neg Bool.false_ne_true]
          cases hmay : flags.mayMove with
          | false => rfl
          | true => exact move_right h hfind hsrc hold hnew hlt hbound' hlen' (hmov hgrow hmay)

/-- A resize that is safe keeps what is read of the first bytes, or fails and changes nothing. -/
theorem right_of_safe {m : Machine} {p : Nat} {s : World} {flags : RemapFlags}
    {picks : Nat → Picks} (src oldLen newLen newAddr : UInt64) (h : (m.put p s).Isolated)
    (hsafe : s.RemapSafe src.toNat (alignUp oldLen.toNat) (alignUp newLen.toNat) flags
      newAddr.toNat picks) :
    s.Right src.toNat (min oldLen.toNat newLen.toNat)
      (s.mremap src.toNat oldLen.toNat newLen.toNat flags newAddr.toNat picks) := by
  have hround : ∀ n : UInt64, alignUp n.toNat ≠ 0 → n.toNat ≤ alignUp n.toNat := fun n hne => by
    have hn := n.toNat_lt
    rw [alignUp_eq, wrap_eq] at *
    omega
  exact remap_right h (dvd_alignUp _) (dvd_alignUp _) (alignUp_lt _) (alignUp_lt _)
    (fun hold hnew => le_min ((min_le_left _ _).trans (hround oldLen hold))
      ((min_le_right _ _).trans (hround newLen hnew))) hsafe

/-- A page that is mapped privately, and written to. -/
def written (backing : Backing) : World :=
  (World.mmap ⟨{}, Act.twoProcesses.mem⟩ 0x10000 0x1000 ⟨true, true, false⟩ ⟨true, false, false⟩
    backing).1.userWrite 0x10000 7 ⟨none, some 6⟩

theorem written_isolated (hback : backing.isPhys = false) :
    (Act.twoProcesses.put 0 (written backing)).Isolated := by
  have hdevice : DeviceSound Act.twoProcesses.mem backing 0x1000 := fun _ _ _ => by
    cases backing with
    | anon => trivial
    | file i offset => trivial
    | phys base wc => cases hback
  have hmapped := @Machine.mmap_isolated _ 0 0x10000 0x1000 {} ⟨true, true, false⟩
    ⟨true, false, false⟩ _ Act.twoProcesses_fresh.isolated rfl ⟨by decide, fun _ => by decide⟩
    hdevice
  have hwritten := (@userWrite_spec _ _ 0x10000 _ 7 ⟨none, some 6⟩ hmapped put_spaces_self
    fun v i offset pages f _ _ _ _ => by
      change (if f = 5 then 1 else 0) + 1 < 2 ^ 32
      split <;> decide).1
  rw [put_put] at hwritten
  exact hwritten

theorem right_of_safe_anon : (written .anon).Right 0x10000 0x1000
    ((written .anon).mremap 0x10000 0x1000 0x2000 ⟨true, true⟩ 0x20000 fun _ =>
        ⟨none, some 8⟩) := by
  refine right_of_safe 0x10000 0x1000 0x2000 0x20000 (written_isolated rfl) fun _ _ _ v hv => ?_
  have hfind : (written .anon).space.findVma 0x10000 =
      some ⟨0x10000, 0x11000, ⟨true, true, false⟩, false, .anon⟩ := by decide
  obtain rfl := Option.some.inj (hfind.symm.trans hv)
  refine ⟨by decide, fun _ _ dst hdst => ?_⟩
  obtain rfl : 0x20000 = dst := Option.some.inj hdst
  have hpte : (written .anon).space.ptes 16 ≠ none := by decide
  refine ⟨by decide, by decide, by decide, fun i hi b _ => ⟨rfl, .inl ⟨rfl, ?_⟩⟩,
    fun _ => by decide,
    fun _ i hi _ => ⟨rfl, ?_, 8, rfl, by decide, fun j hj => ?_⟩⟩
  · have hi : i < 4096 := hi
    have hpage : (0x10000 + i) / pageSize = 16 := by
      rw [pageSize_eq]
      omega
    change (written .anon).space.ptes ((0x10000 + i) / pageSize) ≠ none
    rwa [hpage]
  · obtain rfl : i = 0 := Nat.lt_one_iff.mp hi
    exact ⟨⟨⟨true, true, false⟩, false, .anon⟩, by decide, rfl⟩
  · have hi : i < 1 := hi
    omega

/-- A private page of a file that was written to shows the file again after it is moved. -/
theorem remaps_not_always_right : ¬∀ (m : Machine) (p : Nat) (s : World) (flags : RemapFlags)
    (picks : Nat → Picks) (src oldLen newLen newAddr : UInt64), (m.put p s).Isolated →
      s.Right src.toNat (min oldLen.toNat newLen.toNat)
        (s.mremap src.toNat oldLen.toNat newLen.toNat flags newAddr.toNat picks) := by
  intro hall
  have hright := hall _ 0 _ ⟨true, true⟩ (fun _ => {}) 0x10000 0x1000 0x2000 0x20000
    (@written_isolated (.file 0 0) rfl)
  have hbefore : (written (.file 0 0)).readable 0x10000 = some 7 := by decide
  have hafter := hright 0 (by decide) 7 hbefore
  revert hafter
  decide

end World

end MindOS.Kernel.Mm
