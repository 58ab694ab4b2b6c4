import MindOS.Kernel.Mm.Faults

/-!
# Words of user memory

The kernel reads a word of a process after it has made sure that its pages are there, and
takes the physical address of a word from the page tables. A read adds entries to the page
tables and changes none.
-/

namespace MindOS.Kernel.Mm

open AddressSpace
open Tmpfs (pageSize)

variable {p q n va : Nat} {e : Pte}

namespace World

variable {s : World} {v : Vma} {picks : Picks} {write : Bool} {x : Unit}

theorem mapPage_ptes : ∃ e', (s.mapPage n e).space.ptes n = some e' :=
  ⟨e, Function.update_self _ _ _⟩

theorem mapCached_ok {f : Nat} {pick : Option Nat} (h : (s.mapCached n v write f pick).2 = .ok x) :
    ∃ e, (s.mapCached n v write f pick).1.space.ptes n = some e := by
  rw [mapCached] at h ⊢
  split
  · exact mapPage_ptes
  · rename_i hshared
    rw [if_neg hshared] at h
    split
    · rename_i hwrite
      rw [if_pos hwrite] at h
      split
      next halloc =>
        rw [halloc] at h
        cases h
      next => exact mapPage_ptes
    · exact mapPage_ptes

theorem populateNew_ok (h : (s.populateNew v va write picks).2 = .ok x) :
    ∃ e, (s.populateNew v va write picks).1.space.ptes (va / pageSize) = some e := by
  rw [populateNew] at h ⊢
  cases hback : v.backing with
  | anon =>
      rw [hback] at h
      dsimp only at h ⊢
      split
      next halloc =>
        rw [halloc] at h
        cases h
      next => exact mapPage_ptes
  | phys base wc => exact mapPage_ptes
  | file inode offset =>
      rw [hback] at h
      dsimp only at h ⊢
      split
      next hget =>
        rw [hget] at h
        cases h
      next hget =>
        rw [hget] at h
        exact mapCached_ok h

theorem copyOnWrite_ok {pick : Option Nat} (h : (s.copyOnWrite n e pick).2 = .ok x) :
    ∃ e', (s.copyOnWrite n e pick).1.space.ptes n = some e' := by
  rw [copyOnWrite] at h ⊢
  split
  · exact mapPage_ptes
  · rename_i hcount
    rw [if_neg hcount] at h
    split
    next halloc =>
      rw [halloc] at h
      cases h
    next => exact mapPage_ptes

theorem populatePage_ok (h : (s.populatePage v va write picks).2 = .ok x) :
    ∃ e, (s.populatePage v va write picks).1.space.ptes (va / pageSize) = some e := by
  rw [populatePage] at h ⊢
  cases he : s.space.ptes (va / pageSize) with
  | none =>
      rw [he] at h
      exact populateNew_ok h
  | some e =>
      rw [he] at h
      dsimp only at h ⊢
      split
      · rename_i hwrite
        rw [if_pos hwrite] at h
        split
        · rename_i hcow
          rw [if_pos hcow] at h
          exact copyOnWrite_ok h
        · exact ⟨e, he⟩
      · exact ⟨e, he⟩

/-- A page that the kernel can access has an entry. -/
theorem populateRange_ok (h : (s.populateRange va write picks).2 = .ok x) :
    ∃ e, (s.populateRange va write picks).1.space.ptes (va / pageSize) = some e := by
  rw [populateRange] at h ⊢
  split
  next htop =>
    rw [if_pos htop] at h
    cases h
  next htop =>
    rw [if_neg htop] at h
    cases hfind : s.space.findVma va with
    | none =>
        rw [hfind] at h
        cases h
    | some v =>
        rw [hfind] at h
        dsimp only at h ⊢
        split
        next hw =>
          rw [if_pos hw] at h
          cases h
        next hw =>
          rw [if_neg hw] at h
          split
          next hr =>
            rw [if_pos hr] at h
            cases h
          next hr =>
            rw [if_neg hr] at h
            split
            next hany =>
              obtain ⟨e, he, -⟩ := (Option.any_eq_true _ _).mp hany
              exact ⟨e, he⟩
            next hany =>
              rw [if_neg hany] at h
              exact populatePage_ok h

end World

namespace Machine

/-- Makes sure that page `n` can be read. -/
def touchPage (m : Machine) (p n : Nat) (picks : Picks) : Machine × Except Errno Unit :=
  match m.spaces p with
  | none => (m, .error .EFAULT)
  | some s =>
      let r := (⟨s, m.mem⟩ : World).populateRange (n * pageSize) false picks
      (m.put p r.1, r.2)

def touchPages (p : Nat) (picks : Nat → Picks) : Machine → List Nat → Machine × Except Errno Unit
  | m, [] => (m, .ok ())
  | m, n :: ns =>
      match m.touchPage p n (picks n) with
      | (m, .error e) => (m, .error e)
      | (m, .ok _) => touchPages p picks m ns

/-- Makes sure that the `len` bytes at `addr` can be read. -/
def populateRange (m : Machine) (p addr len : Nat) (picks : Nat → Picks) :
    Machine × Except Errno Unit :=
  if USER_TOP < addr + len then (m, .error .EFAULT)
  else m.touchPages p picks (pages (addr / pageSize * pageSize) (addr + len))

/-- The physical address. -/
def translate (m : Machine) (p va : Nat) : Option Nat :=
  (m.pte p (va / pageSize)).map fun e => e.frame * pageSize + va % pageSize

def byteAt (m : Machine) (p va : Nat) : Nat :=
  ((m.pte p (va / pageSize)).map fun e => (m.mem.data e.frame (va % pageSize)).toNat).getD 0

/-- The four bytes at an address, of which the first counts least. -/
def wordAt (m : Machine) (p va : Nat) : Nat :=
  m.byteAt p va + 2 ^ 8 * m.byteAt p (va + 1) + 2 ^ 16 * m.byteAt p (va + 2) +
    2 ^ 24 * m.byteAt p (va + 3)

def readUser (m : Machine) (p addr : Nat) (picks : Nat → Picks) : Machine × Except Errno Nat :=
  match m.populateRange p addr 4 picks with
  | (m, .error e) => (m, .error e)
  | (m, .ok _) => (m, .ok (m.wordAt p addr))

/-! ### Reads add entries -/

/-- The regions are the same, and the entries are still there. -/
structure Grown (m t : Machine) : Prop where
  region : ∀ p va, t.regionAt p va = m.regionAt p va
  pte : ∀ p n e, m.pte p n = some e → t.pte p n = some e

variable {m t u : Machine}

theorem Grown.refl : Grown m m := ⟨fun _ _ => rfl, fun _ _ _ => id⟩

theorem Grown.trans (h : Grown m t) (h' : Grown t u) : Grown m u where
  region p va := (h'.region p va).trans (h.region p va)
  pte p n e he := h'.pte p n e (h.pte p n e he)

theorem touchPage_present {picks : Picks} (he : m.pte p n = some e) :
    (m.touchPage p n picks).1 = m := by
  rw [touchPage]
  cases hs : m.spaces p with
  | none => rfl
  | some s =>
      have hpage : n * pageSize / pageSize = n := Nat.mul_div_cancel _ (by decide)
      have hthere : (s.ptes (n * pageSize / pageSize)).isNone = false := by
        rw [hpage, ← pte_of_space hs, he, Option.isNone_some]
      have hsame := @World.populateRange_present (n * pageSize) ⟨s, m.mem⟩ picks hthere
      exact (congrArg (m.put p) hsame).trans (put_self hs)

theorem touchPage_grown {picks : Picks} : Grown m (m.touchPage p n picks).1 := by
  cases he : m.pte p n with
  | some e =>
      rw [touchPage_present he]
      exact .refl
  | none =>
      rw [touchPage]
      cases hs : m.spaces p with
      | none => exact .refl
      | some s =>
          have htouched := @World.populateRange_touched (n * pageSize) ⟨s, m.mem⟩ picks false
          rw [Nat.mul_div_cancel _ (by decide : 0 < pageSize)] at htouched
          obtain ⟨entry, hspace⟩ := htouched
          refine ⟨fun q va => ?_, fun q k e' he' => ?_⟩
          · by_cases hq : q = p
            · rw [hq, regionAt_put_self, hspace, regionAt_of_space hs]
              rfl
            · exact regionAt_put_of_ne hq
          · by_cases hq : q = p
            · rw [hq] at he' ⊢
              have hk : k ≠ n := fun hk => by
                rw [hk, he] at he'
                cases he'
              rw [pte_put_self, hspace]
              exact (Function.update_of_ne hk _ _).trans ((pte_of_space hs).symm.trans he')
            · rw [pte_put_of_ne hq]
              exact he'

theorem touchPages_grown {picks : Nat → Picks} {ns : List Nat} :
    Grown m (m.touchPages p picks ns).1 := by
  induction ns generalizing m with
  | nil => exact .refl
  | cons n ns ih =>
      have hpage := @touchPage_grown p n m (picks n)
      rw [touchPages]
      split
      next t e heq =>
        rw [heq] at hpage
        exact hpage
      next t _ heq =>
        rw [heq] at hpage
        exact hpage.trans ih

theorem populateRange_grown {addr len : Nat} {picks : Nat → Picks} :
    Grown m (m.populateRange p addr len picks).1 := by
  rw [populateRange]
  split
  · exact .refl
  · exact touchPages_grown

theorem readUser_fst {addr : Nat} {picks : Nat → Picks} :
    (m.readUser p addr picks).1 = (m.populateRange p addr 4 picks).1 := by
  rw [readUser]
  split
  next h => rw [h]
  next h => rw [h]

theorem readUser_ok {addr x : Nat} {picks : Nat → Picks}
    (h : m.readUser p addr picks = (t, .ok x)) :
    ∃ y, m.populateRange p addr 4 picks = (t, .ok y) := by
  rw [readUser] at h
  split at h
  next => cases h
  next u y hpop =>
    obtain rfl := (Prod.mk.inj h).1
    exact ⟨y, hpop⟩

theorem readUser_grown {addr : Nat} {picks : Nat → Picks} :
    Grown m (m.readUser p addr picks).1 := by
  rw [readUser_fst]
  exact populateRange_grown

/-! ### Words of one page -/

theorem pages_word {addr : Nat} (h : addr % 4 = 0) :
    pages (addr / pageSize * pageSize) (addr + 4) = [addr / pageSize] := by
  have hpage : addr / pageSize * pageSize / pageSize = addr / pageSize :=
    Nat.mul_div_cancel _ (by decide)
  rw [pages, hpage]
  have hsplit : pageSize * (addr / pageSize) + addr % pageSize = addr := Nat.div_add_mod _ _
  have hlt : addr % pageSize < pageSize := Nat.mod_lt _ (by decide)
  rw [pageSize_eq] at *
  have hcount : (addr + 4 - addr / 4096 * 4096 + (4096 - 1)) / 4096 = 1 := by omega
  rw [hcount]
  rfl

theorem populateRange_word {addr : Nat} {picks : Nat → Picks} (h : addr % 4 = 0) :
    m.populateRange p addr 4 picks =
      if USER_TOP < addr + 4 then (m, .error .EFAULT)
      else m.touchPage p (addr / pageSize) (picks (addr / pageSize)) := by
  rw [populateRange, pages_word h]
  split
  · rfl
  · rw [touchPages]
    split
    next t e heq => rw [heq]
    next t _ heq =>
      rw [heq]
      rfl

theorem touchPage_ok {picks : Picks} {x : Unit} (h : m.touchPage p n picks = (t, .ok x)) :
    ∃ e, t.pte p n = some e := by
  rw [touchPage] at h
  cases hs : m.spaces p with
  | none =>
      rw [hs] at h
      cases h
  | some s =>
      rw [hs] at h
      obtain ⟨hput, hok⟩ := Prod.mk.inj h
      obtain ⟨e, he⟩ := World.populateRange_ok hok
      rw [Nat.mul_div_cancel _ (by decide : 0 < pageSize)] at he
      rw [← hput]
      exact ⟨e, pte_put_self.trans he⟩

/-- The kernel does not change the machine when it looks at a word again. -/
theorem populateRange_again {addr : Nat} {picks picks' : Nat → Picks} {x : Unit}
    (h : addr % 4 = 0) (hok : m.populateRange p addr 4 picks = (t, .ok x)) :
    (t.populateRange p addr 4 picks').1 = t := by
  rw [populateRange_word h] at hok
  split at hok
  next => cases hok
  next hle =>
    obtain ⟨e, he⟩ := touchPage_ok hok
    rw [populateRange_word h, if_neg hle]
    exact touchPage_present he

end Machine

end MindOS.Kernel.Mm
