import MindOS.Kernel.Mm.Layout

/-!
# Processes and the owners of frames

## Processes and what they read

Processes have address spaces of their own and share the memory. A fork gives the child the
regions and the entries of its parent, and takes the right to write from both where the page
is private. What a process reads at an address is what its entry gives there or, as long as
it has none, what it would get.
-/

namespace MindOS.Kernel.Mm

open AddressSpace Transition
open Tmpfs (Page pageSize wrap)

/-- The memory and the address spaces, by the number of the process. -/
structure Machine where
  spaces : Nat → Option AddressSpace
  mem : Memory

namespace Backing

def isPhys : Backing → Bool
  | phys _ _ => true
  | _ => false

end Backing

namespace World

variable (s : World)

/-- Stores a byte, if the entry lets the process write. -/
def storeByte (addr : Nat) (b : UInt8) : World :=
  match s.space.ptes (addr / pageSize) with
  | none => s
  | some e =>
      if e.writable then { s with
        mem := s.mem.fill e.frame (Function.update (s.mem.data e.frame) (addr % pageSize) b) }
      else s

/-- A store of the process, which is tried again after a fault that was resolved. -/
def userWrite (addr : Nat) (b : UInt8) (picks : Picks) : World :=
  if (s.space.ptes (addr / pageSize)).any Pte.writable then s.storeByte addr b
  else
    match s.fault addr true false picks with
    | (s, .error _) => s
    | (s, .ok _) => s.storeByte addr b

end World

/-- The entry that parent and child have after a fork. -/
def Vma.forkPte (v : Vma) (e : Pte) : Pte :=
  if v.shared || v.backing.isPhys then e
  else if e.writable then { e with writable := false, cow := true }
  else e

namespace Machine

variable (m : Machine)

def pte (p n : Nat) : Option Pte := (m.spaces p).bind fun s => s.ptes n

def regionAt (p va : Nat) : Option Region := (m.spaces p).bind fun s => s.regionAt va

/-- Process `p` and the memory are as in `w`. -/
def put (p : Nat) (w : World) : Machine := ⟨Function.update m.spaces p (some w.space), w.mem⟩

def setPte (p n : Nat) (e : Pte) : Machine := { m with
  spaces := Function.update m.spaces p
    ((m.spaces p).map fun s => { s with ptes := Function.update s.ptes n (some e) }) }

def forkPage (p c : Nat) (m : Machine) (visit : Vma × Nat) : Machine :=
  match m.pte p visit.2 with
  | none => m
  | some e =>
      let forked := (m.setPte p visit.2 (visit.1.forkPte e)).setPte c visit.2 (visit.1.forkPte e)
      { forked with mem := forked.mem.refInc e.frame }

/-- The pages of each region, in the order in which a fork visits them. -/
def visits (s : AddressSpace) : List (Vma × Nat) :=
  s.vmas.items.flatMap fun v => (pages v.start v.stop).map fun n => (v, n)

/-- Duplicates the address space of `p` for the child `c`. -/
def fork (p c : Nat) : Option Machine :=
  (m.spaces p).map fun s =>
    (visits s).foldl (forkPage p c)
      { m with spaces := Function.update m.spaces c (some { s with ptes := fun _ => none }) }

/-! ### What is read -/

end Machine

namespace Memory

variable (m : Memory)

/-- A byte of a page of a file. -/
def cacheByte (i index o : Nat) : UInt8 :=
  match m.inodes i with
  | .other => 0
  | .initrd first pages => if index < pages then m.data (first + index) o else 0
  | .tmpfs pages => ((pages index).map fun f => m.data f o).getD 0

/-- What a backing shows at the beginning of a page, and `o` bytes on. -/
def backingByte (m : Memory) : Backing → Nat → UInt8
  | .anon, _ => 0
  | .phys base _, o => m.data (base / pageSize % 2 ^ 40) o
  | .file inode offset, o => m.cacheByte inode (offset / pageSize) o

end Memory

namespace Machine

variable (m : Machine)

/-- What process `p` reads at an address, if anything is there. -/
def reads (p va : Nat) : Option UInt8 :=
  (m.regionAt p (va / pageSize * pageSize)).map fun r =>
    match m.pte p (va / pageSize) with
    | some e => m.mem.data e.frame (va % pageSize)
    | none => m.mem.backingByte r.backing (va % pageSize)

/-! ### Steps -/

end Machine

/-- What a process does: the fault on a read is its own step, that on a write is part of the
write. -/
inductive Act where
  | mmap (p : Nat) (addr len : UInt64) (prot : Prot) (flags : MapFlags) (backing : Backing)
  | fault (p : Nat) (addr : UInt64) (write exec : Bool) (picks : Picks)
  | fork (p c : Nat)
  | mprotect (p : Nat) (addr len : UInt64) (prot : Prot)
  | write (p : Nat) (addr : UInt64) (b : UInt8) (picks : Picks)

namespace Machine

def on (m : Machine) (p : Nat) (f : World → Option World) : Option Machine :=
  (m.spaces p).bind fun s => (f ⟨s, m.mem⟩).map (m.put p)

def step (m : Machine) : Act → Option Machine
  | .mmap p addr len prot flags backing =>
      m.on p fun w => some (w.mmap addr.toNat len.toNat prot flags backing).1
  | .fault p addr write exec picks =>
      m.on p fun w => some (w.fault addr.toNat write exec picks).1
  | .fork p c => if (m.spaces c).isSome then none else m.fork p c
  | .mprotect p addr len prot =>
      m.on p fun w => (w.mprotect addr.toNat len.toNat prot).map Prod.fst
  | .write p addr b picks => m.on p fun w => some (w.userWrite addr.toNat b picks)

end Machine

/-!
## The books of the frames

Who has a reference to a frame: the entries of page tables, the pages of files, and the code
that has one in hand. The count of a frame is never below the number of its owners, so an owner
of a frame whose count is one is the only one. Frames that the allocator never had are not in
the books.
-/

inductive Owner where
  | pte (p n : Nat)
  | cache (i index : Nat)
  | caller
  deriving DecidableEq

structure Books (own : Nat → List Owner) (m : Memory) : Prop where
  covers : ∀ f, (own f).length ≤ m.count f
  used : ∀ f, m.count f ≠ 0 → m.used f = true

namespace Memory

variable {m m' : Memory} {f g : Nat} {pick : Option Nat}

theorem used_of_reserved (h : m.reserved f = true) : m.used f = true :=
  (Bool.and_eq_true_iff.mp h).1

theorem count_of_reserved (h : m.reserved f = true) : m.count f = 0 :=
  eq_of_beq (Bool.and_eq_true_iff.mp h).2

theorem allocFrameRef_eq_some (h : m.allocFrameRef pick = some (f, m')) :
    m.used f = false ∧ m' = { m with
      used := Function.update m.used f true, count := Function.update m.count f 1 } := by
  cases pick with
  | none => cases h
  | some g =>
      rw [allocFrameRef] at h
      split at h
      · cases h
      · next hfree =>
          cases h
          exact ⟨Bool.eq_false_iff.mpr hfree, rfl⟩

theorem reserved_alloc (h : m.allocFrameRef pick = some (f, m')) : m'.reserved = m.reserved := by
  obtain ⟨hfree, rfl⟩ := allocFrameRef_eq_some h
  funext g
  by_cases heq : g = f
  · subst heq
    simp only [reserved, Function.update_self, hfree]
    rfl
  · simp only [reserved, Function.update_of_ne heq]

theorem refInc_of_reserved (h : m.count f = 0) : m.refInc f = m := if_pos h

theorem refInc_of_ne (h : m.count f ≠ 0) (hlt : m.count f + 1 < 2 ^ 32) :
    m.refInc f = { m with count := Function.update m.count f (m.count f + 1) } := by
  rw [refInc, if_neg h, wrapCount, Nat.mod_eq_of_lt hlt]

theorem reserved_refInc (hlt : m.count f + 1 < 2 ^ 32) : (m.refInc f).reserved = m.reserved := by
  by_cases hzero : m.count f = 0
  · rw [refInc_of_reserved hzero]
  · rw [refInc_of_ne hzero hlt]
    funext g
    by_cases heq : g = f
    · subst heq
      have hne : (m.count g == 0) = false := beq_eq_false_iff_ne.mpr hzero
      have hne' : (m.count g + 1 == 0) = false := rfl
      simp only [reserved, Function.update_self, hne, hne']
    · simp only [reserved, Function.update_of_ne heq]

theorem reserved_refDec : (m.refDec f).reserved = m.reserved := by
  rw [refDec]
  split
  · rfl
  · next hzero =>
      have hne : (m.count f == 0) = false := beq_eq_false_iff_ne.mpr hzero
      split
      · funext g
        by_cases heq : g = f
        · subst heq
          simp only [reserved, Function.update_self, hne, Bool.and_false, Bool.false_and]
        · simp only [reserved, Function.update_of_ne heq]
      · next hone =>
          have hne' : (m.count f - 1 == 0) = false := beq_eq_false_iff_ne.mpr (by omega)
          funext g
          by_cases heq : g = f
          · subst heq
            simp only [reserved, Function.update_self, hne, hne']
          · simp only [reserved, Function.update_of_ne heq]

theorem refInc_data : (m.refInc f).data = m.data := by
  rw [refInc]
  split <;> rfl

theorem refInc_inodes : (m.refInc f).inodes = m.inodes := by
  rw [refInc]
  split <;> rfl

theorem refInc_used : (m.refInc f).used = m.used := by
  rw [refInc]
  split <;> rfl

theorem refDec_data : (m.refDec f).data = m.data := by
  rw [refDec]
  repeat' split
  all_goals rfl

theorem refDec_inodes : (m.refDec f).inodes = m.inodes := by
  rw [refDec]
  repeat' split
  all_goals rfl

end Memory

namespace Books

variable {own : Nat → List Owner} {m m' : Memory} {f : Nat} {o o' : Owner} {pick : Option Nat}

theorem own_of_count (h : Books own m) (hf : m.count f = 0) : own f = [] :=
  List.length_eq_zero_iff.mp (Nat.le_zero.mp (hf ▸ h.covers f))

theorem used_of_mem (h : Books own m) (ho : o ∈ own f) : m.used f = true := by
  refine h.used f fun hf => ?_
  rw [h.own_of_count hf] at ho
  exact absurd ho List.not_mem_nil

theorem eq_of_count (h : Books own m) (hf : m.count f = 1) (ho : o ∈ own f) (ho' : o' ∈ own f) :
    o' = o := by
  have hlen := hf ▸ h.covers f
  obtain ⟨a, rest⟩ : ∃ a, own f = [a] := by
    cases hown : own f with
    | nil =>
        rw [hown] at ho
        exact absurd ho List.not_mem_nil
    | cons a l =>
        rw [hown, List.length_cons] at hlen
        exact ⟨a, by rw [List.length_eq_zero_iff.mp (by omega : l.length = 0)]⟩
  rw [rest, List.mem_singleton] at ho ho'
  rw [ho, ho']

theorem alloc (h : Books own m) (halloc : m.allocFrameRef pick = some (f, m')) (o : Owner) :
    Books (Function.update own f [o]) m' := by
  obtain ⟨-, rfl⟩ := Memory.allocFrameRef_eq_some halloc
  constructor
  · intro g
    by_cases heq : g = f
    · subst heq
      simp only [Function.update_self]
      exact le_rfl
    · simp only [Function.update_of_ne heq]
      exact h.covers g
  · intro g hg
    by_cases heq : g = f
    · subst heq
      exact Function.update_self _ _ _
    · simp only [Function.update_of_ne heq] at hg ⊢
      exact h.used g hg

theorem fill (h : Books own m) (page : Page) : Books own (m.fill f page) := ⟨h.covers, h.used⟩

theorem refInc (h : Books own m) (hf : m.count f ≠ 0) (hlt : m.count f + 1 < 2 ^ 32) (o : Owner) :
    Books (Function.update own f (o :: own f)) (m.refInc f) := by
  rw [Memory.refInc_of_ne hf hlt]
  constructor
  · intro g
    by_cases heq : g = f
    · subst heq
      simp only [Function.update_self, List.length_cons]
      exact Nat.succ_le_succ (h.covers g)
    · simp only [Function.update_of_ne heq]
      exact h.covers g
  · intro g hg
    by_cases heq : g = f
    · subst heq
      exact h.used g hf
    · simp only [Function.update_of_ne heq] at hg
      exact h.used g hg

theorem refDec (h : Books own m) (ho : m.reserved f = true ∨ o ∈ own f) :
    Books (Function.update own f ((own f).erase o)) (m.refDec f) := by
  by_cases hzero : m.count f = 0
  · rw [Memory.refDec, if_pos hzero, h.own_of_count hzero, List.erase_nil,
      ← h.own_of_count hzero, Function.update_eq_self]
    exact h
  · have ho : o ∈ own f := ho.resolve_left fun hres => hzero (Memory.count_of_reserved hres)
    have hlen := h.covers f
    have herase := List.length_erase_of_mem ho
    rw [Memory.refDec, if_neg hzero]
    split
    · next hone =>
        constructor
        · intro g
          by_cases heq : g = f
          · subst heq
            simp only [Function.update_self]
            omega
          · simp only [Function.update_of_ne heq]
            exact h.covers g
        · intro g hg
          have heq : g ≠ f := by
            rintro rfl
            exact hg (Function.update_self _ _ _)
          simp only [Function.update_of_ne heq] at hg ⊢
          exact h.used g hg
    · constructor
      · intro g
        by_cases heq : g = f
        · subst heq
          simp only [Function.update_self]
          omega
        · simp only [Function.update_of_ne heq]
          exact h.covers g
      · intro g hg
        by_cases heq : g = f
        · subst heq
          exact h.used g hzero
        · simp only [Function.update_of_ne heq] at hg
          exact h.used g hg

theorem give (h : Books own m) (ho : o ∈ own f) (o' : Owner) :
    Books (Function.update own f (o' :: (own f).erase o)) m := by
  refine ⟨fun g => ?_, h.used⟩
  by_cases heq : g = f
  · subst heq
    have hpos := List.length_pos_of_mem ho
    rw [Function.update_self, List.length_cons, List.length_erase_of_mem ho,
      Nat.sub_add_cancel hpos]
    exact h.covers g
  · rw [Function.update_of_ne heq]
    exact h.covers g

end Books

/-!
## Frames that only one page has

An entry through which a process may write to its private memory has a frame that nothing
else holds: no entry of another page or process, and no page of a file. The invariant is kept
as long as a frame that gets a new holder is not such a frame.
-/

open AddressSpace

/-- The region keeps what is written to it for itself. -/
def Region.Private (r : Region) : Prop := r.shared = false ∧ r.backing.isPhys = false

/-- A device mapping shows frames that the allocator never had. -/
def Backing.OnDevice (m : Memory) : Backing → Prop
  | .phys base _ => m.reserved (base / pageSize % 2 ^ 40) = true
  | _ => True

theorem Backing.OnDevice.congr {b : Backing} {m m' : Memory} (h : b.OnDevice m)
    (heq : ∀ f, m'.reserved f = m.reserved f) : b.OnDevice m' := by
  cases b with
  | anon => trivial
  | file inode offset => trivial
  | phys base wc => exact (heq _).trans h

namespace Machine

def Holds (m : Machine) : Owner → Nat → Prop
  | .pte p n, f => ∃ e, m.pte p n = some e ∧ e.frame = f
  | .cache i index, f => ∃ pages, m.mem.inodes i = .tmpfs pages ∧ pages index = some f
  | .caller, _ => False

def Sole (m : Machine) (p n f : Nat) : Prop :=
  m.mem.reserved f = false ∧ ∀ o, m.Holds o f → o = .pte p n

/-- A frame that nobody has to himself. -/
def Open (m : Machine) (f : Nat) : Prop :=
  m.mem.reserved f = true ∨ (∃ i index, m.Holds (.cache i index) f) ∨ ∀ o, ¬m.Holds o f

/-- What an entry may grant in a region. -/
structure Entry (m : Machine) (p n : Nat) (r : Region) (e : Pte) : Prop where
  sole : r.Private → e.writable = true → m.Sole p n e.frame
  cow : e.cow = true → e.writable = false ∧ r.Private
  device : r.backing.isPhys = true → m.mem.reserved e.frame = true

def Owned (own : Nat → List Owner) (m : Machine) : Prop :=
  ∀ o f, m.Holds o f → m.mem.reserved f = true ∨ o ∈ own f

structure Isolated (m : Machine) : Prop where
  books : ∃ own, Books own m.mem ∧ Owned own m
  spaces : ∀ p s, m.spaces p = some s → s.Inv
  entries : ∀ p n e, m.pte p n = some e →
    ∃ r, m.regionAt p (n * pageSize) = some r ∧ m.Entry p n r e
  device : ∀ p n r, m.regionAt p (n * pageSize) = some r → r.backing.OnDevice m.mem
  initrd : ∀ i first pages index, m.mem.inodes i = .initrd first pages → index < pages →
    m.mem.reserved (first + index) = true

/-- The memory has gone on for a fault of page `n` of process `p`, and `own` are the owners
but for that page: frames in use keep what they hold, and files show the same. -/
structure Moved (p n : Nat) (m : Machine) (own : Nat → List Owner) (mem : Memory) : Prop where
  books : Books own mem
  owned : ∀ o f, o ≠ .pte p n → Holds ⟨m.spaces, mem⟩ o f → m.mem.reserved f = true ∨ o ∈ own f
  reserved : mem.reserved = m.mem.reserved
  fresh : ∀ o f, Holds ⟨m.spaces, mem⟩ o f → m.Holds o f ∨ ∀ o', ¬m.Holds o' f
  initrd : ∀ i first pages, mem.inodes i = .initrd first pages →
    m.mem.inodes i = .initrd first pages
  data : ∀ f, m.mem.used f = true → mem.data f = m.mem.data f
  cache : ∀ i index o, mem.cacheByte i index o = m.mem.cacheByte i index o

variable {m : Machine} {p n q k f : Nat} {s : AddressSpace} {w : World} {e : Pte} {r : Region}
  {own : Nat → List Owner} {mem : Memory} {o : Owner}

/-! ### One process in the machine -/

@[simp] theorem put_spaces_self : (m.put p w).spaces p = some w.space := Function.update_self _ _ _

theorem put_spaces_of_ne (h : q ≠ p) : (m.put p w).spaces q = m.spaces q :=
  Function.update_of_ne h _ _

@[simp] theorem put_mem : (m.put p w).mem = w.mem := rfl

@[simp] theorem pte_put_self : (m.put p w).pte p n = w.space.ptes n := by
  rw [pte, put_spaces_self, Option.bind_some]

theorem pte_put_of_ne (h : q ≠ p) : (m.put p w).pte q n = m.pte q n := by
  rw [pte, put_spaces_of_ne h, pte]

@[simp] theorem regionAt_put_self {va : Nat} : (m.put p w).regionAt p va = w.space.regionAt va := by
  rw [Machine.regionAt, put_spaces_self, Option.bind_some]

theorem regionAt_put_of_ne {va : Nat} (h : q ≠ p) :
    (m.put p w).regionAt q va = m.regionAt q va := by
  rw [Machine.regionAt, put_spaces_of_ne h, Machine.regionAt]

theorem pte_of_space (hs : m.spaces p = some s) : m.pte p n = s.ptes n := by
  rw [pte, hs, Option.bind_some]

theorem regionAt_of_space {va : Nat} (hs : m.spaces p = some s) :
    m.regionAt p va = s.regionAt va := by
  rw [Machine.regionAt, hs, Option.bind_some]

theorem holds_put (hs : m.spaces p = some s) (ht : w.space.ptes = s.ptes) :
    (m.put p w).Holds o f ↔ Holds ⟨m.spaces, w.mem⟩ o f := by
  cases o with
  | pte q k =>
      refine exists_congr fun e => and_congr_left fun _ => ?_
      by_cases hq : q = p
      · subst hq
        rw [pte_put_self, ht]
        exact (congrArg (· = some e) (pte_of_space (m := ⟨m.spaces, w.mem⟩) hs)).symm.to_iff
      · rw [pte_put_of_ne hq]
        rfl
  | cache i index => exact Iff.rfl
  | caller => exact Iff.rfl

theorem Sole.not_open (h : m.Sole p n f) (hf : m.Holds (.pte p n) f) : ¬m.Open f := by
  rintro (hres | ⟨i, index, hcache⟩ | hnone)
  · exact absurd (h.1.symm.trans hres) Bool.false_ne_true
  · cases h.2 _ hcache
  · exact hnone _ hf

namespace Isolated

variable (h : m.Isolated)

include h

theorem used_of_holds (ho : m.Holds o f) : m.mem.used f = true := by
  obtain ⟨own, hbooks, howned⟩ := h.books
  rcases howned o f ho with hres | hin
  · exact Memory.used_of_reserved hres
  · exact hbooks.used_of_mem hin

theorem not_holds_of_unused (hf : m.mem.used f = false) : ¬m.Holds o f := fun ho =>
  absurd (hf.symm.trans (h.used_of_holds ho)) Bool.false_ne_true

theorem tidy (hs : m.spaces p = some s) : s.Tidy := (h.spaces p s hs).toTidy

theorem moved : ∃ own, Moved p n m own m.mem ∧ Owned own m := by
  obtain ⟨own, hbooks, howned⟩ := h.books
  exact ⟨own, ⟨hbooks, fun o f _ ho => howned o f ho, rfl, fun _ _ => .inl, fun _ _ _ => id,
    fun _ _ => rfl, fun _ _ _ => rfl⟩, howned⟩

theorem reads_of_moved (hm : Moved p n m own w.mem) (hq : q ≠ p) (va : Nat) :
    (m.put p w).reads q va = m.reads q va := by
  rw [reads, reads, regionAt_put_of_ne hq, pte_put_of_ne hq, put_mem]
  cases hr : m.regionAt q (va / pageSize * pageSize) with
  | none => rfl
  | some r =>
      rw [Option.map_some, Option.map_some]
      refine congrArg some ?_
      cases he : m.pte q (va / pageSize) with
      | some e =>
          have hused := h.used_of_holds (o := .pte q (va / pageSize)) (f := e.frame) ⟨e, he, rfl⟩
          exact congrFun (hm.data e.frame hused) _
      | none =>
          have hdevice := h.device q (va / pageSize) r hr
          cases hb : r.backing with
          | anon => rfl
          | file inode offset => exact hm.cache inode (offset / pageSize) (va % pageSize)
          | phys base wc =>
              rw [hb] at hdevice
              exact congrFun (hm.data _ (Memory.used_of_reserved hdevice)) _

end Isolated

end Machine

end MindOS.Kernel.Mm
