import MindOS.Kernel.Exec.Loader
import MindOS.Kernel.Mm.Mapping

/-!
# The stack of a new program

`execve` puts the arguments and the environment below the top of the stack, and a table of their
addresses below them. Such a table is also what it reads of the caller that asks for a program.
-/

namespace MindOS.Kernel.Exec

open Mm
open Tmpfs (pageSize wrap)

inductive UserErrno where
  | E2BIG
  | ENAMETOOLONG
  | mm (e : Mm.Errno)

/-- The memory of a process by its bytes, and the pages that are not there to be read or, with
`true`, to be written. -/
structure UserMem where
  byte : Nat → UInt8
  refuses : Bool → Nat → Option Mm.Errno

/-- A string with the zero at its end. -/
def cstr (t : Text) : List UInt8 := Text.bytes t ++ [0]

namespace UserMem

variable (m : UserMem)

def accessOk (write : Bool) (addr len : Nat) : Except UserErrno Unit :=
  if len = 0 then .ok ()
  else if USER_TOP < addr + len then .error (.mm .EFAULT)
  else
    match (pages (addr / pageSize * pageSize) (addr + len)).findSome? (m.refuses write) with
    | some e => .error (.mm e)
    | none => .ok ()

def copyToUser (dst : Nat) (src : List UInt8) : Except UserErrno UserMem := do
  m.accessOk true dst src.length
  return { m with
    byte := fun a => if dst ≤ a ∧ a < dst + src.length then src.getD (a - dst) 0 else m.byte a }

/-- The bytes from an address on. -/
def slice (addr len : Nat) : List UInt8 := (List.range len).map fun k => m.byte (addr + k)

/-- `read_user` of 64 bits. -/
def readUser (addr : Nat) : Except UserErrno Nat := do
  m.accessOk false addr 8
  return fromLe (m.slice addr 8)

/-- The rest of a string, which is read to the end of a page at a time. -/
def readCstr (max a : Nat) (out : List UInt8) : Except UserErrno Text :=
  if max ≤ out.length then .error .ENAMETOOLONG
  else
    let s := m.slice a (min (pageSize - a % pageSize) (max - out.length))
    match m.accessOk false a (min (pageSize - a % pageSize) (max - out.length)) with
    | .error e => .error e
    | .ok _ =>
        if 0 ∈ s then
          match fromUtf8 (out ++ s.takeWhile (· != 0)) with
          | none => .error (.mm .EINVAL)
          | some t => .ok t
        else readCstr max (a + min (pageSize - a % pageSize) (max - out.length)) (out ++ s)
  termination_by max - out.length
  decreasing_by
    have := Nat.mod_lt a (show 0 < pageSize by decide)
    simp only [slice, List.length_append, List.length_map, List.length_range]
    omega

/-- The rest of the loop of `read_str_array`. -/
def readStrs (maxTotal : Nat) : Nat → Nat → Nat → Except UserErrno (List Text)
  | 0, _, _ => .error .E2BIG
  | n + 1, addr, total => do
      let p ← m.readUser addr
      if p = 0 then return []
      let s ← m.readCstr (128 * 1024) p []
      let total := total + ((Text.bytes s).length + 1)
      if maxTotal < total then throw .E2BIG
      return s :: (← readStrs maxTotal n (addr + 8) total)

def readStrArray (addr maxCount maxTotal : Nat) : Except UserErrno (List Text) :=
  if addr = 0 then .ok [] else m.readStrs maxTotal maxCount addr 0

/-- `push_bytes` -/
def pushBytes (sp : Nat) (data : List UInt8) : Except UserErrno (UserMem × Nat) := do
  let sp := wrap (sp + 2 ^ 64 - data.length)
  return (← m.copyToUser sp data, sp)

/-- The strings from the last on, and where each of them is. -/
def pushStrs (sp : Nat) : List Text → Except UserErrno (UserMem × Nat × List Nat)
  | [] => .ok (m, sp, [])
  | t :: ts => do
      let (m, sp, addrs) ← pushStrs sp ts
      let (m, sp) ← m.pushBytes sp (cstr t)
      return (m, sp, sp :: addrs)

/-- `put` of one word after the other. -/
def putWords : UserMem → Nat → List Nat → Except UserErrno UserMem
  | m, _, [] => .ok m
  | m, w, v :: vs => do putWords (← m.copyToUser w (toLe 8 v)) (w + 8) vs

end UserMem

def STACK_TOP : Nat := 0x7ffffffff000

/-- What the processor and the random source say. -/
structure Platform where
  hwcap : Nat
  xsaveSize : Nat
  random : List UInt8

/-- The auxiliary vector, by the numbers of its keys. -/
def auxv (cpu : Platform) (elf : ElfInfo) (main : Loaded)
    (interpBase randomAddr execfnAddr platformAddr : Nat) : List (Nat × Nat) :=
  [(16, cpu.hwcap), (6, pageSize), (17, 100), (3, main.phdrAddr), (4, elf.phentsize),
    (5, elf.phnum), (7, interpBase), (8, 0), (9, main.entry), (11, 0), (12, 0), (13, 0), (14, 0),
    (23, 0), (25, randomAddr), (26, 0), (31, execfnAddr), (15, platformAddr),
    (51, 4096 + cpu.xsaveSize), (0, 0)]

/-- The memory with the stack, and where it begins. -/
def buildStack (argv envp : List Text) (execfn : Text) (cpu : Platform) (elf : ElfInfo)
    (main : Loaded) (interpBase : Nat) (m : UserMem) : Except UserErrno (UserMem × Nat) := do
  let (m, execfnAddr) ← m.pushBytes STACK_TOP (cstr execfn)
  let (m, platformAddr) ← m.pushBytes execfnAddr (cstr "x86_64".toList)
  let (m, randomAddr) ← m.pushBytes platformAddr cpu.random
  let (m, sp, envAddrs) ← m.pushStrs randomAddr envp
  let (m, sp, argAddrs) ← m.pushStrs sp argv
  let vector := auxv cpu elf main interpBase randomAddr execfnAddr platformAddr
  let words := argAddrs.length :: (argAddrs ++ 0 :: (envAddrs ++ 0 ::
    vector.flatMap fun kv => [kv.1, kv.2]))
  let sp := wrap (sp / 16 * 16 + 2 ^ 64 - words.length * 8) / 16 * 16
  return (← m.putWords sp words, sp)

theorem fromUtf8_eq_some {bs : List UInt8} {t : Text} :
    fromUtf8 bs = some t ↔ Text.bytes t = bs := by
  unfold fromUtf8
  constructor
  · intro h
    split at h
    · next heq => exact Option.some.inj h ▸ heq
    · cases h
  · rintro rfl
    rw [Text.fromUtf8Lossy_bytes, if_pos rfl]

theorem bind_ok {ε α β : Type} {x : Except ε α} {f : α → Except ε β} {b : β}
    (h : x >>= f = .ok b) : ∃ a, x = .ok a ∧ f a = .ok b := by
  cases x with
  | error e => cases h
  | ok a => exact ⟨a, rfl, h⟩

theorem ok_bind {ε α β : Type} {x : Except ε α} {f : α → Except ε β} {a : α} {b : β}
    (hx : x = .ok a) (hf : f a = .ok b) : x >>= f = .ok b := by
  rw [hx]
  exact hf

@[simp] theorem length_toLe (n v : Nat) : (toLe n v).length = n := by
  induction n generalizing v with
  | zero => rfl
  | succ n ih => rw [toLe, List.length_cons, ih]

theorem fromLe_toLe (n v : Nat) : fromLe (toLe n v) = v % 256 ^ n := by
  induction n generalizing v with
  | zero => exact (Nat.mod_one v).symm
  | succ n ih =>
      have hdigit : (UInt8.ofNat v).toNat = v % 256 := rfl
      change (UInt8.ofNat v).toNat + 256 * fromLe (toLe n (v / 256)) = _
      rw [hdigit, ih, pow_succ', Nat.mod_mul]

theorem toLe_fromLe (bs : List UInt8) : toLe bs.length (fromLe bs) = bs := by
  induction bs with
  | nil => rfl
  | cons b bs ih =>
      have hlt := b.toNat_lt
      have hhead : UInt8.ofNat (b.toNat + 256 * fromLe bs) = b := by
        apply UInt8.toNat_inj.mp
        change (b.toNat + 256 * fromLe bs) % 256 = _
        omega
      have htail : (b.toNat + 256 * fromLe bs) / 256 = fromLe bs := by omega
      change UInt8.ofNat (b.toNat + 256 * fromLe bs) ::
        toLe bs.length ((b.toNat + 256 * fromLe bs) / 256) = _
      rw [hhead, htail, ih]

namespace UserMem

variable {m m' m'' : UserMem} {write : Bool} {a addr len lo hi sp sp' n total maxTotal : Nat}
  {bs cs : List UInt8} {ts : List Text} {t : Text} {addrs rest : List Nat}

/-- What can be written can be read. -/
def Readable (m : UserMem) : Prop := ∀ n, m.refuses true n = none → m.refuses false n = none

/-- Those bytes are at the address, and can be read. -/
structure Holds (m : UserMem) (addr : Nat) (bs : List UInt8) : Prop where
  bytes : m.slice addr bs.length = bs
  present : ∀ a, addr ≤ a → a < addr + bs.length → m.refuses false (a / pageSize) = none
  user : addr + bs.length ≤ USER_TOP

/-- Nothing has changed but bytes from `lo` to `hi`. -/
structure Changed (lo hi : Nat) (m m' : UserMem) : Prop where
  refuses : m'.refuses = m.refuses
  byte : ∀ a, a < lo ∨ hi ≤ a → m'.byte a = m.byte a

theorem Changed.refl : Changed lo hi m m := ⟨rfl, fun _ _ => rfl⟩

theorem Changed.trans (h : Changed lo hi m m') (h' : Changed lo hi m' m'') : Changed lo hi m m'' :=
  ⟨h'.refuses.trans h.refuses, fun a ha => (h'.byte a ha).trans (h.byte a ha)⟩

theorem Changed.mono {lo' hi' : Nat} (h : Changed lo hi m m') (hlo : lo' ≤ lo) (hhi : hi ≤ hi') :
    Changed lo' hi' m m' :=
  ⟨h.refuses, fun a ha => h.byte a (by omega)⟩

theorem Changed.readable (h : Changed lo hi m m') (hm : m.Readable) : m'.Readable := by
  rw [Readable, h.refuses]
  exact hm

@[simp] theorem length_slice : (m.slice addr len).length = len := by
  rw [slice, List.length_map, List.length_range]

theorem slice_add : m.slice addr (len + n) = m.slice addr len ++ m.slice (addr + len) n := by
  simp [slice, List.range_add, Nat.add_assoc]

theorem Holds.changed (h : m.Holds addr bs) (hchanged : Changed lo hi m m')
    (hout : hi ≤ addr ∨ addr + bs.length ≤ lo) : m'.Holds addr bs where
  bytes := by
    refine Eq.trans (List.map_congr_left fun k hk => hchanged.byte _ ?_) h.bytes
    have := List.mem_range.mp hk
    omega
  present := hchanged.refuses ▸ h.present
  user := h.user

theorem holds_append :
    m.Holds addr (bs ++ cs) ↔ m.Holds addr bs ∧ m.Holds (addr + bs.length) cs := by
  constructor
  · rintro ⟨hbytes, hpresent, huser⟩
    rw [List.length_append] at hbytes hpresent huser
    rw [slice_add] at hbytes
    obtain ⟨hleft, hright⟩ := List.append_inj hbytes length_slice
    exact ⟨⟨hleft, fun a ha hlt => hpresent a ha (by omega), by omega⟩,
      ⟨hright, fun a ha hlt => hpresent a (by omega) (by omega), by omega⟩⟩
  · rintro ⟨hleft, hright⟩
    refine ⟨?_, fun a ha hlt => ?_, ?_⟩
    · rw [List.length_append, slice_add, hleft.bytes, hright.bytes]
    · rw [List.length_append] at hlt
      by_cases hlow : a < addr + bs.length
      · exact hleft.present a ha hlow
      · exact hright.present a (by omega) (by omega)
    · have := hright.user
      rw [List.length_append]
      omega

/-! ### Copying and reading -/

theorem accessOk_iff : m.accessOk write addr len = .ok () ↔ len = 0 ∨ addr + len ≤ USER_TOP ∧
    ∀ a, addr ≤ a → a < addr + len → m.refuses write (a / pageSize) = none := by
  rw [accessOk]
  by_cases hlen : len = 0
  · simp [hlen]
  by_cases htop : USER_TOP < addr + len
  · simp [hlen, htop]
  rw [if_neg hlen, if_neg htop]
  have hnone :
      (pages (addr / pageSize * pageSize) (addr + len)).findSome? (m.refuses write) = none ↔
        ∀ a, addr ≤ a → a < addr + len → m.refuses write (a / pageSize) = none := by
    rw [List.findSome?_eq_none_iff]
    simp only [pages, List.mem_range'_1]
    constructor
    · intro h a ha hlt
      refine h _ ?_
      rw [pageSize_eq] at *
      omega
    · intro h k hk
      have hpage : max addr (k * pageSize) / pageSize = k := by
        rw [pageSize_eq] at *
        omega
      rw [← hpage]
      refine h _ (le_max_left _ _) ?_
      rw [pageSize_eq] at *
      omega
  split
  · next e he =>
      rw [he] at hnone
      simp [hlen, ← hnone]
  · next he => exact iff_of_true rfl (.inr ⟨Nat.le_of_not_lt htop, hnone.mp he⟩)

theorem copyToUser_ok (hm : m.Readable) (haddr : bs = [] → addr ≤ USER_TOP)
    (h : m.copyToUser addr bs = .ok m') :
    m'.Holds addr bs ∧ Changed addr (addr + bs.length) m m' := by
  rw [copyToUser] at h
  obtain ⟨_, haccess, h⟩ := bind_ok h
  obtain rfl := Except.ok.inj h
  refine ⟨⟨?_, fun a ha hlt => hm _ ?_, ?_⟩, rfl, fun a ha => if_neg (by omega)⟩
  · refine List.ext_getElem length_slice fun k hk hk' => ?_
    rw [length_slice] at hk
    simp [slice, hk]
  · obtain hnil | ⟨-, hpages⟩ := accessOk_iff.1 haccess
    · omega
    · exact hpages a ha hlt
  · obtain hnil | ⟨htop, -⟩ := accessOk_iff.1 haccess
    · have := haddr (List.length_eq_zero_iff.mp hnil)
      omega
    · exact htop

theorem Holds.readUser {v : Nat} (h : m.Holds addr (toLe 8 v)) (hv : v < 2 ^ 64) :
    m.readUser addr = .ok v := by
  obtain ⟨hbytes, hpresent, huser⟩ := h
  rw [length_toLe] at *
  rw [UserMem.readUser, accessOk_iff.2 (.inr ⟨huser, hpresent⟩), hbytes, fromLe_toLe]
  exact congrArg Except.ok (Nat.mod_eq_of_lt hv)

theorem readUser_ok {v : Nat} (h : m.readUser addr = .ok v) : m.Holds addr (toLe 8 v) := by
  rw [UserMem.readUser] at h
  obtain ⟨_, haccess, h⟩ := bind_ok h
  obtain rfl := Except.ok.inj h
  have hback := toLe_fromLe (m.slice addr 8)
  rw [length_slice] at hback
  obtain hnil | ⟨htop, hpages⟩ := accessOk_iff.1 haccess
  · omega
  · exact ⟨by rw [length_toLe, hback], by rwa [length_toLe], by rwa [length_toLe]⟩

theorem takeWhile_zero {rest : List UInt8} (hbs : 0 ∉ bs) :
    (bs ++ 0 :: rest).takeWhile (· != 0) = bs := by
  rw [List.takeWhile_append_of_pos fun b hb => by
    exact bne_iff_ne.mpr fun heq => hbs (heq ▸ hb)]
  exact List.append_nil bs

theorem Holds.readCstr {max : Nat} {out : List UInt8} (h : m.Holds a (bs ++ [0])) (hbs : 0 ∉ bs)
    (hmax : out.length + bs.length < max) (ht : fromUtf8 (out ++ bs) = some t) :
    m.readCstr max a out = .ok t := by
  induction hn : bs.length using Nat.strong_induction_on generalizing bs out a with
  | _ n ih =>
  subst hn
  rw [UserMem.readCstr, if_neg (by omega)]
  generalize hchunk : min (pageSize - a % pageSize) (max - out.length) = chunk
  have hpage := Nat.mod_lt a (show 0 < pageSize by decide)
  have hlt : a < USER_TOP := by
    have := h.user
    simp only [List.length_append, List.length_singleton] at this
    omega
  have haccess : m.accessOk false a chunk = .ok () := by
    refine accessOk_iff.2 (.inr ⟨?_, fun x hx hlast => ?_⟩)
    · rw [USER_TOP, pageSize_eq] at *
      omega
    · have hsame : x / pageSize = a / pageSize := by
        rw [pageSize_eq] at *
        omega
      rw [hsame]
      exact h.present a le_rfl (by simp)
  obtain ⟨hhead, hzero⟩ := holds_append.mp h
  simp only [haccess]
  by_cases hle : chunk ≤ bs.length
  · have hsplit : m.Holds a (bs.take chunk ++ (bs.drop chunk ++ [0])) := by
      rwa [← List.append_assoc, List.take_append_drop]
    obtain ⟨hfirst, hrest⟩ := holds_append.mp hsplit
    have hs : m.slice a chunk = bs.take chunk := by
      have := hfirst.bytes
      rwa [List.length_take, min_eq_left hle] at this
    rw [hs, if_neg fun hin => hbs (List.mem_of_mem_take hin)]
    rw [List.length_take, min_eq_left hle] at hrest
    refine ih (bs.drop chunk).length ?_ hrest (fun hin => hbs (List.mem_of_mem_drop hin)) ?_ ?_ rfl
    · rw [List.length_drop]
      omega
    · rw [List.length_append, List.length_take, List.length_drop]
      omega
    · rwa [List.append_assoc, List.take_append_drop]
  · have hs : m.slice a chunk =
        bs ++ 0 :: m.slice (a + bs.length + 1) (chunk - (bs.length + 1)) := by
      have hsum : chunk = bs.length + 1 + (chunk - (bs.length + 1)) := by omega
      have hfirst := h.bytes
      rw [List.length_append, List.length_singleton] at hfirst
      rw [hsum, slice_add, hfirst, ← hsum, List.append_assoc, Nat.add_assoc]
      rfl
    have hzero : 0 ∈ m.slice a chunk := by simp [hs]
    have htake : (m.slice a chunk).takeWhile (· != 0) = bs := by
      rw [hs, takeWhile_zero hbs]
    rw [if_pos hzero, htake, ht]

theorem readCstr_ok {max : Nat} {out : List UInt8} (h : m.readCstr max a out = .ok t) :
    ∃ bs, Text.bytes t = out ++ bs ∧ 0 ∉ bs ∧ out.length + bs.length < max ∧
      m.Holds a (bs ++ [0]) := by
  induction hn : max - out.length using Nat.strong_induction_on generalizing out a with
  | _ n ih =>
  subst hn
  rw [UserMem.readCstr] at h
  split at h
  · cases h
  next hlt =>
  generalize hchunk : min (pageSize - a % pageSize) (max - out.length) = chunk at h
  have hpage := Nat.mod_lt a (show 0 < pageSize by decide)
  dsimp only at h
  split at h
  · cases h
  next haccess =>
  have hs : m.Holds a (m.slice a chunk) := by
    obtain hnil | ⟨htop, hpages⟩ := accessOk_iff.1 haccess
    · omega
    · exact ⟨by rw [length_slice], by rwa [length_slice], by rwa [length_slice]⟩
  split at h
  · next hzero =>
      obtain ⟨bs, rest, hsplit, hbs⟩ := List.eq_append_cons_of_mem hzero
      have hshort : bs.length < chunk := by
        have := congrArg List.length hsplit
        rw [length_slice, List.length_append, List.length_cons] at this
        omega
      rw [hsplit, List.append_cons, holds_append] at hs
      rw [hsplit, takeWhile_zero hbs] at h
      split at h
      · cases h
      · next heq =>
          obtain rfl := Except.ok.inj h
          exact ⟨bs, fromUtf8_eq_some.mp heq, hbs, by omega, hs.1⟩
  · next hzero =>
      have hlonger : (out ++ m.slice a chunk).length = out.length + chunk := by
        rw [List.length_append, length_slice]
      obtain ⟨bs, hbytes, hbs, hmax, hholds⟩ := ih _ (by omega) h rfl
      refine ⟨m.slice a chunk ++ bs, by rw [hbytes, List.append_assoc], ?_, ?_, ?_⟩
      · exact fun hin => (List.mem_append.mp hin).elim hzero hbs
      · rw [List.length_append, length_slice]
        omega
      · rw [List.append_assoc, holds_append, length_slice]
        exact ⟨hs, hholds⟩

/-- To read by the page is to read up to the zero, if that comes soon enough. -/
theorem readCstr_iff {max : Nat} : m.readCstr max a [] = .ok t ↔
    0 ∉ Text.bytes t ∧ (Text.bytes t).length < max ∧ m.Holds a (cstr t) := by
  constructor
  · intro h
    obtain ⟨bs, hbytes, hzero, hmax, hholds⟩ := readCstr_ok h
    rw [List.nil_append] at hbytes
    rw [cstr, hbytes]
    exact ⟨hzero, by simpa using hmax, hholds⟩
  · rintro ⟨hzero, hmax, hholds⟩
    exact hholds.readCstr hzero (by simpa using hmax) (fromUtf8_eq_some.mpr rfl)

/-! ### Tables of strings -/

/-- The bytes that strings take with their zeros. -/
def taken (ts : List Text) : Nat := (ts.map fun t => (Text.bytes t).length + 1).sum

/-- A string can be passed. -/
def Passable (t : Text) : Prop := 0 ∉ Text.bytes t ∧ (Text.bytes t).length < 128 * 1024

theorem readStrs_ok (h : m.readStrs maxTotal n addr total = .ok ts) (htotal : total ≤ maxTotal) :
    ts.length < n ∧ total + taken ts ≤ maxTotal ∧ (∀ t ∈ ts, Passable t) ∧
      ∃ addrs, m.Holds addr ((addrs ++ [0]).flatMap (toLe 8)) ∧
        List.Forall₂ (fun a t => 0 < a ∧ m.Holds a (cstr t)) addrs ts := by
  induction n generalizing addr total ts with
  | zero => cases h
  | succ n ih =>
      rw [readStrs] at h
      obtain ⟨p, hp, h⟩ := bind_ok h
      replace hp := readUser_ok hp
      split at h
      next hnull =>
        obtain rfl := Except.ok.inj h
        refine ⟨Nat.succ_pos n, by simpa [taken] using htotal, by simp, [], ?_, .nil⟩
        rwa [hnull] at hp
      next hnull =>
      obtain ⟨t, ht, h⟩ := bind_ok h
      dsimp only at h
      split at h
      · cases h
      next hfits =>
      obtain ⟨rest, hrest, h⟩ := bind_ok h
      obtain rfl := Except.ok.inj h
      obtain ⟨hlen, hsum, hall, addrs, htable, hstrs⟩ := ih hrest (Nat.le_of_not_lt hfits)
      have hone : Passable t ∧ m.Holds p (cstr t) := by
        obtain ⟨bs, hbytes, hzero, hmax, hholds⟩ := readCstr_ok ht
        rw [List.nil_append] at hbytes
        rw [Passable, cstr, hbytes]
        exact ⟨⟨hzero, by simpa using hmax⟩, hholds⟩
      refine ⟨Nat.succ_lt_succ hlen, ?_, List.forall_mem_cons.mpr ⟨hone.1, hall⟩, p :: addrs, ?_,
        .cons ⟨Nat.pos_of_ne_zero hnull, hone.2⟩ hstrs⟩
      · rw [taken, List.map_cons, List.sum_cons]
        rw [taken] at hsum
        omega
      · rw [List.cons_append, List.flatMap_cons]
        exact holds_append.mpr ⟨hp, by rwa [length_toLe]⟩

theorem readStrs_of_holds
    (hstrs : List.Forall₂ (fun a t => 0 < a ∧ m.Holds a (cstr t)) addrs ts)
    (hts : ∀ t ∈ ts, Passable t) (hlen : ts.length < n) (hsum : total + taken ts ≤ maxTotal)
    (htable : m.Holds addr ((addrs ++ 0 :: rest).flatMap (toLe 8))) :
    m.readStrs maxTotal n addr total = .ok ts := by
  induction hstrs generalizing n addr total with
  | nil =>
      obtain ⟨n, rfl⟩ := Nat.exists_eq_succ_of_ne_zero (Nat.ne_zero_of_lt hlen)
      obtain ⟨hzero, -⟩ := holds_append.mp htable
      rw [readStrs, hzero.readUser (by decide)]
      rfl
  | @cons a t addrs ts hone _ ih =>
      obtain ⟨n, rfl⟩ := Nat.exists_eq_succ_of_ne_zero (Nat.ne_zero_of_lt hlen)
      obtain ⟨hpos, hstr⟩ := hone
      obtain ⟨⟨hzero, hmax⟩, hrest⟩ := List.forall_mem_cons.mp hts
      obtain ⟨hword, htail⟩ := holds_append.mp htable
      have htop := hstr.user
      have hread : m.readCstr (128 * 1024) a [] = .ok t :=
        hstr.readCstr hzero (by simpa using hmax) (fromUtf8_eq_some.mpr rfl)
      rw [taken, List.map_cons, List.sum_cons] at hsum
      rw [length_toLe] at htail
      have hgo := @ih (addr + 8) n (total + ((Text.bytes t).length + 1)) hrest
        (Nat.lt_of_succ_lt_succ hlen) (by rw [taken]; omega) htail
      rw [readStrs, hword.readUser (by rw [USER_TOP] at htop; omega)]
      change (if a = 0 then _ else _) = _
      rw [if_neg (Nat.ne_of_gt hpos), hread]
      change (if maxTotal < total + ((Text.bytes t).length + 1) then _ else _) = _
      rw [if_neg (by omega), hgo]
      rfl

/-! ### Building the stack -/

theorem pushBytes_ok (hm : m.Readable) (hsp : sp ≤ USER_TOP)
    (h : m.pushBytes sp bs = .ok (m', sp')) :
    sp' + bs.length = sp ∧ m'.Holds sp' bs ∧ Changed sp' sp m m' := by
  rw [pushBytes] at h
  obtain ⟨mid, hcopy, h⟩ := bind_ok h
  obtain ⟨rfl, rfl⟩ := Prod.mk.inj (Except.ok.inj h)
  rw [USER_TOP] at hsp
  obtain ⟨hholds, hchanged⟩ := copyToUser_ok hm (fun hnil => by
    rw [hnil, List.length_nil, wrap_eq, USER_TOP]
    omega) hcopy
  have hsum : wrap (sp + 2 ^ 64 - bs.length) + bs.length = sp := by
    have htop := hholds.user
    rw [wrap_eq, USER_TOP] at *
    omega
  rw [hsum] at hchanged
  exact ⟨hsum, hholds, hchanged⟩

theorem pushStrs_ok (hm : m.Readable) (hsp : sp ≤ USER_TOP)
    (h : m.pushStrs sp ts = .ok (m', sp', addrs)) :
    sp' ≤ sp ∧ Changed sp' sp m m' ∧
      List.Forall₂ (fun a t => sp' ≤ a ∧ m'.Holds a (cstr t)) addrs ts := by
  induction ts generalizing m' sp' addrs with
  | nil =>
      obtain ⟨rfl, rfl, rfl⟩ := by simpa [pushStrs] using h
      exact ⟨le_rfl, .refl, .nil⟩
  | cons t ts ih =>
      rw [pushStrs] at h
      obtain ⟨⟨mid, low, lows⟩, hrest, h⟩ := bind_ok h
      obtain ⟨hle, hchanged, hstrs⟩ := ih hrest
      obtain ⟨⟨last, lowest⟩, hpush, h⟩ := bind_ok h
      cases h
      obtain ⟨hsum, hholds, hpushed⟩ := pushBytes_ok (hchanged.readable hm) (hle.trans hsp) hpush
      refine ⟨by omega, (hchanged.mono (by omega) le_rfl).trans (hpushed.mono le_rfl hle),
        .cons ⟨le_rfl, hholds⟩ (hstrs.imp fun a t ha => ⟨by omega, ?_⟩)⟩
      exact ha.2.changed hpushed (.inl ha.1)

theorem putWords_ok {w : Nat} {ws : List Nat} (hm : m.Readable) (hws : ws ≠ [])
    (h : m.putWords w ws = .ok m') :
    m'.Holds w (ws.flatMap (toLe 8)) ∧ Changed w (w + 8 * ws.length) m m' := by
  induction ws generalizing m w with
  | nil => exact absurd rfl hws
  | cons v vs ih =>
      rw [putWords] at h
      obtain ⟨mid, hcopy, h⟩ := bind_ok h
      obtain ⟨hword, hchanged⟩ := copyToUser_ok hm (fun hnil => by cases hnil) hcopy
      rw [length_toLe] at hchanged
      by_cases hvs : vs = []
      · subst hvs
        obtain rfl := Except.ok.inj h
        exact ⟨by simpa using hword, by simpa using hchanged⟩
      · obtain ⟨hrest, hlast⟩ := ih (hchanged.readable hm) hvs h
        refine ⟨holds_append.mpr ⟨hword.changed hlast (.inr ?_), ?_⟩, ?_⟩
        · rw [length_toLe]
        · rwa [length_toLe]
        · rw [List.length_cons]
          exact (hchanged.mono le_rfl (by omega)).trans (hlast.mono (by omega) (by omega))

theorem readStrArray_ok {maxCount : Nat} (hcount : 0 < maxCount)
    (h : m.readStrArray addr maxCount maxTotal = .ok ts) :
    ts.length < maxCount ∧ taken ts ≤ maxTotal ∧ ∀ t ∈ ts, Passable t := by
  rw [readStrArray] at h
  split at h
  · obtain rfl := Except.ok.inj h
    simpa [taken] using hcount
  · obtain ⟨hlen, hsum, hall, -⟩ := readStrs_ok h (Nat.zero_le _)
    exact ⟨hlen, by simpa using hsum, hall⟩

/-- A table of strings is read as what it names up to its zero, within the limits, and only then. -/
theorem readStrArray_iff {maxCount : Nat} : m.readStrArray addr maxCount maxTotal = .ok ts ↔
    addr = 0 ∧ ts = [] ∨ 0 < addr ∧ ts.length < maxCount ∧ taken ts ≤ maxTotal ∧
      (∀ t ∈ ts, Passable t) ∧ ∃ addrs, m.Holds addr ((addrs ++ [0]).flatMap (toLe 8)) ∧
        List.Forall₂ (fun a t => 0 < a ∧ m.Holds a (cstr t)) addrs ts := by
  rw [readStrArray]
  by_cases haddr : addr = 0
  · simp [haddr, eq_comm]
  have hpos := Nat.pos_of_ne_zero haddr
  rw [if_neg haddr]
  constructor
  · intro h
    have := readStrs_ok h (Nat.zero_le _)
    rw [Nat.zero_add] at this
    exact .inr ⟨hpos, this⟩
  · rintro (⟨hzero, -⟩ | ⟨-, hlen, hsum, hall, addrs, htable, hstrs⟩)
    · exact absurd hzero haddr
    · exact readStrs_of_holds hstrs hall hlen (by rwa [Nat.zero_add]) htable

@[simp] theorem length_flatMap_toLe (ws : List Nat) :
    (ws.flatMap (toLe n)).length = n * ws.length := by
  induction ws with
  | nil => rfl
  | cons v vs ih => rw [List.flatMap_cons, List.length_append, length_toLe, ih, List.length_cons,
      Nat.mul_succ, Nat.add_comm]

/-- What `execve` read of its caller is what it would read of the new program. -/
theorem readStrArray_buildStack {caller : UserMem} {argvAddr envpAddr interpBase : Nat}
    {argv envp : List Text} {execfn : Text} {cpu : Platform} {elf : ElfInfo} {main : Loaded}
    (hm : m.Readable)
    (hargv : caller.readStrArray argvAddr 65536 (2 * 1024 * 1024) = .ok argv)
    (henvp : caller.readStrArray envpAddr 65536 (2 * 1024 * 1024) = .ok envp)
    (hbuild : buildStack argv envp execfn cpu elf main interpBase m = .ok (m', sp)) :
    16 ∣ sp ∧ m'.readUser sp = .ok argv.length ∧
      m'.readStrArray (sp + 8) 65536 (2 * 1024 * 1024) = .ok argv ∧
      m'.readStrArray (sp + 8 * (argv.length + 2)) 65536 (2 * 1024 * 1024) = .ok envp := by
  obtain ⟨hargc, hargs, hargPlain⟩ := readStrArray_ok (by decide) hargv
  obtain ⟨henvc, henvs, henvPlain⟩ := readStrArray_ok (by decide) henvp
  rw [buildStack] at hbuild
  obtain ⟨⟨m₁, execfnAddr⟩, h₁, hbuild⟩ := bind_ok hbuild
  obtain ⟨⟨m₂, platformAddr⟩, h₂, hbuild⟩ := bind_ok hbuild
  obtain ⟨⟨m₃, randomAddr⟩, h₃, hbuild⟩ := bind_ok hbuild
  obtain ⟨⟨m₄, sp₄, envAddrs⟩, h₄, hbuild⟩ := bind_ok hbuild
  obtain ⟨⟨m₅, low, argAddrs⟩, h₅, hbuild⟩ := bind_ok hbuild
  have htop : STACK_TOP ≤ USER_TOP := by decide
  obtain ⟨hsum₁, -, hc₁⟩ := pushBytes_ok hm htop h₁
  replace hm := hc₁.readable hm
  obtain ⟨hsum₂, -, hc₂⟩ := pushBytes_ok hm (by omega) h₂
  replace hm := hc₂.readable hm
  obtain ⟨hsum₃, -, hc₃⟩ := pushBytes_ok hm (by omega) h₃
  replace hm := hc₃.readable hm
  obtain ⟨hle₄, hc₄, henv⟩ := pushStrs_ok hm (by omega) h₄
  replace hm := hc₄.readable hm
  obtain ⟨hle₅, hc₅, harg⟩ := pushStrs_ok hm (by omega) h₅
  replace hm := hc₅.readable hm
  dsimp only at hbuild
  generalize hrest : (auxv cpu elf main interpBase randomAddr execfnAddr platformAddr).flatMap
    (fun kv => [kv.1, kv.2]) = rest at hbuild
  have hlength : rest.length = 40 := by
    rw [← hrest]
    rfl
  obtain ⟨last, hwords, hbuild⟩ := bind_ok hbuild
  obtain ⟨rfl, rfl⟩ := Prod.mk.inj (Except.ok.inj hbuild)
  obtain ⟨htable, hc₆⟩ := putWords_ok hm (List.cons_ne_nil _ _) hwords
  have hA := harg.length_eq
  have hE := henv.length_eq
  have huser := htable.user
  rw [length_flatMap_toLe] at huser
  simp only [List.length_cons, List.length_append, hlength, hA, hE] at huser hc₆ ⊢ htable
  generalize hsp : wrap (low / 16 * 16 + 2 ^ 64 -
    (argv.length + (envp.length + (40 + 1) + 1) + 1) * 8) / 16 * 16 = sp at *
  have hlow : 0 < low ∧ sp + 8 * (argv.length + (envp.length + (40 + 1) + 1) + 1) ≤ low := by
    rw [wrap_eq] at hsp
    rw [USER_TOP] at *
    omega
  have hkept : ∀ a t, low ≤ a ∧ m₅.Holds a (cstr t) → 0 < a ∧ last.Holds a (cstr t) := fun a t ha =>
    ⟨by omega, ha.2.changed hc₆ (.inl (by omega))⟩
  obtain ⟨hcount, htable⟩ := holds_append.mp htable
  rw [length_toLe] at htable
  refine ⟨⟨_, hsp.symm.trans (Nat.mul_comm _ _)⟩, hcount.readUser (by omega), ?_, ?_⟩
  · rw [readStrArray, if_neg (by omega)]
    exact readStrs_of_holds (harg.imp hkept) hargPlain hargc (by omega) htable
  · rw [readStrArray, if_neg (by omega)]
    have happ : (argAddrs ++ 0 :: (envAddrs ++ 0 :: rest)).flatMap (toLe 8) =
        (argAddrs ++ [0]).flatMap (toLe 8) ++ (envAddrs ++ 0 :: rest).flatMap (toLe 8) := by simp
    rw [← List.flatMap_def, happ] at htable
    obtain ⟨-, henvTable⟩ := holds_append.mp htable
    have hat : sp + 8 + ((argAddrs ++ [0]).flatMap (toLe 8)).length =
        sp + 8 * (argv.length + 2) := by
      rw [length_flatMap_toLe, List.length_append, List.length_singleton, hA]
      omega
    rw [hat] at henvTable
    exact readStrs_of_holds (henv.imp fun a t ha => hkept a t
      ⟨hle₅.trans ha.1, ha.2.changed hc₅ (.inl ha.1)⟩) henvPlain henvc (by omega) henvTable

/-- Of two arguments and a variable, all memory being there. -/
def lsStack : Except UserErrno (UserMem × Nat) :=
  buildStack ["ls".toList, "-l".toList] ["A=b".toList] "/bin/ls".toList ⟨0, 0, []⟩
    ⟨⟨ET_EXEC, 0, 64, 56, 1⟩, [], none⟩ ⟨0, 0, 0, 0⟩ 0 ⟨fun _ => 0, fun _ _ => none⟩

/-- The memory of a caller with the same arguments and variable: two tables, then strings. -/
def lsCaller : UserMem where
  byte a := (([56, 59, 0].flatMap (toLe 8) ++ [62, 0].flatMap (toLe 8) ++
    ["ls", "-l", "A=b"].flatMap (cstr ·.toList)).drop (a - 16)).headD 0
  refuses _ _ := none

theorem readStrArray_buildStack_ls : ∃ m' sp, lsStack = .ok (m', sp) ∧
    m'.readStrArray (sp + 8) 65536 (2 * 1024 * 1024) = .ok ["ls".toList, "-l".toList] ∧
    m'.readStrArray (sp + 32) 65536 (2 * 1024 * 1024) = .ok ["A=b".toList] := by
  have hok : lsStack.toBool = true := by decide
  have hplain : ∀ t ∈ ["ls".toList, "-l".toList, "A=b".toList], Passable t := by
    unfold Passable
    decide
  have hls : lsCaller.Holds 56 (cstr "ls".toList) := ⟨by decide, fun _ _ _ => rfl, by decide⟩
  have hl : lsCaller.Holds 59 (cstr "-l".toList) := ⟨by decide, fun _ _ _ => rfl, by decide⟩
  have hvar : lsCaller.Holds 62 (cstr "A=b".toList) := ⟨by decide, fun _ _ _ => rfl, by decide⟩
  have hargs : lsCaller.Holds 16 (([56, 59] ++ 0 :: []).flatMap (toLe 8)) :=
    ⟨by decide, fun _ _ _ => rfl, by decide⟩
  have hvars : lsCaller.Holds 40 (([62] ++ 0 :: []).flatMap (toLe 8)) :=
    ⟨by decide, fun _ _ _ => rfl, by decide⟩
  have hargv : lsCaller.readStrArray 16 65536 (2 * 1024 * 1024) =
      .ok ["ls".toList, "-l".toList] :=
    readStrs_of_holds (.cons ⟨by decide, hls⟩ (.cons ⟨by decide, hl⟩ .nil))
      (fun t ht => hplain t (List.mem_append_left ["A=b".toList] ht)) (by decide) (by decide) hargs
  have henvp : lsCaller.readStrArray 40 65536 (2 * 1024 * 1024) = .ok ["A=b".toList] :=
    readStrs_of_holds (.cons ⟨by decide, hvar⟩ .nil)
      (fun t ht => hplain t (List.mem_append_right ["ls".toList, "-l".toList] ht)) (by decide)
      (by decide) hvars
  rcases hbuild : lsStack with e | ⟨m', sp⟩
  · rw [hbuild] at hok
    cases hok
  · exact ⟨m', sp, rfl, (@readStrArray_buildStack _ _ _ lsCaller 16 40 0 _ _ _ _ _ _
      (fun _ _ => rfl) hargv henvp hbuild).2.2⟩

/-! ### Room on the stack -/

/-- The pages from there up to the top of the stack can be written. -/
def Room (m : UserMem) (lo : Nat) : Prop :=
  ∀ a, lo ≤ a → a < STACK_TOP → m.refuses true (a / pageSize) = none

theorem Room.copyToUser (hm : m.Room lo) (hlo : lo ≤ addr) (htop : addr + bs.length ≤ STACK_TOP) :
    ∃ m', m.copyToUser addr bs = .ok m' ∧ m'.Room lo := by
  have haccess : m.accessOk true addr bs.length = .ok () := by
    refine accessOk_iff.2 (.inr ⟨htop.trans (by decide), fun a ha hlt => hm a ?_ ?_⟩) <;> omega
  rw [UserMem.copyToUser, haccess]
  exact ⟨_, rfl, hm⟩

theorem Room.pushBytes (hm : m.Room lo) (hlo : lo + bs.length ≤ sp) (hsp : sp ≤ STACK_TOP) :
    ∃ m' sp', m.pushBytes sp bs = .ok (m', sp') ∧ m'.Room lo ∧ sp' + bs.length = sp := by
  have hwrap : wrap (sp + 2 ^ 64 - bs.length) = sp - bs.length := by
    rw [wrap_eq]
    rw [STACK_TOP] at hsp
    omega
  obtain ⟨m', hcopy, hm'⟩ := @Room.copyToUser m (sp - bs.length) lo bs hm (by omega) (by omega)
  rw [UserMem.pushBytes, hwrap, hcopy]
  exact ⟨m', _, rfl, hm', by omega⟩

theorem Room.pushStrs (hm : m.Room lo) (hlo : lo + taken ts ≤ sp) (hsp : sp ≤ STACK_TOP) :
    ∃ m' sp' addrs, m.pushStrs sp ts = .ok (m', sp', addrs) ∧ m'.Room lo ∧
      sp' + taken ts = sp ∧ addrs.length = ts.length := by
  induction ts with
  | nil => exact ⟨m, sp, [], rfl, hm, rfl, rfl⟩
  | cons t ts ih =>
      have htaken : taken (t :: ts) = (cstr t).length + taken ts := by
        rw [taken, List.map_cons, List.sum_cons, cstr, List.length_append, List.length_singleton]
        rfl
      obtain ⟨mid, low, addrs, hrest, hmid, hsum, hlength⟩ := ih (by omega)
      obtain ⟨m', sp', hpush, hm', hsum'⟩ :=
        @Room.pushBytes _ _ low (cstr t) hmid (by omega) (by omega)
      exact ⟨m', sp', _, ok_bind hrest (ok_bind hpush rfl), hm', by omega,
        congrArg Nat.succ hlength⟩

theorem Room.putWords {w : Nat} {ws : List Nat} (hm : m.Room lo) (hlo : lo ≤ w)
    (htop : w + 8 * ws.length ≤ STACK_TOP) : ∃ m', m.putWords w ws = .ok m' := by
  induction ws generalizing m w with
  | nil => exact ⟨m, rfl⟩
  | cons v vs ih =>
      rw [List.length_cons] at htop
      obtain ⟨mid, hcopy, hmid⟩ := @Room.copyToUser _ w _ (toLe 8 v) hm hlo (by
        rw [length_toLe]
        omega)
      obtain ⟨m', hrest⟩ := @ih mid (w + 8) hmid (by omega) (by omega)
      exact ⟨m', ok_bind hcopy hrest⟩

/-- What fits between two places of the stack is built. -/
theorem buildStack_fits {argv envp : List Text} {execfn : Text} {cpu : Platform} {elf : ElfInfo}
    {main : Loaded} {interpBase : Nat} (hm : m.Room lo)
    (hfits : lo + (cstr execfn).length + 7 + cpu.random.length + taken envp + taken argv +
      8 * (argv.length + envp.length + 43) + 32 ≤ STACK_TOP) :
    ∃ m' sp, buildStack argv envp execfn cpu elf main interpBase m = .ok (m', sp) := by
  have hseven : (cstr "x86_64".toList).length = 7 := by decide
  obtain ⟨m₁, sp₁, h₁, hm₁, hsum₁⟩ :=
    @Room.pushBytes _ _ STACK_TOP (cstr execfn) hm (by omega) le_rfl
  obtain ⟨m₂, sp₂, h₂, hm₂, hsum₂⟩ := @Room.pushBytes _ _ sp₁ (cstr "x86_64".toList) hm₁
    (by omega) (by omega)
  obtain ⟨m₃, sp₃, h₃, hm₃, hsum₃⟩ := @Room.pushBytes _ _ sp₂ cpu.random hm₂ (by omega) (by omega)
  obtain ⟨m₄, sp₄, envAddrs, h₄, hm₄, hsum₄, hE⟩ :=
    @Room.pushStrs _ _ sp₃ envp hm₃ (by omega) (by omega)
  obtain ⟨m₅, low, argAddrs, h₅, hm₅, hsum₅, hA⟩ :=
    @Room.pushStrs _ _ sp₄ argv hm₄ (by omega) (by omega)
  have hwords : ∀ ws : List Nat, ws.length = argv.length + envp.length + 43 →
      ∃ m', m₅.putWords (wrap (low / 16 * 16 + 2 ^ 64 - ws.length * 8) / 16 * 16) ws = .ok m' := by
    intro ws hws
    have htop : STACK_TOP = 0x7ffffffff000 := rfl
    rw [hws, wrap_eq]
    refine hm₅.putWords ?_ ?_ <;> omega
  obtain ⟨m', hput⟩ := hwords (argAddrs.length :: (argAddrs ++ 0 :: (envAddrs ++ 0 ::
    (auxv cpu elf main interpBase sp₃ sp₁ sp₂).flatMap fun kv => [kv.1, kv.2]))) (by
      simp [auxv, hA, hE]
      omega)
  exact ⟨m', _, ok_bind h₁ (ok_bind h₂ (ok_bind h₃ (ok_bind h₄ (ok_bind h₅ (ok_bind hput rfl)))))⟩

theorem buildStack_fits_ls : ∃ m' sp, lsStack = .ok (m', sp) :=
  @buildStack_fits _ 0 ["ls".toList, "-l".toList] ["A=b".toList] _ _ _ _ _ (fun _ _ _ => rfl)
    (by decide)

end UserMem

end MindOS.Kernel.Exec
