import Mathlib.Data.Nat.Basic
import MindOS.Kernel.Tmpfs.File
import MindOS.Ranges

/-!
# The memory of processes

## Frames and the page cache

Physical memory is frames, which the allocator hands out and takes back when the last
reference goes. A frame that it never had, such as device memory or a boot module, is in use
and has a count of 0, which neither goes up nor down. Which of the free frames it hands out is
left open. The pages of a file are frames that its inode keeps.
-/

namespace MindOS.Kernel.Mm

open Tmpfs (Page)

inductive Errno where
  | EINVAL
  | ENOMEM
  | EFAULT
  | EACCES
  | EEXIST
  | ENODEV
  | ENOSPC
  deriving DecidableEq

/-- The inodes that have pages: a file in tmpfs has them made, the file of a boot module has
`pages` frames from `first` on, and the others have none. -/
inductive Inode where
  | tmpfs (pages : Nat → Option Nat)
  | initrd (first pages : Nat)
  | other

structure Memory where
  used : Nat → Bool
  count : Nat → Nat
  data : Nat → Page
  inodes : Nat → Inode

namespace Memory

/-- All frames are free. -/
def fresh : Memory := ⟨fun _ => false, fun _ => 0, fun _ => .zeroed, fun _ => .other⟩

/-- The count of references is 32 bits wide. -/
def wrapCount (n : Nat) : Nat := n % 2 ^ 32

variable (m : Memory)

/-- A frame of which the allocator knows nothing. -/
def reserved (f : Nat) : Bool := m.used f && m.count f == 0

def allocFrameRef : Option Nat → Option (Nat × Memory)
  | none => none
  | some f =>
      if m.used f then none
      else some (f, { m with
        used := Function.update m.used f true
        count := Function.update m.count f 1 })

def fill (f : Nat) (page : Page) : Memory := { m with data := Function.update m.data f page }

def allocZeroedRef (pick : Option Nat) : Option (Nat × Memory) :=
  (m.allocFrameRef pick).map fun got => (got.1, got.2.fill got.1 .zeroed)

def refInc (f : Nat) : Memory :=
  if m.count f = 0 then m
  else { m with count := Function.update m.count f (wrapCount (m.count f + 1)) }

/-- Drops a reference, and the frame with the last one. -/
def refDec (f : Nat) : Memory :=
  if m.count f = 0 then m
  else if m.count f = 1 then
    { m with count := Function.update m.count f 0, used := Function.update m.used f false }
  else { m with count := Function.update m.count f (m.count f - 1) }

/-- The page of a file, with a reference for the caller. -/
def getPage (i index : Nat) (pick : Option Nat) : Except Errno (Nat × Memory) :=
  match m.inodes i with
  | .other => .error .ENODEV
  | .initrd first pages =>
      if pages ≤ index then
        match m.allocZeroedRef pick with
        | none => .error .ENOMEM
        | some got => .ok got
      else .ok (first + index, m.refInc (first + index))
  | .tmpfs pages =>
      match pages index with
      | some f => .ok (f, m.refInc f)
      | none =>
          match m.allocZeroedRef pick with
          | none => .error .ENOSPC
          | some got =>
              .ok (got.1, { got.2.refInc got.1 with
                inodes := Function.update m.inodes i
                  (.tmpfs (Function.update pages index (some got.1))) })

end Memory

/-!
## Address spaces

A process sees the regions of its address space and the frames that its page tables give for
them, which they do not until a page is touched. Addresses and lengths are 64 bits wide and
wrap; a page is known by its number. The operations keep no more of a region than what the
ranges they are asked for leave of it.
-/

open Tmpfs (Page pageSize wrap)

def USER_TOP : Nat := 0x800000000000

/-- Lowest address user mappings may occupy. -/
def MMAP_MIN : Nat := 0x10000

/-- Top of the mmap region. -/
def MMAP_TOP : Nat := 0x7f0000000000

structure Prot where
  read : Bool
  write : Bool
  exec : Bool
  deriving DecidableEq

/-- What a region shows. `offset` and `base` are where it starts. -/
inductive Backing where
  | anon
  | file (inode offset : Nat)
  | phys (base : Nat) (wc : Bool)
  deriving DecidableEq

namespace Backing

/-- The backing of what begins `n` bytes into a region. -/
def forward : Backing → Nat → Backing
  | anon, _ => anon
  | file inode offset, n => file inode (wrap (offset + n))
  | phys base wc, n => phys (wrap (base + n)) wc

end Backing

structure Vma where
  start : Nat
  stop : Nat
  prot : Prot
  shared : Bool
  backing : Backing
  deriving DecidableEq

/-- A present entry of the page tables. -/
structure Pte where
  frame : Nat
  writable : Bool
  nx : Bool
  writeThrough : Bool := false
  noCache : Bool := false
  cow : Bool := false
  deriving DecidableEq

namespace Vma

def pteFlags (v : Vma) (frame : Nat) : Pte :=
  { frame := frame, writable := v.prot.write, nx := !v.prot.exec }

/-- What is left of a region below `a`. -/
def left (v : Vma) (a : Nat) : Vma := { v with stop := a }

/-- What is left of a region from `a` on. -/
def right (v : Vma) (a : Nat) : Vma :=
  { v with start := a, backing := v.backing.forward (a - v.start) }

end Vma

abbrev Vmas := Ranges.Map Vma.start

structure AddressSpace where
  vmas : Vmas := .empty
  brkStart : Nat := 0
  brk : Nat := 0
  mmapHint : Nat := MMAP_TOP
  /-- By the number of the page. -/
  ptes : Nat → Option Pte := fun _ => none

/-- An address space and the memory it shares with the others. -/
structure World where
  space : AddressSpace
  mem : Memory

def aligned (a : Nat) : Bool := a % pageSize == 0

/-- `(n + PAGE_SIZE - 1) & !(PAGE_SIZE - 1)` -/
def alignUp (n : Nat) : Nat := wrap (n + (pageSize - 1)) / pageSize * pageSize

/-- The pages that a loop from `lo` on visits below `hi`. -/
def pages (lo hi : Nat) : List Nat :=
  List.range' (lo / pageSize) ((hi - lo + (pageSize - 1)) / pageSize)

namespace AddressSpace

variable (s : AddressSpace)

def findVma (a : Nat) : Option Vma := s.vmas.at? Vma.stop a

def rangeFree (start stop : Nat) : Bool := s.vmas.free Vma.stop start stop

/-- Goes down from `top` past the regions, of which the highest comes first. -/
def gapBelow (len : Nat) : List Vma → Nat → Option Nat
  | [], top => if top < len + MMAP_MIN then none else some (top - len)
  | v :: vmas, top =>
      if top < len + MMAP_MIN then none
      else if top ≤ v.start then gapBelow len vmas top
      else if top - len < v.stop then gapBelow len vmas v.start
      else some (top - len)

def findGap (len hint : Nat) : Option Nat := gapBelow len s.vmas.items.reverse (min hint MMAP_TOP)

def insert (v : Vma) : AddressSpace := { s with vmas := s.vmas.insert v }

def remove (k : Nat) : AddressSpace := { s with vmas := s.vmas.erase k }

/-- Splits the region in which `a` lies. -/
def splitAt (a : Nat) : AddressSpace :=
  match s.findVma a with
  | none => s
  | some v => if v.start = a then s else (s.insert (v.left a)).insert (v.right a)

/-- The regions that unmapping what lies between takes a part of. -/
def affected (addr stop : Nat) : List Nat :=
  (s.vmas.items.filter fun v => v.start < stop ∧ addr < v.stop).map Vma.start

def insertIf (c : Prop) [Decidable c] (v : Vma) : AddressSpace := if c then s.insert v else s

/-- Puts what is left of a region in its place. -/
def trim (v : Vma) (addr stop : Nat) : AddressSpace :=
  ((s.remove v.start).insertIf (v.start < addr) (v.left addr)).insertIf
    (stop < v.stop) (v.right stop)

/-- Where the caller says: whether the region goes there. -/
def placesAt (addr len : Nat) (fixed noreplace : Bool) : Bool :=
  if fixed then
    aligned addr && decide (wrap (addr + len) ≤ USER_TOP) &&
      !(noreplace && !s.rangeFree addr (wrap (addr + len)))
  else
    addr != 0 && aligned addr && decide (wrap (addr + len) ≤ USER_TOP) &&
      decide (MMAP_MIN ≤ addr) && s.rangeFree addr (wrap (addr + len))

end AddressSpace

/-- What `mmap` reads of its flags. -/
structure MapFlags where
  fixed : Bool
  noreplace : Bool
  shared : Bool

namespace World

variable (s : World)

def unmapPage (n : Nat) : World :=
  match s.space.ptes n with
  | none => s
  | some e =>
      { space := { s.space with ptes := Function.update s.space.ptes n none }
        mem := s.mem.refDec e.frame }

def unmapPages (lo hi : Nat) : World := (pages lo hi).foldl unmapPage s

def cut (addr stop : Nat) (s : World) (k : Nat) : World :=
  match s.space.vmas.get? k with
  | none => s
  | some v =>
      ({ s with space := s.space.trim v addr stop } : World).unmapPages
        (max v.start addr) (min v.stop stop)

/-- Removes all mappings within the range, splitting regions as needed. -/
def unmapLocked (addr len : Nat) : World :=
  (s.space.affected addr (wrap (addr + len))).foldl (cut addr (wrap (addr + len))) s

/-- Puts the new region in the map. -/
def mapAt (start len : Nat) (prot : Prot) (shared : Bool) (backing : Backing) : World :=
  { s with space := s.space.insert ⟨start, wrap (start + len), prot, shared, backing⟩ }

def mmapFixed (addr len : Nat) (prot : Prot) (flags : MapFlags) (backing : Backing) :
    World × Except Errno Nat :=
  if !aligned addr || decide (USER_TOP < wrap (addr + len)) then (s, .error .EINVAL)
  else if flags.noreplace && !s.space.rangeFree addr (wrap (addr + len)) then
    (s, .error .EEXIST)
  else ((s.unmapLocked addr len).mapAt addr len prot flags.shared backing, .ok addr)

def mmapHinted (addr len : Nat) (prot : Prot) (flags : MapFlags) (backing : Backing) :
    World × Except Errno Nat :=
  if addr != 0 && aligned addr && decide (wrap (addr + len) ≤ USER_TOP) &&
      decide (MMAP_MIN ≤ addr) && s.space.rangeFree addr (wrap (addr + len)) then
    (s.mapAt addr len prot flags.shared backing, .ok addr)
  else
    match s.space.findGap len s.space.mmapHint with
    | none => (s, .error .ENOMEM)
    | some start =>
        (({ s with space := { s.space with mmapHint := start } } : World).mapAt start len prot
          flags.shared backing, .ok start)

/-- Maps a region. `addr` is a hint unless `fixed` is set. -/
def mmap (addr len : Nat) (prot : Prot) (flags : MapFlags) (backing : Backing) :
    World × Except Errno Nat :=
  if len = 0 then (s, .error .EINVAL)
  else if flags.fixed then s.mmapFixed addr (alignUp len) prot flags backing
  else s.mmapHinted addr (alignUp len) prot flags backing

def munmap (addr len : Nat) : World × Except Errno Unit :=
  if !aligned addr || len = 0 then (s, .error .EINVAL)
  else (s.unmapLocked addr (alignUp len), .ok ())

/-- Never grants write to a page that has to be copied first. -/
def protectPage (prot : Prot) (s : AddressSpace) (n : Nat) : AddressSpace :=
  match s.ptes n with
  | none => s
  | some e => { s with
      ptes := Function.update s.ptes n
        (some { e with writable := prot.write && !e.cow, nx := !prot.exec }) }

def protectVma (prot : Prot) (s : AddressSpace) (k : Nat) : AddressSpace :=
  match s.vmas.get? k with
  | none => s
  | some v => (pages v.start v.stop).foldl (protectPage prot) (s.insert { v with prot := prot })

def protectRange (addr stop : Nat) (prot : Prot) (s : AddressSpace) : AddressSpace :=
  ((s.vmas.between addr stop).map Vma.start).foldl (protectVma prot) s

/-- A range that ends before it starts halts the kernel. -/
def mprotect (addr len : Nat) (prot : Prot) : Option (World × Except Errno Unit) :=
  if !aligned addr then some (s, .error .EINVAL)
  else if wrap (addr + alignUp len) < addr then none
  else
    some ({ s with
      space := protectRange addr (wrap (addr + alignUp len)) prot
        ((s.space.splitAt addr).splitAt (wrap (addr + alignUp len))) }, .ok ())

def heap (start stop : Nat) : Vma := ⟨start, stop, ⟨true, true, false⟩, false, .anon⟩

def growBrk (start curEnd newEnd : Nat) : AddressSpace :=
  match s.space.vmas.get? start with
  | some v =>
      if v.stop = curEnd then s.space.insert { v with stop := newEnd }
      else s.space.insert (heap curEnd newEnd)
  | none => s.space.insert (heap curEnd newEnd)

def setBrk (brk : Nat) : World := { s with space := { s.space with brk := brk } }

def brk (newBrk : Nat) : World × Nat :=
  if newBrk = 0 || decide (newBrk < s.space.brkStart) then (s, s.space.brk)
  else if alignUp s.space.brk < alignUp newBrk then
    if !s.space.rangeFree (alignUp s.space.brk) (alignUp newBrk) ||
        decide (MMAP_TOP < alignUp newBrk) then (s, s.space.brk)
    else
      (({ s with space := s.growBrk s.space.brkStart (alignUp s.space.brk) (alignUp newBrk) }
        : World).setBrk newBrk, newBrk)
  else if alignUp newBrk < alignUp s.space.brk then
    ((s.unmapLocked (alignUp newBrk) (alignUp s.space.brk - alignUp newBrk)).setBrk newBrk,
      newBrk)
  else (s.setBrk newBrk, newBrk)

end World

/-!
## Page faults

A page gets its frame when it is first touched: a new one, one of the device, or one of the
page cache, which a private region copies on the first write. After a fork the frames of
private regions are shared, and are copied in the same way.
-/

/-- What the allocator hands out in one fault: for a page that the file has not had yet, and
for the page of the process. -/
structure Picks where
  cached : Option Nat := none
  own : Option Nat := none

namespace World

variable (s : World)

def mapPage (n : Nat) (e : Pte) : World :=
  { s with space := { s.space with ptes := Function.update s.space.ptes n (some e) } }

def copyOnWrite (n : Nat) (e : Pte) (pick : Option Nat) : World × Except Errno Unit :=
  if s.mem.count e.frame = 1 then
    (s.mapPage n { e with writable := true, cow := false }, .ok ())
  else
    match s.mem.allocFrameRef pick with
    | none => (s, .error .ENOMEM)
    | some (f, mem) =>
        (({ s with mem := (mem.fill f (mem.data e.frame)).refDec e.frame } : World).mapPage n
          { e with frame := f, writable := true, cow := false }, .ok ())

/-- Maps the page of the cache, or a copy of it for a write to a private region. -/
def mapCached (n : Nat) (v : Vma) (write : Bool) (f : Nat) (pick : Option Nat) :
    World × Except Errno Unit :=
  if v.shared then (s.mapPage n (v.pteFlags f), .ok ())
  else if write then
    match s.mem.allocFrameRef pick with
    | none => (s, .error .ENOMEM)
    | some (own, mem) =>
        (({ s with mem := (mem.fill own (mem.data f)).refDec f } : World).mapPage n
          (v.pteFlags own), .ok ())
  else (s.mapPage n { v.pteFlags f with writable := false, cow := v.prot.write }, .ok ())

/-- The first touch of a page, at its address. -/
def populateNew (v : Vma) (va : Nat) (write : Bool) (picks : Picks) : World × Except Errno Unit :=
  match v.backing with
  | .anon =>
      match s.mem.allocZeroedRef picks.own with
      | none => (s, .error .ENOMEM)
      | some (f, mem) =>
          (({ s with mem := mem } : World).mapPage (va / pageSize) (v.pteFlags f), .ok ())
  | .phys base wc =>
      -- the address of an entry has 40 bits for the frame
      (s.mapPage (va / pageSize)
        { v.pteFlags (wrap (base + (va - v.start)) / pageSize % 2 ^ 40) with
          writeThrough := true, noCache := !wc }, .ok ())
  | .file inode offset =>
      match s.mem.getPage inode (wrap (offset + (va - v.start)) / pageSize) picks.cached with
      | .error e => (s, .error e)
      | .ok (f, mem) =>
          ({ s with mem := mem } : World).mapCached (va / pageSize) v write f picks.own

def populatePage (v : Vma) (va : Nat) (write : Bool) (picks : Picks) :
    World × Except Errno Unit :=
  match s.space.ptes (va / pageSize) with
  | none => s.populateNew v va write picks
  | some e =>
      if write && !e.writable then
        if e.cow then s.copyOnWrite (va / pageSize) e picks.own else (s, .error .EACCES)
      else (s, .ok ())

/-- Resolves a fault at `addr`. -/
def fault (addr : Nat) (write exec : Bool) (picks : Picks) : World × Except Errno Unit :=
  match s.space.findVma addr with
  | none => (s, .error .EFAULT)
  | some v =>
      if write && !v.prot.write then (s, .error .EACCES)
      else if exec && !v.prot.exec then (s, .error .EACCES)
      else if !write && !exec && !v.prot.read then (s, .error .EACCES)
      else s.populatePage v (addr / pageSize * pageSize) write picks

end World

/-!
## Moving and resizing a mapping

`mremap` cuts a range, extends the region that ends with it, or maps a new range, copies the
pages and unmaps the old one. The kernel reads and writes the memory of a process through
its address space, page by page.
-/

structure RemapFlags where
  mayMove : Bool
  fixed : Bool

namespace World

variable (s : World)

/-- Makes sure that the kernel can access the page at `va`. -/
def populateRange (va : Nat) (write : Bool) (picks : Picks) : World × Except Errno Unit :=
  if USER_TOP < va + pageSize then (s, .error .EFAULT)
  else
    match s.space.findVma va with
    | none => (s, .error .EFAULT)
    | some v =>
        if write && !v.prot.write then (s, .error .EFAULT)
        else if !write && !v.prot.read then (s, .error .EFAULT)
        else if (s.space.ptes (va / pageSize)).any fun e => !write || e.writable then (s, .ok ())
        else s.populatePage v va write picks

def store (va : Nat) (page : Page) : World :=
  match s.space.ptes (va / pageSize) with
  | none => s
  | some e => { s with mem := s.mem.fill e.frame page }

def load (va : Nat) : Page :=
  ((s.space.ptes (va / pageSize)).map fun e => s.mem.data e.frame).getD .zeroed

/-- Copies a page, if the old range has it. -/
def copyPage (src dst : Nat) (picks : Picks) : World × Except Errno Unit :=
  if (s.space.ptes (src / pageSize)).isNone then (s, .ok ())
  else
    match s.populateRange src false picks with
    | (s, .error e) => (s, .error e)
    | (s, .ok _) =>
        match s.populateRange dst true picks with
        | (s', .error e) => (s', .error e)
        | (s', .ok _) => (s'.store dst (s.load src), .ok ())

def copyPages (s : World) (src dst : Nat) (picks : Nat → Picks) :
    List Nat → World × Except Errno Unit
  | [] => (s, .ok ())
  | i :: is =>
      match s.copyPage (wrap (src + i * pageSize)) (wrap (dst + i * pageSize)) (picks i) with
      | (s, .error e) => (s, .error e)
      | (s, .ok _) => copyPages s src dst picks is

/-- Unmaps the old range of a mapping that now begins at `dst`. -/
def leave (src len dst : Nat) : World × Except Errno Nat :=
  match s.munmap src len with
  | (s, .error e) => (s, .error e)
  | (s, .ok _) => (s, .ok dst)

def move (src oldLen newLen : Nat) (v : Vma) (flags : RemapFlags) (newAddr : Nat)
    (picks : Nat → Picks) : World × Except Errno Nat :=
  match s.mmap (if flags.fixed then newAddr else 0) newLen v.prot
      ⟨flags.fixed, false, v.shared⟩ v.backing with
  | (s, .error e) => (s, .error e)
  | (s, .ok dst) =>
      if v.backing = .anon then
        match s.copyPages src dst picks (List.range (oldLen / pageSize)) with
        | (s, .error e) => (s, .error e)
        | (s, .ok _) => s.leave src oldLen dst
      else s.leave src oldLen dst

/-- Nothing begins where the mapping would grow, and it ends there. -/
def growOk (v : Vma) (src oldLen newLen : Nat) : Bool :=
  (s.space.vmas.between (wrap (src + oldLen)) (wrap (src + newLen))).isEmpty &&
    v.stop == wrap (src + oldLen)

def grow (src oldLen newLen : Nat) (v : Vma) : World × Except Errno Nat :=
  match s.mmap (wrap (src + oldLen)) (newLen - oldLen) v.prot ⟨true, false, v.shared⟩
      (v.backing.forward oldLen) with
  | (s, .error e) => (s, .error e)
  | (s, .ok _) => (s, .ok src)

/-- The lengths are rounded. -/
def remap (src oldLen newLen : Nat) (flags : RemapFlags) (newAddr : Nat) (picks : Nat → Picks) :
    Option (World × Except Errno Nat) :=
  if !aligned src || newLen = 0 then some (s, .error .EINVAL)
  else if newLen = oldLen then some (s, .ok src)
  else if newLen < oldLen then
    some (s.leave (wrap (src + newLen)) (oldLen - newLen) src)
  else
    match s.space.findVma src with
    | none => some (s, .error .EFAULT)
    | some v =>
        -- a range that ends before it starts halts the kernel
        if wrap (src + newLen) < wrap (src + oldLen) then none
        else if s.growOk v src oldLen newLen && !flags.fixed then
          some (s.grow src oldLen newLen v)
        else if !flags.mayMove then some (s, .error .ENOMEM)
        else some (s.move src oldLen newLen v flags newAddr picks)

def mremap (src oldLen newLen : Nat) (flags : RemapFlags) (newAddr : Nat) (picks : Nat → Picks) :
    Option (World × Except Errno Nat) :=
  s.remap src (alignUp oldLen) (alignUp newLen) flags newAddr picks

end World

end MindOS.Kernel.Mm
