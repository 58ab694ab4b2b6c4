import MindOS.Kernel.Mm.AddressSpace
import MindOS.Noted
import MindOS.Text.Utf8

/-!
# Loading an executable

## The headers of an executable

`execve` reads the header of a file and the table of its program headers, and of the header that
names an interpreter the name. All numbers are what the file says. A file is the bytes that it
has; a read gives fewer where it ends.
-/

namespace MindOS.Kernel.Exec

open Noted

def PT_LOAD : Nat := 1

def PT_INTERP : Nat := 3

def PT_PHDR : Nat := 6

def ET_EXEC : Nat := 2

def ET_DYN : Nat := 3

structure Phdr where
  type : Nat
  flags : Nat
  offset : Nat
  vaddr : Nat
  filesz : Nat
  memsz : Nat
  align : Nat
  deriving DecidableEq

/-- The fields of the header of the file that are used. -/
structure Header where
  eType : Nat
  entry : Nat
  phoff : Nat
  phentsize : Nat
  phnum : Nat
  deriving DecidableEq

structure ElfInfo extends Header where
  phdrs : List Phdr
  interp : Option Text

/-- The error of a file that is no executable. -/
inductive NotExecutable where
  | ENOEXEC
  deriving DecidableEq

/-- `read_at` -/
def readAt (file : List UInt8) (off n : Nat) : List UInt8 := (file.drop off).take n

/-- A buffer of zeros after a read. -/
def buffer (file : List UInt8) (off n : Nat) : List UInt8 :=
  readAt file off n ++ List.replicate (n - (readAt file off n).length) 0

/-- `from_le_bytes` -/
def fromLe (bytes : List UInt8) : Nat := bytes.foldr (fun b n => b.toNat + 256 * n) 0

/-- `to_le_bytes` of a number of `n` bytes. -/
def toLe : Nat → Nat → List UInt8
  | 0, _ => []
  | n + 1, v => UInt8.ofNat v :: toLe n (v / 256)

/-- `rd16`, `rd32` and `rd64`, by the number of bytes. -/
def rd (n : Nat) (b : List UInt8) (o : Nat) : Noted Nat :=
  noting (o + n ≤ b.length) .outside (fromLe ((b.drop o).take n))

/-- `String::from_utf8` -/
def fromUtf8 (bytes : List UInt8) : Option Text :=
  if Text.bytes (Text.fromUtf8Lossy bytes) = bytes then some (Text.fromUtf8Lossy bytes) else none

def magic : List UInt8 := [0x7f, 0x45, 0x4c, 0x46]

/-- The header and the bytes of the table. -/
def readHeader (file : List UInt8) : Noted (Except NotExecutable (Header × List UInt8)) := do
  let hdr := buffer file 0 64
  if (readAt file 0 64).length < 64 ∨ hdr.take 4 ≠ magic then return .error .ENOEXEC
  if hdr.getD 4 0 ≠ 2 ∨ hdr.getD 5 0 ≠ 1 then return .error .ENOEXEC
  let eType ← rd 2 hdr 16
  let machine ← rd 2 hdr 18
  if machine ≠ 62 ∨ (eType ≠ ET_EXEC ∧ eType ≠ ET_DYN) then return .error .ENOEXEC
  let entry ← rd 8 hdr 24
  let phoff ← rd 8 hdr 32
  let phentsize ← rd 2 hdr 54
  let phnum ← rd 2 hdr 56
  if phentsize ≠ 56 ∨ phnum = 0 ∨ 512 < phnum then return .error .ENOEXEC
  let size ← mul 64 phnum 56
  reserve size
  if (readAt file phoff size).length < size then return .error .ENOEXEC
  return .ok (⟨eType, entry, phoff, phentsize, phnum⟩, buffer file phoff size)

def readPhdr (buf : List UInt8) (i : Nat) : Noted Phdr := do
  let o ← mul 64 i 56
  return { type := ← rd 4 buf o, flags := ← rd 4 buf (← add 64 o 4)
           offset := ← rd 8 buf (← add 64 o 8), vaddr := ← rd 8 buf (← add 64 o 16)
           filesz := ← rd 8 buf (← add 64 o 32), memsz := ← rd 8 buf (← add 64 o 40)
           align := ← rd 8 buf (← add 64 o 48) }

/-- The name of the interpreter, without the zeros at its end. -/
def interpName (file : List UInt8) (ph : Phdr) : Option Text :=
  fromUtf8 ((buffer file ph.offset ph.filesz).rdropWhile (· == 0))

/-- The headers from those on, and the interpreter that the last of them names. -/
def readPhdrs (file buf : List UInt8) :
    List Nat → Option Text → Noted (Except NotExecutable (List Phdr × Option Text))
  | [], interp => pure (.ok ([], interp))
  | i :: rest, interp => do
      let ph ← readPhdr buf i
      if ph.type = PT_INTERP then
        reserve ph.filesz
        match interpName file ph with
        | none => return .error .ENOEXEC
        | some name =>
            return (← readPhdrs file buf rest (some name)).map fun got => (ph :: got.1, got.2)
      else
        return (← readPhdrs file buf rest interp).map fun got => (ph :: got.1, got.2)

/-- A `Phdr` takes so many bytes. -/
def phdrSize : Nat := 48

def parseElf (file : List UInt8) : Noted (Except NotExecutable ElfInfo) := do
  match ← readHeader file with
  | .error e => return .error e
  | .ok (h, buf) =>
      reserve (h.phnum * phdrSize)
      return (← readPhdrs file buf (List.range h.phnum) none).map fun got =>
        { h with phdrs := got.1, interp := got.2 }

/-! ### Sizes of what is read -/

theorem length_buffer (file : List UInt8) (off n : Nat) : (buffer file off n).length = n := by
  have hle : (readAt file off n).length ≤ n := by
    rw [readAt, List.length_take]
    exact Nat.min_le_left _ _
  rw [buffer, List.length_append, List.length_replicate]
  omega

theorem fromLe_lt (bytes : List UInt8) : fromLe bytes < 256 ^ bytes.length := by
  induction bytes with
  | nil => simp [fromLe]
  | cons b bytes ih =>
      have hb := b.toNat_lt
      rw [List.length_cons, pow_succ]
      change b.toNat + 256 * fromLe bytes < _
      omega

theorem rd_lt {n : Nat} (b : List UInt8) (o : Nat) : (rd n b o).value < 256 ^ n := by
  refine (fromLe_lt _).trans_le (Nat.pow_le_pow_right (by decide) ?_)
  rw [List.length_take]
  exact Nat.min_le_left _ _

@[simp] theorem within_rd {limit n o : Nat} {b : List UInt8} :
    (rd n b o).Within limit ↔ o + n ≤ b.length := within_noting id

/-- The numbers of a header fit in 64 bits. -/
structure Phdr.Fits (ph : Phdr) : Prop where
  offset : ph.offset < 2 ^ 64
  vaddr : ph.vaddr < 2 ^ 64
  filesz : ph.filesz < 2 ^ 64
  memsz : ph.memsz < 2 ^ 64

theorem readPhdr_fits (buf : List UInt8) (i : Nat) : (readPhdr buf i).value.Fits :=
  ⟨rd_lt buf _, rd_lt buf _, rd_lt buf _, rd_lt buf _⟩

theorem readPhdr_within {limit i n : Nat} {buf : List UInt8} (hbuf : buf.length = n * 56)
    (hn : n ≤ 512) (hi : i < n) : (readPhdr buf i).Within limit := by
  have hmul : i * 56 < 2 ^ 64 := by omega
  have hadd : ∀ k < 56, i * 56 + k < 2 ^ 64 := fun k hk => by omega
  simp only [readPhdr, within_bind, within_mul, within_rd, within_add, within_pure,
    value_mul hmul, value_add (hadd 4 (by decide)), value_add (hadd 8 (by decide)),
    value_add (hadd 16 (by decide)), value_add (hadd 32 (by decide)),
    value_add (hadd 40 (by decide)), value_add (hadd 48 (by decide)), hbuf, and_true]
  omega

/-! ### What the reading does -/

/-- The header that is read, and the bytes of its table, are as long as they say. -/
structure Header.Read (h : Header) (buf : List UInt8) : Prop where
  length : buf.length = h.phnum * 56
  phnum : h.phnum ≤ 512
  entry : h.entry < 2 ^ 64
  phoff : h.phoff < 2 ^ 64

theorem readHeader_ok {file : List UInt8} {h : Header} {buf : List UInt8}
    (hok : (readHeader file).value = .ok (h, buf)) : h.Read buf := by
  unfold readHeader at hok
  dsimp only at hok
  split at hok
  · cases hok
  split at hok
  · cases hok
  simp only [value_bind] at hok
  split at hok
  · cases hok
  simp only [value_bind] at hok
  split at hok
  · cases hok
  next hnum =>
  simp only [value_bind] at hok
  split at hok
  · cases hok
  obtain ⟨rfl, rfl⟩ := Prod.mk.inj (Except.ok.inj hok)
  push Not at hnum
  refine ⟨?_, hnum.2.2, rd_lt _ _, rd_lt _ _⟩
  rw [length_buffer, value_mul]
  omega

theorem readHeader_within {limit : Nat} (hlimit : 28672 ≤ limit) (file : List UInt8) :
    (readHeader file).Within limit := by
  have hlen : (buffer file 0 64).length = 64 := length_buffer file 0 64
  unfold readHeader
  simp only [within_bind, within_pure, within_ite, within_rd, hlen, within_reserve, within_mul,
    implies_true, true_and, and_true, Nat.reduceAdd, Nat.reduceLeDiff]
  rintro - - - hnum
  push Not at hnum
  have hsize : (rd 2 (buffer file 0 64) 56).value * 56 < 2 ^ 64 := by omega
  refine ⟨hsize, ?_⟩
  rw [value_mul hsize]
  omega

/-- Every header of an interpreter, up to the first whose name is none, claims a name that is
not longer than that. -/
def InterpsFit (limit : Nat) (file : List UInt8) : List Phdr → Prop
  | [] => True
  | ph :: rest =>
      if ph.type = PT_INTERP then
        ph.filesz ≤ limit ∧ ((interpName file ph).isSome = true → InterpsFit limit file rest)
      else InterpsFit limit file rest

/-- The headers in the bytes of a table. -/
def table (h : Header) (buf : List UInt8) : List Phdr :=
  (List.range h.phnum).map fun i => (readPhdr buf i).value

theorem readPhdrs_within {limit n : Nat} {file buf : List UInt8} (hbuf : buf.length = n * 56)
    (hn : n ≤ 512) {is : List Nat} (his : ∀ i ∈ is, i < n) (interp : Option Text) :
    (readPhdrs file buf is interp).Within limit ↔
      InterpsFit limit file (is.map fun i => (readPhdr buf i).value) := by
  induction is generalizing interp with
  | nil => simp [readPhdrs, InterpsFit]
  | cons i is ih =>
      have hone := @readPhdr_within limit _ _ _ hbuf hn (his i List.mem_cons_self)
      have hrest := ih fun j hj => his j (List.mem_cons_of_mem i hj)
      rw [readPhdrs, within_bind, List.map_cons, InterpsFit]
      split
      · rw [within_bind, within_reserve]
        cases hname : interpName file (readPhdr buf i).value with
        | none => simp [hone]
        | some name =>
            simp only [within_bind, within_pure, and_true, hone, hrest, true_and,
              Option.isSome_some,
              true_imp_iff]
      · simp only [within_bind, within_pure, and_true, hone, hrest, true_and]

/-- What parsing reserves is within the limit exactly if each interpreter name that it comes to
asks for no more. -/
theorem parseElf_within {limit : Nat} (hlimit : 28672 ≤ limit) (file : List UInt8) :
    (parseElf file).Within limit ↔ ∀ h buf, (readHeader file).value = .ok (h, buf) →
      InterpsFit limit file (table h buf) := by
  rw [parseElf, within_bind, iff_true_intro (readHeader_within hlimit file), true_and]
  cases hok : (readHeader file).value with
  | error e => simp
  | ok got =>
      obtain ⟨h, buf⟩ := got
      have hread := readHeader_ok hok
      have hnum := hread.phnum
      have hsize : h.phnum * phdrSize ≤ limit := by
        rw [phdrSize]
        omega
      have htable := @readPhdrs_within limit _ file _ hread.length hread.phnum
        (List.range h.phnum) (fun i hi => List.mem_range.mp hi) none
      simp only [within_bind, within_reserve, within_pure, hsize, htable, true_and, and_true]
      constructor
      · intro hfit h' buf' heq
        obtain ⟨rfl, rfl⟩ := Prod.mk.inj (Except.ok.inj heq)
        exact hfit
      · intro hfit
        exact hfit h buf rfl

/-- A file with one program header. -/
def oneHeader (ph : Phdr) : List UInt8 :=
  magic ++ [2, 1] ++ List.replicate 10 0 ++ toLe 2 ET_EXEC ++ toLe 2 62 ++ toLe 4 1 ++
    toLe 8 0x10000 ++ toLe 8 64 ++ toLe 8 0 ++ toLe 4 0 ++ toLe 2 64 ++ toLe 2 56 ++ toLe 2 1 ++
    List.replicate 6 0 ++ toLe 4 ph.type ++ toLe 4 ph.flags ++ toLe 8 ph.offset ++
    toLe 8 ph.vaddr ++ toLe 8 0 ++ toLe 8 ph.filesz ++ toLe 8 ph.memsz ++ toLe 8 ph.align

theorem parseElf_reserves :
    ¬(parseElf (oneHeader ⟨PT_INTERP, 4, 0, 0, 2 ^ 40, 0, 1⟩)).Within 28672 := fun hwithin => by
    have hfit : 2 ^ 40 ≤ 28672 ∧ _ := (parseElf_within le_rfl _).mp hwithin _ _ rfl
    exact absurd hfit.1 (by decide)

theorem readPhdrs_fits {file buf : List UInt8} {is : List Nat} {interp : Option Text}
    {got : List Phdr × Option Text} (hok : (readPhdrs file buf is interp).value = .ok got) :
    ∀ ph ∈ got.1, ph.Fits := by
  induction is generalizing interp got with
  | nil =>
      obtain rfl := Except.ok.inj hok
      simp
  | cons i is ih =>
      have hcons : ∀ interp, ((readPhdrs file buf is interp).value.map fun got =>
          ((readPhdr buf i).value :: got.1, got.2)) = .ok got → ∀ ph ∈ got.1, ph.Fits := by
        intro interp hmap
        cases hrest : (readPhdrs file buf is interp).value with
        | error e =>
            rw [hrest] at hmap
            cases hmap
        | ok rest =>
            rw [hrest] at hmap
            obtain rfl := Except.ok.inj hmap
            intro ph hph
            obtain rfl | hph := List.mem_cons.mp hph
            · exact readPhdr_fits buf i
            · exact ih hrest ph hph
      rw [readPhdrs, value_bind] at hok
      split at hok
      · simp only [value_bind] at hok
        split at hok
        · cases hok
        · exact hcons _ hok
      · exact hcons _ hok

theorem parseElf_phdrs {file : List UInt8} {elf : ElfInfo} (hok : (parseElf file).value = .ok elf) :
    elf.entry < 2 ^ 64 ∧ elf.phoff < 2 ^ 64 ∧ ∀ ph ∈ elf.phdrs, ph.Fits := by
  rw [parseElf, value_bind] at hok
  cases hheader : (readHeader file).value with
  | error e =>
      rw [hheader] at hok
      cases hok
  | ok got =>
      obtain ⟨h, buf⟩ := got
      have hread := readHeader_ok hheader
      rw [hheader] at hok
      simp only [value_bind, value_pure] at hok
      cases hphdrs : (readPhdrs file buf (List.range h.phnum) none).value with
      | error e =>
          rw [hphdrs] at hok
          cases hok
      | ok got =>
          rw [hphdrs] at hok
          obtain rfl := Except.ok.inj hok
          exact ⟨hread.entry, hread.phoff, readPhdrs_fits hphdrs⟩

/-!
## Loading an executable

The loader maps the pages of the file that a segment lies in, then anonymous pages up to the end
of the segment in memory, and clears what follows the bytes of the segment in the last page of
the file. The sums and roundings are those of 64 bits. What it did to the address space stays
when it fails.
-/

open Noted Mm
open Tmpfs (pageSize wrap)

inductive LoadErrno where
  | ENOEXEC
  | mm (e : Mm.Errno)

structure Loaded where
  base : Nat
  entry : Nat
  phdrAddr : Nat
  brk : Nat

/-- The variables of the loop, and of each file how long the list of its pages is. -/
structure Loading where
  world : World
  listed : Nat → Nat
  brk : Nat := 0
  phdrAddr : Nat := 0
  firstLoad : Option Nat := none

/-- From the bits `PF_R`, `PF_W` and `PF_X`. -/
def Phdr.prot (ph : Phdr) : Prot := ⟨ph.flags.testBit 2, ph.flags.testBit 1, ph.flags.testBit 0⟩

/-- `(n + PAGE_SIZE - 1) & !(PAGE_SIZE - 1)` -/
def pageUp (n : Nat) : Noted Nat := do
  let n ← sub 64 (← add 64 n pageSize) 1
  return n / pageSize * pageSize

/-- Where the parts of a segment begin and end. -/
structure Extent where
  mapStart : Nat
  fileOff : Nat
  fileEnd : Nat
  memEnd : Nat
  fileMapEnd : Nat
  memMapEnd : Nat

/-- None if the offset in the file does not fit the address. -/
def extent (base : Nat) (ph : Phdr) : Noted (Option Extent) := do
  let vaddr ← add 64 base ph.vaddr
  let pageOff := vaddr % pageSize
  let mapStart ← sub 64 vaddr pageOff
  let fileOff ← sub 64 ph.offset pageOff
  if ph.offset % pageSize ≠ pageOff then return none
  let fileEnd ← add 64 vaddr ph.filesz
  let memEnd ← add 64 vaddr ph.memsz
  let fileMapEnd ← pageUp fileEnd
  let memMapEnd ← pageUp memEnd
  return some { mapStart, fileOff, fileEnd, memEnd, fileMapEnd, memMapEnd }

/-- `MAP_PRIVATE | MAP_FIXED` -/
def fixed : MapFlags := ⟨true, false, false⟩

def mapFile (i : Nat) (ph : Phdr) (x : Extent) (w : World) :
    Noted (World × Except Mm.Errno Nat) := do
  if 0 < ph.filesz then
    let len ← sub 64 x.fileMapEnd x.mapStart
    return w.mmap x.mapStart len ph.prot fixed (.file i x.fileOff)
  else return (w, .ok 0)

def mapBss (ph : Phdr) (x : Extent) (w : World) : Noted (World × Except Mm.Errno Nat) := do
  if x.fileMapEnd < x.memMapEnd then
    let len ← sub 64 x.memMapEnd x.fileMapEnd
    return w.mmap x.fileMapEnd len ph.prot fixed .anon
  else return (w, .ok 0)

def mapSegment (i : Nat) (ph : Phdr) (x : Extent) (w : World) :
    Noted (World × Except Mm.Errno Nat) := do
  match ← mapFile i ph x w with
  | (w, .error e) => return (w, .error e)
  | (w, .ok _) => mapBss ph x w

/-- The page of a file that the first write to the page at `va` asks for. -/
def fileIndex (w : World) (va : Nat) : Option (Nat × Nat) :=
  if USER_TOP < va + pageSize then none
  else
    match w.space.findVma va with
    | none => none
    | some v =>
        if v.prot.write && (w.space.ptes (va / pageSize)).isNone then
          match v.backing with
          | .file i offset => some (i, wrap (offset + (va - v.start)) / pageSize)
          | _ => none
        else none

/-- A file in tmpfs makes the list of its pages long enough for the page, of 16 bytes each. -/
def extendList (st : Loading) (va : Nat) : Noted (Nat → Nat) :=
  match fileIndex st.world va with
  | none => pure st.listed
  | some (i, index) =>
      match st.world.mem.inodes i with
      | .tmpfs _ =>
          if st.listed i ≤ index then do
            reserve (16 * (index + 1))
            return Function.update st.listed i (index + 1)
          else pure st.listed
      | _ => pure st.listed

/-- `copy_to_user` of zeros, all in one page. -/
def copyZeros (w : World) (addr len : Nat) (picks : Picks) : World × Except Mm.Errno Unit :=
  let va := addr / pageSize * pageSize
  match w.populateRange va true picks with
  | (w, .error e) => (w, .error e)
  | (w, .ok _) =>
      (w.store va fun o =>
        if addr % pageSize ≤ o ∧ o < addr % pageSize + len then 0 else w.load va o, .ok ())

/-- The last page of the file is cleared only where it can be written. -/
def Phdr.clears (ph : Phdr) (x : Extent) : Bool :=
  decide (ph.filesz < ph.memsz) && x.fileEnd % pageSize != 0 && ph.prot.write

def clearTail (ph : Phdr) (x : Extent) (picks : Picks) (st : Loading) :
    Noted (Loading × Except Mm.Errno Unit) := do
  if ph.clears x then
    let zeroLen ← sub 64 x.fileMapEnd x.fileEnd
    reserve zeroLen
    let listed ← extendList st (x.fileEnd / pageSize * pageSize)
    let (world, result) := copyZeros st.world x.fileEnd zeroLen picks
    return ({ st with world, listed }, result)
  else return (st, .ok ())

def loadExtent (i : Nat) (picks : Picks) (ph : Phdr) (x : Extent) (st : Loading) :
    Noted (Loading × Except LoadErrno Unit) := do
  match ← mapSegment i ph x st.world with
  | (world, .error e) => return ({ st with world }, .error (.mm e))
  | (world, .ok _) =>
      match ← clearTail ph x picks { st with world } with
      | (st, .error e) => return (st, .error (.mm e))
      | (st, .ok _) => return ({ st with brk := max st.brk x.memEnd }, .ok ())

/-- A header of type `PT_LOAD` that takes memory. -/
def loadSegment (i base : Nat) (picks : Picks) (ph : Phdr) (st : Loading) :
    Noted (Loading × Except LoadErrno Unit) := do
  match ← extent base ph with
  | none => return (st, .error .ENOEXEC)
  | some x => loadExtent i picks ph x st

def Phdr.loads (ph : Phdr) : Bool := ph.type == PT_LOAD && ph.memsz != 0

def loadPhdr (i base : Nat) (picks : Picks) (ph : Phdr) (st : Loading) :
    Noted (Loading × Except LoadErrno Unit) := do
  if ph.type = PT_PHDR then
    let phdrAddr ← add 64 base ph.vaddr
    return ({ st with phdrAddr }, .ok ())
  else if ph.loads then
    loadSegment i base picks ph { st with firstLoad := st.firstLoad.or (some ph.vaddr) }
  else return (st, .ok ())

/-- The loop over the headers; what the allocator hands out in each is given. -/
def loadPhdrs (i base : Nat) (picks : Nat → Picks) :
    List Phdr → Loading → Noted (Loading × Except LoadErrno Unit)
  | [], st => pure (st, .ok ())
  | ph :: phs, st => do
      match ← loadPhdr i base (picks 0) ph st with
      | (st, .error e) => return (st, .error e)
      | (st, .ok _) => loadPhdrs i base (fun n => picks (n + 1)) phs st

/-- The offset of the first header of type `PT_LOAD`. -/
def firstOffset (phs : List Phdr) : Nat :=
  ((phs.find? fun ph => ph.type == PT_LOAD).map Phdr.offset).getD 0

/-- Where the headers are in memory, if no header says so. -/
def phdrAddress (base : Nat) (elf : ElfInfo) (st : Loading) : Noted Nat :=
  if st.phdrAddr = 0 then
    match st.firstLoad with
    | none => pure 0
    | some first => do add 64 (← add 64 base (← sub 64 elf.phoff (firstOffset elf.phdrs))) first
  else pure st.phdrAddr

def loadElf (i base : Nat) (picks : Nat → Picks) (elf : ElfInfo) (world : World)
    (listed : Nat → Nat) : Noted (World × Except LoadErrno Loaded) := do
  match ← loadPhdrs i base picks elf.phdrs { world, listed } with
  | (st, .error e) => return (st.world, .error e)
  | (st, .ok _) =>
      let phdrAddr ← phdrAddress base elf st
      let entry ← add 64 base elf.entry
      return (st.world, .ok { base, entry, phdrAddr, brk := st.brk })

end MindOS.Kernel.Exec
