import Mathlib.Algebra.Group.Nat.Defs
import MindOS.Vectors
import MindOS.Transition

/-!
# The data of a file in tmpfs

A file is a list of pages, which are had when they are written to, and a size. A page that
was never had reads as zeros, and so must what lies between the size and the end of the last
page. A write takes the pages one after the other, and stops at the first one for which there
is no memory. Offsets are 64 bits wide and wrap; a list of pages too long for the heap halts
the kernel, which is not a step.
-/

namespace MindOS.Kernel.Tmpfs

open Transition

def pageSize : Nat := 4096

def wrap (n : Nat) : Nat := n % 2 ^ 64

/-- A page of memory, of which the places below `pageSize` count. -/
abbrev Page := Nat → UInt8

namespace Page

def zeroed : Page := fun _ => 0

/-- Puts `chunk` at `po`. -/
def copy (page : Page) (po : Nat) (chunk : List UInt8) : Page :=
  fun i => if po ≤ i ∧ i < po + chunk.length then chunk.getD (i - po) 0 else page i

def zeroFrom (page : Page) (off : Nat) : Page := fun i => if off ≤ i then 0 else page i

end Page

structure FileData where
  pages : List (Option Page) := []
  size : Nat := 0

inductive Stop where
  | noSpace
  | halt

/-- What a write did: how many bytes it has stored, and why it stopped before the end. -/
structure Written where
  file : FileData
  done : Nat
  stop : Option Stop

/-- After `n` bytes before it. -/
def Written.after (w : Written) (n : Nat) : Written := { w with done := n + w.done }

namespace FileData

/-- The page, if it was had. -/
def page (d : FileData) (index : Nat) : Option Page := (d.pages[index]?).join

/-- Makes the list of pages long enough. -/
def grow (d : FileData) (index : Nat) : FileData :=
  { d with pages := d.pages ++ List.replicate (index + 1 - d.pages.length) none }

def setPage (d : FileData) (index : Nat) (page : Page) : FileData :=
  { d with pages := d.pages.set index (some page) }

/-- The page to write to, had now if it was not, and the memory that is left. -/
def pageFor (heap : Nat) (d : FileData) (index free : Nat) :
    Except (FileData × Stop) (FileData × Page × Nat) :=
  if d.pages.length ≤ index ∧ heap ≤ index then .error (d, .halt)
  else
    match d.page index, free with
    | some page, _ => .ok (d, page, free)
    | none, free + 1 => .ok (d.grow index, .zeroed, free)
    | none, 0 => .error (d.grow index, .noSpace)

/-- What of `buf` goes to the page of `pos`. -/
def chunk (pos : Nat) (buf : List UInt8) : List UInt8 := buf.take (pageSize - wrap pos % pageSize)

/-- The loop of `write_at` from `pos` on, with memory for `free` pages and a heap that holds
lists of `heap` pages. -/
def writeLoop (heap : Nat) : Nat → FileData → Nat → List UInt8 → Nat → Written
  | 0, d, _, _, _ => ⟨d, 0, none⟩
  | fuel + 1, d, pos, buf, free =>
      if buf = [] then ⟨d, 0, none⟩
      else
        match d.pageFor heap (wrap pos / pageSize) free with
        | .error (d, stop) => ⟨d, 0, some stop⟩
        | .ok (d, page, free) =>
            (writeLoop heap fuel
              (d.setPage (wrap pos / pageSize) (page.copy (wrap pos % pageSize) (chunk pos buf)))
              (pos + (chunk pos buf).length) (buf.drop (chunk pos buf).length) free).after
              (chunk pos buf).length

def writeAt (heap : Nat) (d : FileData) (off : UInt64) (buf : List UInt8) (free : Nat) :
    FileData × Except Stop Nat :=
  match writeLoop heap buf.length d off.toNat buf free with
  | ⟨file, _, some stop⟩ => (file, .error stop)
  | ⟨file, _, none⟩ =>
      ({ file with size := max file.size (wrap (off.toNat + buf.length)) }, .ok buf.length)

/-- The loop of `read_at`: `n` bytes from `pos` on, page by page. -/
def readLoop (d : FileData) : Nat → Nat → Nat → List UInt8
  | 0, _, _ => []
  | fuel + 1, pos, n =>
      if n = 0 then []
      else
        (List.range (min (pageSize - pos % pageSize) n)).map
            (fun i => (d.page (pos / pageSize)).elim 0 fun page => page (pos % pageSize + i)) ++
          readLoop d fuel (pos + min (pageSize - pos % pageSize) n)
            (n - min (pageSize - pos % pageSize) n)

def readAt (d : FileData) (off : UInt64) (len : Nat) : List UInt8 :=
  if d.size ≤ off.toNat then []
  else d.readLoop len off.toNat (min (d.size - off.toNat) len)

/-- The tail of the last page is made zeros when the file gets shorter. -/
def zeroTail (d : FileData) (size : Nat) : FileData :=
  if size < d.size ∧ size % pageSize ≠ 0 then
    { d with
      pages := d.pages.modify (size / pageSize) (Option.map fun page =>
        page.zeroFrom (size % pageSize)) }
  else d

def truncate (d : FileData) (size : UInt64) : FileData :=
  let shorter := { d with pages := d.pages.take (wrap (size.toNat + 4095) / pageSize) }
  { shorter.zeroTail size.toNat with size := size.toNat }

/-- The pages that `n` bytes from `pos` on are on. -/
def pagesOf (pos n : Nat) : List Nat :=
  List.range' (pos / pageSize) (if n = 0 then 0 else (pos + n - 1) / pageSize - pos / pageSize + 1)

/-- Those of them that were not had yet. -/
def missing (d : FileData) (pos n : Nat) : List Nat :=
  (pagesOf pos n).filter fun i => (d.page i).isNone

/-- The byte at a place, whatever the size. -/
def byte (d : FileData) (p : Nat) : UInt8 :=
  (d.page (p / pageSize)).elim 0 fun page => page (p % pageSize)

end FileData

inductive Op where
  /-- There is memory for `free` pages. -/
  | write (off : UInt64) (buf : List UInt8) (free : Nat)
  | truncate (size : UInt64)
  | read (off : UInt64) (len : Nat)

/-- What an operation returns. -/
inductive Ret where
  | wrote (result : Except Stop Nat)
  | truncated
  | bytes (bs : List UInt8)

/-- A file beside the array that it stands for. -/
structure Beside where
  file : FileData := {}
  array : List UInt8 := []
  ret : Ret := .truncated

namespace Beside

def step (heap : Nat) (s : Beside) : Op → Option Beside
  | .write off buf free =>
      match s.file.writeAt heap off buf free with
      | (_, .error .halt) => none
      | (file, .error .noSpace) => some ⟨file, s.array, .wrote (.error .noSpace)⟩
      | (file, .ok n) => some ⟨file, Growable.write 0 off.toNat buf s.array, .wrote (.ok n)⟩
  | .truncate size =>
      some ⟨s.file.truncate size, Growable.truncate 0 size.toNat s.array, .truncated⟩
  | .read off len => some ⟨s.file, s.array, .bytes (s.file.readAt off len)⟩

/-- The file shows what the array holds, and a read has returned that. -/
structure Good (a : Op) (t : Beside) : Prop where
  size : t.file.size = t.array.length
  visible : ∀ p, p < t.file.size → t.file.byte p = t.array.getD p 0
  read : ∀ off len, a = .read off len → t.ret = .bytes (Growable.read off.toNat len t.array)

end Beside

namespace FileData

variable {heap : Nat} {d : FileData} {index free pos p : Nat} {page : Page} {buf : List UInt8}

theorem wrap_of_lt (h : pos < 2 ^ 64) : wrap pos = pos := Nat.mod_eq_of_lt h

theorem page_grow (d : FileData) (index i : Nat) : (d.grow index).page i = d.page i := by
  rw [FileData.page, FileData.page, grow]
  by_cases hi : i < d.pages.length
  · rw [List.getElem?_append_left hi]
  · rw [List.getElem?_append_right (by omega),
      List.getElem?_eq_none (by omega : d.pages.length ≤ i), List.getElem?_replicate]
    split
    · rfl
    · rfl

theorem length_grow (d : FileData) (index : Nat) : index < (d.grow index).pages.length := by
  rw [grow, List.length_append, List.length_replicate]
  omega

theorem page_setPage (h : index < d.pages.length) (page : Page) (i : Nat) :
    (d.setPage index page).page i = if i = index then some page else d.page i := by
  rw [FileData.page, setPage, List.getElem?_set]
  split
  · next heq => rw [if_pos heq.symm, Option.join_some]
  · next hne => rw [if_neg (Ne.symm hne), FileData.page]

theorem lt_of_page (h : d.page index = some page) : index < d.pages.length := by
  by_contra hge
  rw [FileData.page, List.getElem?_eq_none (Nat.le_of_not_lt hge)] at h
  cases h

theorem pageFor_ok {d' : FileData} {free' : Nat}
    (h : d.pageFor heap index free = .ok (d', page, free')) :
    d'.size = d.size ∧ (∀ i, d'.page i = d.page i) ∧ index < d'.pages.length ∧
      (d.page index = some page ∧ free' = free ∨
        d.page index = none ∧ page = .zeroed ∧ free = free' + 1) := by
  unfold pageFor at h
  split at h
  · cases h
  · split at h
    · next hpage =>
        cases h
        exact ⟨rfl, fun _ => rfl, lt_of_page hpage, .inl ⟨hpage, rfl⟩⟩
    · next hpage =>
        cases h
        exact ⟨rfl, page_grow d index, length_grow d index, .inr ⟨hpage, rfl, rfl⟩⟩
    · cases h

theorem pageFor_error {d' : FileData} {stop : Stop}
    (h : d.pageFor heap index free = .error (d', stop)) :
    stop = .halt ∨ d'.size = d.size ∧ (∀ i, d'.page i = d.page i) ∧ d.page index = none ∧
      free = 0 := by
  unfold pageFor at h
  split at h
  · cases h
    exact .inl rfl
  · split at h
    · cases h
    · cases h
    · next hpage =>
        cases h
        exact .inr ⟨rfl, page_grow d index, hpage, rfl⟩

theorem byte_congr {d' : FileData} (h : ∀ i, d'.page i = d.page i) (p : Nat) :
    d'.byte p = d.byte p := by
  rw [byte, h, byte]

theorem byte_setPage (h : index < d.pages.length) (page : Page) (p : Nat) :
    (d.setPage index page).byte p =
      if p / pageSize = index then page (p % pageSize) else d.byte p := by
  rw [byte, page_setPage h]
  split
  · rfl
  · rfl

theorem byte_of_pageFor {d' : FileData} {free' : Nat}
    (h : d.pageFor heap index free = .ok (d', page, free')) (hp : p / pageSize = index) :
    page (p % pageSize) = d.byte p := by
  obtain ⟨-, -, -, ⟨hpage, -⟩ | ⟨hpage, rfl, -⟩⟩ := pageFor_ok h
  · rw [byte, hp, hpage, Option.elim_some]
  · rw [byte, hp, hpage, Option.elim_none, Page.zeroed]

theorem length_chunk (buf : List UInt8) (hpos : pos < 2 ^ 64) :
    (chunk pos buf).length = min (pageSize - pos % pageSize) buf.length := by
  rw [chunk, wrap_of_lt hpos, List.length_take]

theorem byte_store {d' : FileData} {free' : Nat} (hpos : pos < 2 ^ 64)
    (h : d.pageFor heap (wrap pos / pageSize) free = .ok (d', page, free')) (p : Nat) :
    (d'.setPage (wrap pos / pageSize) (page.copy (wrap pos % pageSize) (chunk pos buf))).byte p =
      if pos ≤ p ∧ p < pos + (chunk pos buf).length then buf.getD (p - pos) 0 else d.byte p := by
  obtain ⟨-, hpages, hlt, -⟩ := pageFor_ok h
  have hlen := length_chunk buf hpos
  rw [byte_setPage hlt, byte_congr hpages, wrap_of_lt hpos, Page.copy]
  have hdiv := Nat.div_add_mod p pageSize
  have hdiv' := Nat.div_add_mod pos pageSize
  by_cases hindex : p / pageSize = pos / pageSize
  · rw [if_pos hindex]
    rw [hindex] at hdiv
    have hsub : p % pageSize - pos % pageSize = p - pos := by omega
    by_cases hin : pos ≤ p ∧ p < pos + (chunk pos buf).length
    · rw [if_pos hin, if_pos (by omega), hsub, chunk, Growable.getD_take_of_lt]
      rw [chunk, List.length_take] at hin
      omega
    · rw [if_neg hin, if_neg (by omega)]
      exact byte_of_pageFor h (by rw [wrap_of_lt hpos, hindex])
  · rw [if_neg hindex, if_neg]
    intro hin
    apply hindex
    have hmod := Nat.mod_lt pos (by decide : 0 < pageSize)
    refine Nat.div_eq_of_lt_le ?_ ?_
    · rw [Nat.mul_comm]
      omega
    · rw [Nat.add_mul, Nat.mul_comm, Nat.one_mul]
      omega

theorem pagesOf_pos {n : Nat} (hn : 0 < n) :
    pagesOf pos n = pos / pageSize ::
      pagesOf (pos + min (pageSize - pos % pageSize) n)
        (n - min (pageSize - pos % pageSize) n) := by
  have hmod := Nat.mod_lt pos (by decide : 0 < pageSize)
  have hdiv := Nat.div_add_mod pos pageSize
  rw [pagesOf, if_neg (Nat.ne_of_gt hn), List.range'_succ, pagesOf]
  by_cases hrest : n - min (pageSize - pos % pageSize) n = 0
  · have hend : (pos + n - 1) / pageSize = pos / pageSize := by
      refine Nat.div_eq_of_lt_le ?_ ?_
      · rw [Nat.mul_comm]
        omega
      · rw [Nat.add_mul, Nat.mul_comm, Nat.one_mul]
        omega
    rw [if_pos hrest, hend, Nat.sub_self]
    rfl
  · have hmin : min (pageSize - pos % pageSize) n = pageSize - pos % pageSize := by omega
    have hnext : (pos + (pageSize - pos % pageSize)) / pageSize = pos / pageSize + 1 := by
      have heq : pos + (pageSize - pos % pageSize) = pageSize * (pos / pageSize + 1) := by
        rw [Nat.mul_add, Nat.mul_one]
        omega
      rw [heq, Nat.mul_div_cancel_left _ (by decide)]
    have hle : pos / pageSize + 1 ≤ (pos + n - 1) / pageSize := by
      rw [← hnext]
      exact Nat.div_le_div_right (by omega)
    rw [if_neg hrest, hmin, hnext]
    have hsame : pos + (pageSize - pos % pageSize) + (n - (pageSize - pos % pageSize)) - 1 =
        pos + n - 1 := by omega
    rw [hsame]
    congr 2
    omega

theorem le_of_mem_pagesOf {n i : Nat} (h : i ∈ pagesOf pos n) : pos / pageSize ≤ i :=
  (List.mem_range'_1.mp h).1

theorem lt_of_mem_pagesOf_rest {n i : Nat}
    (h : i ∈ pagesOf (pos + min (pageSize - pos % pageSize) n)
      (n - min (pageSize - pos % pageSize) n)) : pos / pageSize < i := by
  by_cases hrest : n - min (pageSize - pos % pageSize) n = 0
  · rw [hrest] at h
    exact absurd h List.not_mem_nil
  · have hmin : min (pageSize - pos % pageSize) n = pageSize - pos % pageSize := by omega
    rw [hmin] at h
    have hmod := Nat.mod_lt pos (by decide : 0 < pageSize)
    have hdiv := Nat.div_add_mod pos pageSize
    have heq : pos + (pageSize - pos % pageSize) = pageSize * (pos / pageSize + 1) := by
      rw [Nat.mul_add, Nat.mul_one]
      omega
    have hle := le_of_mem_pagesOf h
    rwa [heq, Nat.mul_div_cancel_left _ (by decide)] at hle

/-- What a run of the loop did that did not halt. -/
structure Stored (d : FileData) (pos : Nat) (buf : List UInt8) (free : Nat) (r : Written) :
    Prop where
  size : r.file.size = d.size
  byte : ∀ p, r.file.byte p =
    if pos ≤ p ∧ p < pos + r.done then buf.getD (p - pos) 0 else d.byte p
  all : r.stop = none → r.done = buf.length
  stopped : r.stop = some .noSpace →
    ∃ m, (d.missing pos buf.length)[free]? = some m ∧ r.done = m * pageSize - pos

theorem Stored.nothing {d' : FileData} {stop : Option Stop} (hsize : d'.size = d.size)
    (hpages : ∀ i, d'.page i = d.page i) (hall : stop = none → buf = [])
    (hstopped : stop = some .noSpace →
      ∃ m, (d.missing pos buf.length)[free]? = some m ∧ m * pageSize ≤ pos) :
    Stored d pos buf free ⟨d', 0, stop⟩ where
  size := hsize
  byte p := by
    rw [if_neg (by rintro ⟨h, h'⟩; exact Nat.not_lt_of_le h h')]
    exact byte_congr hpages p
  all h := by rw [hall h, List.length_nil]
  stopped h := by
    obtain ⟨m, hm, hle⟩ := hstopped h
    exact ⟨m, hm, (Nat.sub_eq_zero_of_le hle).symm⟩

theorem missing_pos (hbuf : buf ≠ []) :
    d.missing pos buf.length =
      (if (d.page (pos / pageSize)).isNone = true then [pos / pageSize] else []) ++
        d.missing (pos + min (pageSize - pos % pageSize) buf.length)
          (buf.length - min (pageSize - pos % pageSize) buf.length) := by
  rw [missing, pagesOf_pos (List.length_pos_iff.mpr hbuf), List.filter_cons, missing]
  split
  · rfl
  · rfl

theorem Stored.after {d' : FileData} {free' : Nat} {r : Written} (hpos : pos < 2 ^ 64)
    (hbuf : buf ≠ []) (hpage : d.pageFor heap (wrap pos / pageSize) free = .ok (d', page, free'))
    (h : Stored
      (d'.setPage (wrap pos / pageSize) (page.copy (wrap pos % pageSize) (chunk pos buf)))
      (pos + (chunk pos buf).length) (buf.drop (chunk pos buf).length) free' r) :
    Stored d pos buf free (r.after (chunk pos buf).length) := by
  obtain ⟨hsize, hpages, hindex, hfree⟩ := pageFor_ok hpage
  have hlen := length_chunk buf hpos
  have hle : (chunk pos buf).length ≤ buf.length := by omega
  refine ⟨h.size.trans hsize, fun p => ?_, fun hnone => ?_, fun hstop => ?_⟩
  · have hbyte := h.byte p
    rw [byte_store hpos hpage, List.getD_eq_getElem?_getD, List.getElem?_drop] at hbyte
    change r.file.byte p = if pos ≤ p ∧ p < pos + ((chunk pos buf).length + r.done) then _ else _
    rw [hbyte]
    by_cases hlater : pos + (chunk pos buf).length ≤ p
    · have hsub : (chunk pos buf).length + (p - (pos + (chunk pos buf).length)) = p - pos := by
        omega
      rw [hsub, ← List.getD_eq_getElem?_getD, ← Nat.add_assoc,
        if_neg (by omega : ¬(pos ≤ p ∧ p < pos + (chunk pos buf).length))]
      by_cases hend : p < pos + (chunk pos buf).length + r.done
      · rw [if_pos ⟨hlater, hend⟩, if_pos ⟨by omega, hend⟩]
      · rw [if_neg fun hc => hend hc.2, if_neg fun hc => hend hc.2]
    · rw [if_neg fun hc => hlater hc.1]
      by_cases hfirst : pos ≤ p
      · rw [if_pos ⟨hfirst, by omega⟩, if_pos ⟨hfirst, by omega⟩]
      · rw [if_neg fun hc => hfirst hc.1, if_neg fun hc => hfirst hc.1]
  · have hall := h.all hnone
    rw [List.length_drop] at hall
    change (chunk pos buf).length + r.done = buf.length
    omega
  · obtain ⟨m, hm, hdone⟩ := h.stopped hstop
    rw [List.length_drop, hlen] at hm
    have hlt : pos / pageSize < m :=
      lt_of_mem_pagesOf_rest (List.mem_filter.mp (List.mem_of_getElem? hm)).1
    -- the page that this round stored is not of the rest
    have hsame : FileData.missing (d'.setPage (wrap pos / pageSize)
          (page.copy (wrap pos % pageSize) (chunk pos buf)))
          (pos + min (pageSize - pos % pageSize) buf.length)
          (buf.length - min (pageSize - pos % pageSize) buf.length) =
        d.missing (pos + min (pageSize - pos % pageSize) buf.length)
          (buf.length - min (pageSize - pos % pageSize) buf.length) := by
      refine List.filter_congr fun i hi => ?_
      have hne : i ≠ pos / pageSize := Nat.ne_of_gt (lt_of_mem_pagesOf_rest hi)
      rw [page_setPage hindex, wrap_of_lt hpos, if_neg hne, hpages]
    rw [hsame] at hm
    refine ⟨m, ?_, ?_⟩
    · rw [wrap_of_lt hpos] at hfree
      rw [missing_pos hbuf]
      rcases hfree with ⟨hsome, rfl⟩ | ⟨hnone, -, rfl⟩
      · rwa [hsome, Option.isNone_some, if_neg Bool.false_ne_true, List.nil_append]
      · rwa [hnone, Option.isNone_none, if_pos rfl, List.singleton_append, List.getElem?_cons_succ]
    · change (chunk pos buf).length + r.done = m * pageSize - pos
      have hmul := Nat.mul_le_mul_right pageSize (Nat.succ_le_of_lt hlt)
      have hdiv := Nat.div_add_mod pos pageSize
      have hmod := Nat.mod_lt pos (by decide : 0 < pageSize)
      rw [Nat.succ_mul, Nat.mul_comm] at hmul
      omega

theorem stored_writeLoop (heap : Nat) {fuel : Nat} (hfuel : buf.length ≤ fuel)
    (hwrap : pos + buf.length ≤ 2 ^ 64) :
    (writeLoop heap fuel d pos buf free).stop = some .halt ∨
      Stored d pos buf free (writeLoop heap fuel d pos buf free) := by
  induction fuel generalizing d pos buf free with
  | zero =>
      have hbuf : buf = [] := List.length_eq_zero_iff.mp (Nat.le_zero.mp hfuel)
      exact .inr (.nothing rfl (fun _ => rfl) (fun _ => hbuf) (fun h => by cases h))
  | succ fuel ih =>
      rw [writeLoop]
      split
      · next hbuf => exact .inr (.nothing rfl (fun _ => rfl) (fun _ => hbuf) (fun h => by cases h))
      · next hbuf =>
          have hpos : pos < 2 ^ 64 := by
            have := List.length_pos_iff.mpr hbuf
            omega
          have hlen := length_chunk buf hpos
          have hmod := Nat.mod_lt pos (by decide : 0 < pageSize)
          have hdiv := Nat.div_add_mod pos pageSize
          have hlt := List.length_pos_iff.mpr hbuf
          split
          · next d' stop hpage =>
              rcases pageFor_error hpage with rfl | ⟨hsize, hpages, hnone, rfl⟩
              · exact .inl rfl
              · refine .inr (.nothing hsize hpages (fun h => by cases h) fun _ => ?_)
                rw [wrap_of_lt hpos] at hnone
                refine ⟨pos / pageSize, ?_, Nat.div_mul_le_self pos pageSize⟩
                rw [missing_pos hbuf, hnone, Option.isNone_none, if_pos rfl]
                rfl
          · next d' page free' hpage =>
              have hrest := @ih (d'.setPage (wrap pos / pageSize)
                (page.copy (wrap pos % pageSize) (chunk pos buf))) free'
                (pos + (chunk pos buf).length) (buf.drop (chunk pos buf).length)
                (by rw [List.length_drop]; omega) (by rw [List.length_drop]; omega)
              exact hrest.imp_right fun hstored => hstored.after hpos hbuf hpage

theorem readLoop_eq {fuel n : Nat} (hfuel : n ≤ fuel) :
    d.readLoop fuel pos n = (List.range n).map fun i => d.byte (pos + i) := by
  induction fuel generalizing pos n with
  | zero =>
      rw [Nat.le_zero.mp hfuel]
      rfl
  | succ fuel ih =>
      rw [readLoop]
      split
      · next hn =>
          rw [hn]
          rfl
      · next hn =>
          have hmod := Nat.mod_lt pos (by decide : 0 < pageSize)
          have hdiv := Nat.div_add_mod pos pageSize
          have hsplit : n = min (pageSize - pos % pageSize) n +
              (n - min (pageSize - pos % pageSize) n) := by omega
          rw [ih (by omega)]
          conv => rhs; rw [hsplit, List.range_add, List.map_append, List.map_map]
          congr 1
          · refine List.map_congr_left fun i hi => ?_
            have hlt := List.mem_range.mp hi
            have hdiv' : (pos + i) / pageSize = pos / pageSize := by
              refine Nat.div_eq_of_lt_le ?_ ?_
              · rw [Nat.mul_comm]
                omega
              · rw [Nat.add_mul, Nat.mul_comm, Nat.one_mul]
                omega
            have hmod' : (pos + i) % pageSize = pos % pageSize + i := by
              have hsum := Nat.div_add_mod (pos + i) pageSize
              rw [hdiv'] at hsum
              omega
            rw [byte, hdiv', hmod']
          · refine List.map_congr_left fun i _ => ?_
            rw [Function.comp_apply, Nat.add_assoc]

/-- Up to its size, and with zeros from there on, the file is the array. -/
structure Shows (d : FileData) (l : List UInt8) : Prop where
  size : d.size = l.length
  byte : ∀ p, d.byte p = l.getD p 0

theorem Shows.readAt {l : List UInt8} (h : d.Shows l) (off : UInt64) (len : Nat) :
    d.readAt off len = Growable.read off.toNat len l := by
  rw [FileData.readAt, Growable.read_eq_map 0, ← h.size]
  split
  · next hle =>
      rw [Nat.sub_eq_zero_of_le hle, Nat.min_zero]
      rfl
  · rw [readLoop_eq (Nat.min_le_right _ _), Nat.min_comm]
    exact List.map_congr_left fun i _ => h.byte _

theorem page_take (d : FileData) (n i : Nat) :
    FileData.page { d with pages := d.pages.take n } i = if i < n then d.page i else none := by
  rw [FileData.page, List.getElem?_take]
  split
  · rfl
  · rfl

theorem page_modify (d : FileData) (index i : Nat) (f : Page → Page) :
    FileData.page { d with pages := d.pages.modify index (Option.map f) } i =
      if index = i then (d.page i).map f else d.page i := by
  rw [FileData.page, FileData.page, List.getElem?_modify]
  by_cases hi : index = i
  · simp only [if_pos hi]
    cases d.pages[i]? with
    | none => rfl
    | some page => rfl
  · simp only [if_neg hi]
    cases d.pages[i]? with
    | none => rfl
    | some page => rfl

theorem byte_zeroTail (d : FileData) (size p : Nat) :
    (d.zeroTail size).byte p =
      if size < d.size ∧ size ≤ p ∧ p / pageSize = size / pageSize ∧ size % pageSize ≠ 0 then 0
      else d.byte p := by
  rw [zeroTail]
  split
  · next hshort =>
      rw [byte, page_modify]
      by_cases hindex : size / pageSize = p / pageSize
      · have hdiv := Nat.div_add_mod p pageSize
        have hdiv' := Nat.div_add_mod size pageSize
        rw [← hindex] at hdiv
        rw [if_pos hindex, byte]
        by_cases hle : size ≤ p
        · rw [if_pos ⟨hshort.1, hle, hindex.symm, hshort.2⟩]
          cases d.page (p / pageSize) with
          | none => rfl
          | some page => exact if_pos (by omega)
        · rw [if_neg fun hc => hle hc.2.1]
          cases d.page (p / pageSize) with
          | none => rfl
          | some page => exact if_neg (by omega)
      · rw [if_neg hindex, if_neg fun hc => hindex hc.2.2.1.symm, byte]
  · next hshort => rw [if_neg fun hc => hshort ⟨hc.1, hc.2.2.2⟩]

theorem byte_truncate (d : FileData) (size : UInt64) (p : Nat) :
    (d.truncate size).byte p =
      if p / pageSize < wrap (size.toNat + 4095) / pageSize ∧
        ¬(size.toNat < d.size ∧ size.toNat ≤ p ∧ p / pageSize = size.toNat / pageSize ∧
          size.toNat % pageSize ≠ 0)
      then d.byte p else 0 := by
  have h := byte_zeroTail
    { d with pages := d.pages.take (wrap (size.toNat + 4095) / pageSize) } size.toNat p
  change FileData.byte (FileData.zeroTail _ _) p = _
  rw [h]
  change (if _ then _ else (FileData.page _ (p / pageSize)).elim _ _) = _
  rw [page_take]
  split
  · next hzero => rw [if_neg fun hc => hc.2 hzero]
  · next hzero =>
      by_cases hlt : p / pageSize < wrap (size.toNat + 4095) / pageSize
      · rw [if_pos hlt, if_pos ⟨hlt, hzero⟩, byte]
      · rw [if_neg hlt, if_neg fun hc => hlt hc.1, Option.elim_none]

theorem Shows.truncate {l : List UInt8} (h : d.Shows l) (size : UInt64)
    (hsize : size.toNat + 4095 < 2 ^ 64 ∨ ∀ p, p < d.size → d.byte p = 0) :
    (d.truncate size).Shows (Growable.truncate 0 size.toNat l) := by
  refine ⟨(Growable.length_truncate 0).symm, fun p => ?_⟩
  rw [byte_truncate, Growable.getD_truncate, ← h.byte]
  have hbeyond : d.size ≤ p → d.byte p = 0 := by
    intro hle
    rw [h.byte]
    exact Growable.getD_of_le 0 (h.size ▸ hle)
  rcases hsize with hsize | hzero
  · rw [wrap_of_lt hsize]
    by_cases hp : p < size.toNat
    · rw [if_pos hp, if_pos]
      exact ⟨by rw [pageSize]; omega, fun hc => Nat.not_lt_of_le hc.2.1 hp⟩
    · rw [if_neg hp]
      by_cases hshort : size.toNat < d.size
      · rw [if_neg]
        -- what is not cut off is on the last page, whose tail is made zeros
        rintro ⟨hlt, hkept⟩
        rw [pageSize] at hlt hkept
        exact hkept ⟨hshort, by omega, by omega, by omega⟩
      · rw [hbeyond (by omega), ite_self]
  · have hall : d.byte p = 0 := by
      rcases Nat.lt_or_ge p d.size with hlt | hge
      · exact hzero p hlt
      · exact hbeyond hge
    rw [hall, ite_self, ite_self]

/-- What a write that is not all stored has stored was there before. -/
def Kept (d : FileData) (off : Nat) (buf : List UInt8) (free : Nat) : Prop :=
  ∀ m, (d.missing off buf.length)[free]? = some m →
    ∀ p, off ≤ p → p < m * pageSize → buf.getD (p - off) 0 = d.byte p

theorem Shows.writeAt_error {l : List UInt8} {off : UInt64} {file : FileData} (h : d.Shows l)
    (hwrap : off.toNat + buf.length < 2 ^ 64) (hkept : d.Kept off.toNat buf free)
    (hwrite : d.writeAt heap off buf free = (file, .error .noSpace)) : file.Shows l := by
  rw [writeAt] at hwrite
  have hloop : (writeLoop heap buf.length d off.toNat buf free).stop = some .halt ∨
      Stored d off.toNat buf free (writeLoop heap buf.length d off.toNat buf free) :=
    stored_writeLoop heap (Nat.le_refl buf.length) (Nat.le_of_lt hwrap)
  split at hwrite
  · next file' n stop heq =>
      cases hwrite
      rw [heq] at hloop
      obtain hhalt | hstored := hloop
      · cases hhalt
      · obtain ⟨m, hm, hdone⟩ := hstored.stopped rfl
        refine ⟨hstored.size.trans h.size, fun p => ?_⟩
        rw [hstored.byte p]
        split
        · next hin =>
            rw [← h.byte]
            refine hkept m hm p hin.1 ?_
            have hlt := hin.2
            rw [hdone] at hlt
            omega
        · exact h.byte p
  · cases hwrite

theorem Shows.writeAt_ok {l : List UInt8} {off : UInt64} {file : FileData} {n : Nat}
    (h : d.Shows l) (hwrap : off.toNat + buf.length < 2 ^ 64)
    (hempty : buf = [] → off.toNat ≤ d.size)
    (hwrite : d.writeAt heap off buf free = (file, .ok n)) :
    file.Shows (Growable.write 0 off.toNat buf l) := by
  rw [writeAt] at hwrite
  have hloop : (writeLoop heap buf.length d off.toNat buf free).stop = some .halt ∨
      Stored d off.toNat buf free (writeLoop heap buf.length d off.toNat buf free) :=
    stored_writeLoop heap (Nat.le_refl buf.length) (Nat.le_of_lt hwrap)
  split at hwrite
  · cases hwrite
  · next file' k heq =>
      cases hwrite
      rw [heq] at hloop
      obtain hhalt | hstored := hloop
      · cases hhalt
      · have hall := hstored.all rfl
        have hsize := hstored.size
        refine ⟨?_, fun p => ?_⟩
        · change max file'.size (wrap (off.toNat + buf.length)) = _
          rw [wrap_of_lt hwrap, hsize]
          by_cases hbuf : buf = []
          · rw [Growable.write, if_pos hbuf, hbuf, List.length_nil, Nat.add_zero,
              Nat.max_eq_left (hempty hbuf), h.size]
          · rw [Growable.length_write 0 hbuf, h.size]
        · have hbyte := hstored.byte p
          rw [hall, h.byte] at hbyte
          rw [Growable.getD_write]
          exact hbyte

end FileData

namespace Beside

/-- What keeps the file an array: no empty write beyond the end, no end at 2^64 or more, no
rounding of a size that wraps with something to lose, and no write that runs out of memory
when it has changed something. -/
def Sound (s : Beside) : Op → Prop
  | .write off buf free =>
      off.toNat + buf.length < 2 ^ 64 ∧ (buf = [] → off.toNat ≤ s.file.size) ∧
        s.file.Kept off.toNat buf free
  | .truncate size =>
      size.toNat + 4095 < 2 ^ 64 ∨ ∀ p, p < s.file.size → s.file.byte p = 0
  | .read _ _ => True

theorem shows_step {heap : Nat} {s t : Beside} {a : Op} (h : s.file.Shows s.array)
    (ht : step heap s a = some t) (hsound : s.Sound a) : t.file.Shows t.array := by
  cases a with
  | write off buf free =>
      obtain ⟨hwrap, hempty, hkept⟩ := hsound
      rw [step] at ht
      split at ht
      · cases ht
      · next file hwrite =>
          cases ht
          exact h.writeAt_error hwrap hkept hwrite
      · next file n hwrite =>
          cases ht
          exact h.writeAt_ok hwrap hempty hwrite
  | truncate size =>
      cases ht
      exact h.truncate size hsound
  | read off len =>
      cases ht
      exact h

theorem good_step {heap : Nat} {s t : Beside} {a : Op} (h : s.file.Shows s.array)
    (ht : step heap s a = some t) (hsound : s.Sound a) : t.Good a := by
  have hshows := shows_step h ht hsound
  refine ⟨hshows.size, fun p _ => hshows.byte p, ?_⟩
  rintro off len rfl
  cases ht
  exact congrArg Ret.bytes (h.readAt off len)

/-- In a run that is sound a file is an array to those who read it. -/
theorem bytes_of_sound (heap : Nat) (ops : List Op)
    (h : Along (step heap) (fun s a _ => s.Sound a) {} ops) :
    Along (step heap) (fun _ a t => t.Good a) {} ops :=
  Along.imp (fun s => s.file.Shows s.array) (fun _ _ _ hs ht hsound => shows_step hs ht hsound)
    (fun _ _ _ hs ht hsound => good_step hs ht hsound) ⟨rfl, fun _ => rfl⟩ h

/-- A byte is written, the file made longer, and read. -/
theorem bytes_of_sound_longer :
    Along (step 1) (fun _ a t => t.Good a) {} [.write 0 [7] 1, .truncate 3, .read 0 9] :=
  bytes_of_sound 1 _ <|
    .cons rfl ⟨by decide, fun h => absurd h (List.cons_ne_nil _ _),
      fun m hm => absurd hm.symm (Option.some_ne_none m)⟩ <|
    .cons rfl (.inl (by decide)) <| .cons rfl trivial <| trivial

/-- An empty write beyond the end makes the file longer. -/
theorem not_always_bytes : ¬∀ heap ops, Along (step heap) (fun _ a t => t.Good a) {} ops := by
  intro h
  have hgood := h 0 [.write 1 [] 0] ⟨{ size := 1 }, [], .wrote (.ok 0)⟩ rfl
  exact absurd hgood.1.size (by decide)

end Beside

end MindOS.Kernel.Tmpfs
