import MindOS.Transition
import MindOS.Vectors

/-!
# File descriptors

## The table of file descriptors

A vector of slots, which grows when a descriptor is installed behind its end. Against it stands
what the table is for: a partial map from numbers below a limit to files, of which the lowest free
number is given out.
-/

namespace MindOS.Kernel.Fs

open Slots Transition

def MAX_FDS : Nat := 4096

inductive Errno where
  | EBADF
  | EMFILE
  deriving DecidableEq

structure FdEntry (F : Type) where
  file : F
  cloexec : Bool
  deriving DecidableEq

abbrev FdTable (F : Type) := List (Option (FdEntry F))

inductive Answer (F : Type) where
  | done
  | fd (n : Nat)
  | old (file : Option F)
  | file (file : F)
  | files (files : List F)
  | error (e : Errno)
  deriving DecidableEq

namespace FdTable

variable {F : Type} (fds : FdTable F)

/-- `fds.get(fd as usize)`, where the number is not negative. -/
def lookup (fd : Int) : Option (FdEntry F) := if fd < 0 then none else Slots.get fds fd.toNat

def get (fd : Int) : Answer F :=
  match lookup fds fd with
  | none => .error .EBADF
  | some e => .file e.file

/-- Installs `e` at the lowest free descriptor from `min` on. -/
def alloc (e : FdEntry F) (min : Nat) : FdTable F × Answer F :=
  match (List.range' min (fds.length - min)).find? fun i => (Slots.get fds i).isNone with
  | some i => (fds.set i (some e), .fd i)
  | none =>
      let i := max min fds.length
      if MAX_FDS ≤ i then (fds, .error .EMFILE) else (grown fds i ++ [some e], .fd i)

/-- Installs `e` at a descriptor, in the place of any other. -/
def set (fd : Int) (e : FdEntry F) : FdTable F × Answer F :=
  if fd < 0 ∨ MAX_FDS ≤ fd then (fds, .error .EBADF)
  else
    let fds := grown fds (fd.toNat + 1)
    (List.set fds fd.toNat (some e), .old ((Slots.get fds fd.toNat).map FdEntry.file))

def close (fd : Int) : FdTable F × Answer F :=
  match lookup fds fd with
  | none => (fds, .error .EBADF)
  | some e => (List.set fds fd.toNat none, .file e.file)

def setCloexec (fd : Int) (on : Bool) : FdTable F × Answer F :=
  match lookup fds fd with
  | none => (fds, .error .EBADF)
  | some e => (List.set fds fd.toNat (some { e with cloexec := on }), .done)

/-- What is left of an entry when a program is executed. -/
def kept (e : Option (FdEntry F)) : Option (FdEntry F) := e.filter fun e => !e.cloexec

/-- The file that an entry then drops. -/
def dropped (e : FdEntry F) : Option F := if e.cloexec then some e.file else none

def closeOnExec : FdTable F × Answer F :=
  (fds.map kept, .files (fds.filterMap fun e => e.bind dropped))

def clear : FdTable F × Answer F := ([], .files (fds.filterMap fun e => e.map FdEntry.file))

/-- One turn of the loop; an index behind the end of the vector is a panic. -/
def closeAt (acc : FdTable F × List F) (i : Nat) : Option (FdTable F × List F) :=
  match acc.1[i]? with
  | none => none
  | some none => some acc
  | some (some e) => some (List.set acc.1 i none, acc.2 ++ [e.file])

/-- The last number of an empty vector is taken to be 0. -/
def closeRange (lo hi : Nat) : Option (FdTable F × Answer F) :=
  ((List.range' lo (min hi (fds.length - 1) + 1 - lo)).foldlM closeAt (fds, [])).map fun acc =>
    (acc.1, .files acc.2)

end FdTable

/-- A call, on the table of a process. -/
inductive FdCall (F : Type) where
  | get (p : Nat) (fd : Int)
  | alloc (p : Nat) (e : FdEntry F) (min : Nat)
  | set (p : Nat) (fd : Int) (e : FdEntry F)
  | close (p : Nat) (fd : Int)
  | setCloexec (p : Nat) (fd : Int) (on : Bool)
  | closeOnExec (p : Nat)
  | clear (p : Nat)
  | closeRange (p lo hi : Nat)
  /-- `c` gets a copy of the table. -/
  | duplicate (p c : Nat)

abbrev Tables (F : Type) := Nat → FdTable F

namespace Tables

variable {F : Type} (tables : Tables F)

/-- Process `p` has another table. -/
def put (p : Nat) (res : FdTable F × Answer F) : Tables F × Answer F :=
  (Function.update tables p res.1, res.2)

/-- None if the kernel panics. -/
def call (tables : Tables F) : FdCall F → Option (Tables F × Answer F)
  | .get p fd => some (tables, (tables p).get fd)
  | .alloc p e min => some (tables.put p ((tables p).alloc e min))
  | .set p fd e => some (tables.put p (FdTable.set (tables p) fd e))
  | .close p fd => some (tables.put p ((tables p).close fd))
  | .setCloexec p fd on => some (tables.put p ((tables p).setCloexec fd on))
  | .closeOnExec p => some (tables.put p (tables p).closeOnExec)
  | .clear p => some (tables.put p (tables p).clear)
  | .closeRange p lo hi => ((tables p).closeRange lo hi).map (tables.put p)
  | .duplicate p c => some (Function.update tables c (tables p), .done)

/-- A panic leaves the tables as they are. -/
def step (c : FdCall F) : Option (Tables F) := some (((tables.call c).map Prod.fst).getD tables)

end Tables

/-!
## Descriptors as a partial map

Every call does to the table what it is for, and answers so, but for one: a range from 0 on that is
closed in a vector without places reads behind its end.
-/

/-- What the table is for: the files by their numbers. -/
abbrev Fds (F : Type) := Nat → Option (FdEntry F)

namespace Fds

variable {F : Type}

/-- The lowest free number from `min` on. -/
structure Lowest (m : Fds F) (min n : Nat) : Prop where
  le : min ≤ n
  free : m n = none
  least : ∀ k, min ≤ k → k < n → m k ≠ none

/-- The files that are chosen, by their numbers. -/
def files (m : Fds F) (f : Nat → FdEntry F → Option F) : List F :=
  (List.range MAX_FDS).filterMap fun n => (m n).bind (f n)

def lookup (m : Fds F) (fd : Int) : Option (FdEntry F) := if fd < 0 then none else m fd.toNat

/-- What a call is for: the map that it makes of one, and the answer. -/
def Served (m : Fds F) : FdCall F → Fds F → Answer F → Prop
  | .get _ fd, m', ans => m' = m ∧ ans = match m.lookup fd with
      | none => .error .EBADF
      | some e => .file e.file
  | .alloc _ e min, m', ans =>
      (∃ n, m.Lowest min n ∧ n < MAX_FDS ∧ m' = Function.update m n (some e) ∧ ans = .fd n) ∨
        (∀ n, min ≤ n → n < MAX_FDS → m n ≠ none) ∧ m' = m ∧ ans = .error .EMFILE
  | .set _ fd e, m', ans =>
      if 0 ≤ fd ∧ fd < MAX_FDS then m' = Function.update m fd.toNat (some e) ∧
        ans = .old ((m fd.toNat).map FdEntry.file)
      else m' = m ∧ ans = .error .EBADF
  | .close _ fd, m', ans =>
      match m.lookup fd with
      | none => m' = m ∧ ans = .error .EBADF
      | some e => m' = Function.update m fd.toNat none ∧ ans = .file e.file
  | .setCloexec _ fd on, m', ans =>
      match m.lookup fd with
      | none => m' = m ∧ ans = .error .EBADF
      | some e => m' = Function.update m fd.toNat (some { e with cloexec := on }) ∧ ans = .done
  | .closeOnExec _, m', ans =>
      (∀ n, m' n = (m n).filter fun e => !e.cloexec) ∧
        ans = .files (m.files fun _ e => if e.cloexec then some e.file else none)
  | .clear _, m', ans => (∀ n, m' n = none) ∧ ans = .files (m.files fun _ e => some e.file)
  | .closeRange _ lo hi, m', ans =>
      (∀ n, m' n = if lo ≤ n ∧ n ≤ hi then none else m n) ∧
        ans = .files (m.files fun n e => if lo ≤ n ∧ n ≤ hi then some e.file else none)
  | .duplicate _ _, m', ans => m' = m ∧ ans = .done

end Fds

/-! ### One table -/

namespace FdTable

variable {F : Type} {fds fds' : FdTable F} {e : FdEntry F} {ans : Answer F} {fd : Int}
  {n lo hi k : Nat} {on : Bool} {out : List F}

theorem lookup_eq : lookup fds fd = Fds.lookup (Slots.get fds) fd := rfl

theorem lt_of_lookup (h : lookup fds fd = some e) : fd.toNat < fds.length := by
  rw [lookup] at h
  split at h
  · cases h
  · exact lt_length_of_get (by rw [h]; exact Option.some_ne_none e)

theorem alloc_served {min : Nat} (h : fds.length ≤ MAX_FDS) :
    (alloc fds e min).1.length ≤ MAX_FDS ∧
      ((∃ n, Fds.Lowest (Slots.get fds) min n ∧ n < MAX_FDS ∧
          Slots.get (alloc fds e min).1 = Function.update (Slots.get fds) n (some e) ∧
          (alloc fds e min).2 = .fd n) ∨
        (∀ n, min ≤ n → n < MAX_FDS → Slots.get fds n ≠ none) ∧
          Slots.get (alloc fds e min).1 = Slots.get fds ∧
          (alloc fds e min).2 = .error .EMFILE) := by
  rw [alloc]
  cases hfind : (List.range' min (fds.length - min)).find? fun i => (Slots.get fds i).isNone with
  | some i =>
      dsimp only
      obtain ⟨hfree, front, back, hsplit, hfront⟩ := List.find?_eq_some_iff_append.mp hfind
      have hmem : i ∈ List.range' min (fds.length - min) := by
        rw [hsplit]
        exact List.mem_append_right _ List.mem_cons_self
      obtain ⟨hmin, hlt⟩ := List.mem_range'_1.mp hmem
      refine ⟨by rwa [List.length_set], .inl ⟨i, ⟨hmin, Option.isNone_iff_eq_none.mp hfree,
        fun k hk hki => ?_⟩, by omega, get_set (by omega) _, rfl⟩⟩
      -- a number below the one found stands before it
      have hfront : k ∈ front := by
        have hk : k ∈ List.range' min (fds.length - min) :=
          List.mem_range'_1.mpr ⟨hk, by omega⟩
        have hsorted := @List.pairwise_lt_range' min (fds.length - min) 1 Nat.one_pos
        rw [hsplit] at hk hsorted
        rcases List.mem_append.mp hk with hk | hk
        · exact hk
        · obtain ⟨-, hback, -⟩ := List.pairwise_append.mp hsorted
          rcases List.mem_cons.mp hk with rfl | hk
          · exact absurd hki (Nat.lt_irrefl k)
          · exact absurd (List.rel_of_pairwise_cons hback hk) (Nat.not_lt.mpr hki.le)
      have hsome := ‹∀ a ∈ front, _› k hfront
      intro hnone
      rw [hnone] at hsome
      exact absurd hsome (by simp)
  | none =>
      dsimp only
      have hused : ∀ k, min ≤ k → k < fds.length → Slots.get fds k ≠ none :=
        fun k hk hlt hnone => by
        have hnot := List.find?_eq_none.mp hfind k (List.mem_range'_1.mpr ⟨hk, by omega⟩)
        rw [hnone] at hnot
        exact hnot rfl
      split
      · next hmax =>
          refine ⟨h, .inr ⟨fun n hn hlt => hused n hn ?_, rfl, rfl⟩⟩
          omega
      · next hmax =>
          have hlen : (grown fds (max min fds.length)).length = max min fds.length := by
            rw [length_grown]
            omega
          refine ⟨?_, .inl ⟨max min fds.length, ⟨le_max_left _ _, ?_, fun k hk hlt => ?_⟩,
            Nat.lt_of_not_le hmax, ?_, rfl⟩⟩
          · rw [List.length_append, hlen, List.length_singleton]
            omega
          · exact get_of_length_le (le_max_right _ _)
          · exact hused k hk (by omega)
          · rw [get_concat, hlen]
            congr 1
            exact funext fun i => get_grown

theorem set_served (h : fds.length ≤ MAX_FDS) :
    (FdTable.set fds fd e).1.length ≤ MAX_FDS ∧
      if 0 ≤ fd ∧ fd < MAX_FDS then
        Slots.get (FdTable.set fds fd e).1 = Function.update (Slots.get fds) fd.toNat (some e) ∧
          (FdTable.set fds fd e).2 = .old ((Slots.get fds fd.toNat).map FdEntry.file)
      else Slots.get (FdTable.set fds fd e).1 = Slots.get fds ∧
        (FdTable.set fds fd e).2 = .error .EBADF := by
  rw [FdTable.set]
  by_cases hbad : fd < 0 ∨ MAX_FDS ≤ fd
  · rw [if_pos hbad, if_neg (by omega)]
    exact ⟨h, rfl, rfl⟩
  · rw [if_neg hbad, if_pos (by omega)]
    have hlen : (grown fds (fd.toNat + 1)).length = max fds.length (fd.toNat + 1) := length_grown
    refine ⟨?_, ?_, ?_⟩
    · dsimp only
      rw [List.length_set, hlen]
      omega
    · dsimp only
      rw [get_set (by omega)]
      congr 1
      exact funext fun i => get_grown
    · dsimp only
      rw [get_grown]

theorem close_served (h : fds.length ≤ MAX_FDS) :
    (close fds fd).1.length ≤ MAX_FDS ∧
      match Fds.lookup (Slots.get fds) fd with
      | none => Slots.get (close fds fd).1 = Slots.get fds ∧ (close fds fd).2 = .error .EBADF
      | some e => Slots.get (close fds fd).1 = Function.update (Slots.get fds) fd.toNat none ∧
          (close fds fd).2 = .file e.file := by
  rw [close, ← lookup_eq]
  cases hlookup : lookup fds fd with
  | none => exact ⟨h, rfl, rfl⟩
  | some e => exact ⟨List.length_set.trans_le h, get_set (lt_of_lookup hlookup) none, rfl⟩

theorem setCloexec_served (h : fds.length ≤ MAX_FDS) :
    (setCloexec fds fd on).1.length ≤ MAX_FDS ∧
      match Fds.lookup (Slots.get fds) fd with
      | none =>
          Slots.get (setCloexec fds fd on).1 = Slots.get fds ∧
            (setCloexec fds fd on).2 = .error .EBADF
      | some e => Slots.get (setCloexec fds fd on).1 =
            Function.update (Slots.get fds) fd.toNat (some { e with cloexec := on }) ∧
          (setCloexec fds fd on).2 = .done := by
  rw [setCloexec, ← lookup_eq]
  cases hlookup : lookup fds fd with
  | none => exact ⟨h, rfl, rfl⟩
  | some e => exact ⟨List.length_set.trans_le h, get_set (lt_of_lookup hlookup) _, rfl⟩

theorem closeOnExec_served (h : fds.length ≤ MAX_FDS) :
    (closeOnExec fds).1.length ≤ MAX_FDS ∧
      (∀ n, Slots.get (closeOnExec fds).1 n = (Slots.get fds n).filter fun e => !e.cloexec) ∧
      (closeOnExec fds).2 = .files (Fds.files (Slots.get fds) fun _ => dropped) :=
  ⟨(List.length_map _).trans_le h, fun _ => get_map rfl,
    congrArg Answer.files (filterMap_range h dropped).symm⟩

theorem clear_served (h : fds.length ≤ MAX_FDS) :
    (clear fds).1.length ≤ MAX_FDS ∧ (∀ n, Slots.get (clear fds).1 n = none) ∧
      (clear fds).2 = .files (Fds.files (Slots.get fds) fun _ e => some e.file) := by
  refine ⟨Nat.zero_le _, fun _ => rfl, congrArg Answer.files ?_⟩
  refine Eq.trans (List.filterMap_congr fun e _ => ?_)
    (filterMap_range h fun e => some e.file).symm
  cases e <;> rfl

theorem foldlM_closeAt (h : 0 < k → lo + k ≤ fds.length) : ∃ fds',
    (List.range' lo k).foldlM closeAt (fds, out) = some (fds',
      out ++ (List.range' lo k).filterMap fun i => (Slots.get fds i).map FdEntry.file) ∧
    fds'.length = fds.length ∧
    ∀ n, Slots.get fds' n = if lo ≤ n ∧ n < lo + k then none else Slots.get fds n := by
  induction k generalizing lo fds out with
  | zero =>
      refine ⟨fds, by simp, rfl, fun n => ?_⟩
      rw [if_neg (by omega)]
  | succ k ih =>
      have hle := h (Nat.succ_pos k)
      have hlt : lo < fds.length := by omega
      -- what the first turn does
      have hone : closeAt (fds, out) lo = some (List.set fds lo none,
          out ++ ((Slots.get fds lo).map FdEntry.file).toList) := by
        rw [closeAt, Slots.get, List.getElem?_eq_getElem hlt]
        cases he : fds[lo] with
        | none =>
            have hset : List.set fds lo none = fds := by
              rw [← he]
              exact List.set_getElem_self hlt
            simp [hset]
        | some e => simp
      have hset := get_set hlt (none : Option (FdEntry F))
      have hrest : 0 < k → lo + 1 + k ≤ (List.set fds lo none).length := fun _ => by
        rw [List.length_set]
        omega
      obtain ⟨fds', hrun, hlen, hget⟩ := @ih (List.set fds lo none) (lo + 1)
        (out ++ ((Slots.get fds lo).map FdEntry.file).toList) hrest
      refine ⟨fds', ?_, by rw [hlen, List.length_set], fun n => ?_⟩
      · have hrest : ((List.range' (lo + 1) k).filterMap fun i =>
            (Slots.get (List.set fds lo none) i).map FdEntry.file) =
            (List.range' (lo + 1) k).filterMap fun i => (Slots.get fds i).map FdEntry.file := by
          refine List.filterMap_congr fun i hi => ?_
          have hi := (List.mem_range'_1.mp hi).1
          rw [hset, Function.update_of_ne (by omega)]
        rw [List.range'_succ, List.foldlM_cons, hone]
        change List.foldlM closeAt _ _ = _
        rw [hrun, hrest, List.append_assoc, List.filterMap_cons]
        cases (Slots.get fds lo).map FdEntry.file <;> rfl
      · rw [hget, hset]
        by_cases hn : n = lo
        · subst hn
          have hin : n ≤ n ∧ n < n + (k + 1) := by omega
          rw [Function.update_self, if_pos hin]
          split <;> rfl
        · rw [Function.update_of_ne hn]
          have hiff : (lo + 1 ≤ n ∧ n < lo + 1 + k) ↔ (lo ≤ n ∧ n < lo + (k + 1)) := by omega
          simp only [hiff]

theorem closeRange_nil : closeRange ([] : FdTable F) 0 hi = none := by
  rw [closeRange, List.length_nil, Nat.zero_sub, Nat.min_zero]
  rfl

theorem closeRange_served (h : fds.length ≤ MAX_FDS) (hsafe : lo = 0 → fds ≠ []) :
    ∃ fds', closeRange fds lo hi = some (fds', .files ((List.range MAX_FDS).filterMap fun n =>
        (Slots.get fds n).bind fun e => if lo ≤ n ∧ n ≤ hi then some e.file else none)) ∧
      fds'.length ≤ MAX_FDS ∧
      ∀ n, Slots.get fds' n = if lo ≤ n ∧ n ≤ hi then none else Slots.get fds n := by
  have hpos : lo = 0 → 0 < fds.length := fun hlo => List.length_pos_of_ne_nil (hsafe hlo)
  obtain ⟨fds', hrun, hlen, hget⟩ := @foldlM_closeAt F fds lo
    (min hi (fds.length - 1) + 1 - lo) [] (by omega)
  have hin : ∀ n < fds.length, (lo ≤ n ∧ n < lo + (min hi (fds.length - 1) + 1 - lo)) ↔
      lo ≤ n ∧ n ≤ hi := fun n hn => by omega
  have hfiles : ((List.range MAX_FDS).filterMap fun n => (Slots.get fds n).bind fun e =>
      if lo ≤ n ∧ n ≤ hi then some e.file else none) =
      (List.range' lo (min hi (fds.length - 1) + 1 - lo)).filterMap fun i =>
        (Slots.get fds i).map FdEntry.file := by
    have hmax : 0 < min hi (fds.length - 1) + 1 - lo →
        lo + (min hi (fds.length - 1) + 1 - lo) ≤ MAX_FDS := by omega
    rw [filterMap_range' hmax fun n _ hout => ?_]
    · refine List.filterMap_congr fun n hn => ?_
      have hn := List.mem_range'_1.mp hn
      have hrange : lo ≤ n ∧ n ≤ hi := (hin n (by omega)).mp hn
      simp only [hrange, and_self, if_true]
      cases Slots.get fds n <;> rfl
    · by_cases hn : n < fds.length
      · rw [hin n hn] at hout
        simp [hout]
      · rw [get_of_length_le (Nat.le_of_not_lt hn)]
        rfl
  refine ⟨fds', ?_, hlen.trans_le h, fun n => ?_⟩
  · rw [closeRange, hrun, hfiles]
    rfl
  · rw [hget]
    by_cases hn : n < fds.length
    · simp only [hin n hn]
    · rw [get_of_length_le (Nat.le_of_not_lt hn)]
      split <;> split <;> rfl

end FdTable

/-! ### All tables -/

namespace Tables

variable {F : Type} {tables : Tables F} {c : FdCall F}

/-- The maps of all processes. -/
def maps (tables : Tables F) (p : Nat) : Fds F := Slots.get (tables p)

/-- No table is longer than the limit. -/
def Bounded (tables : Tables F) : Prop := ∀ p, (tables p).length ≤ MAX_FDS

end Tables

namespace FdCall

variable {F : Type}

/-- The process whose table a call reads. -/
def source : FdCall F → Nat
  | get p _ | alloc p _ _ | set p _ _ | close p _ | setCloexec p _ _ | closeOnExec p | clear p
  | closeRange p _ _ | duplicate p _ => p

/-- The process whose table it writes. -/
def target : FdCall F → Nat
  | duplicate _ c => c
  | call => call.source

/-- The call does not panic, it does what it is for, and changes no other table; all numbers are
below the limit. -/
def Good (tables : Tables F) (c : FdCall F) (_ : Tables F) : Prop :=
  ∃ tables' ans, tables.call c = some (tables', ans) ∧
    (tables.maps c.source).Served c (tables'.maps c.target) ans ∧
    (∀ q, q ≠ c.target → tables'.maps q = tables.maps q) ∧
    ∀ p n, tables'.maps p n ≠ none → n < MAX_FDS

/-- No range from 0 on is closed in a vector that has no places. -/
def Safe (tables : Tables F) (c : FdCall F) (_ : Tables F) : Prop :=
  match c with
  | closeRange p lo _ => lo = 0 → tables p ≠ []
  | _ => True

variable {tables : Tables F} {c : FdCall F} {res : FdTable F × Answer F}

theorem put_bounded {p : Nat} (hb : tables.Bounded) (hlen : res.1.length ≤ MAX_FDS) :
    (tables.put p res).1.Bounded := by
  intro q
  by_cases hq : q = p
  · subst hq
    exact (congrArg List.length (Function.update_self q _ _)).trans_le hlen
  · exact (congrArg List.length (Function.update_of_ne hq _ _)).trans_le (hb q)

theorem below_of_bounded (hb : tables.Bounded) {p n : Nat} (h : tables.maps p n ≠ none) :
    n < MAX_FDS :=
  (lt_length_of_get h).trans_le (hb p)

theorem good_of_put (hb : tables.Bounded) (hcall : tables.call c = some (tables.put c.target res))
    (hlen : res.1.length ≤ MAX_FDS)
    (hserved : (tables.maps c.source).Served c (Slots.get res.1) res.2) :
    Good tables c (tables.put c.target res).1 ∧ (tables.put c.target res).1.Bounded := by
  have hbounded := put_bounded (p := c.target) hb hlen
  have hself : (tables.put c.target res).1.maps c.target = Slots.get res.1 :=
    congrArg Slots.get (Function.update_self _ _ _)
  refine ⟨⟨_, _, hcall, ?_, fun q hq => ?_, fun p n => below_of_bounded hbounded⟩, hbounded⟩
  · change Fds.Served _ c ((tables.put c.target res).1.maps c.target) _
    rw [hself]
    exact hserved
  · exact congrArg Slots.get (Function.update_of_ne hq _ _)

theorem call_closeRange_nil {p hi : Nat} (h : tables p = []) :
    tables.call (.closeRange p 0 hi) = none := by
  rw [Tables.call, h, FdTable.closeRange_nil]
  rfl

theorem good_of_safe (hb : tables.Bounded) {tables' : Tables F}
    (hstep : tables.step c = some tables') :
    tables'.Bounded ∧ (Good tables c tables' ↔ Safe tables c tables') := by
  obtain rfl := Option.some.inj hstep
  have hput : ∀ res, tables.call c = some (tables.put c.target res) → res.1.length ≤ MAX_FDS →
      (tables.maps c.source).Served c (Slots.get res.1) res.2 → Safe tables c tables →
      (((tables.call c).map Prod.fst).getD tables).Bounded ∧
        (Good tables c (((tables.call c).map Prod.fst).getD tables) ↔
          Safe tables c (((tables.call c).map Prod.fst).getD tables)) := by
    intro res hcall hlen hserved hsafe
    obtain ⟨hgood, hbounded⟩ := good_of_put hb hcall hlen hserved
    rw [hcall]
    exact ⟨hbounded, iff_of_true hgood hsafe⟩
  cases c with
  | get p fd =>
      refine ⟨hb, iff_of_true ⟨_, _, rfl, ⟨rfl, ?_⟩, fun _ _ => rfl, fun p n => ?_⟩ trivial⟩
      · rw [FdTable.get, FdTable.lookup_eq]
        rfl
      · exact below_of_bounded hb
  | alloc p e min =>
      obtain ⟨hlen, hserved⟩ := @FdTable.alloc_served F (tables p) e min (hb p)
      exact hput _ rfl hlen hserved trivial
  | set p fd e =>
      obtain ⟨hlen, hserved⟩ := @FdTable.set_served F (tables p) e fd (hb p)
      exact hput _ rfl hlen hserved trivial
  | close p fd =>
      obtain ⟨hlen, hserved⟩ := @FdTable.close_served F (tables p) fd (hb p)
      exact hput _ rfl hlen hserved trivial
  | setCloexec p fd on =>
      obtain ⟨hlen, hserved⟩ := @FdTable.setCloexec_served F (tables p) fd on (hb p)
      exact hput _ rfl hlen hserved trivial
  | closeOnExec p =>
      obtain ⟨hlen, hserved⟩ := FdTable.closeOnExec_served (hb p)
      exact hput _ rfl hlen hserved trivial
  | clear p =>
      obtain ⟨hlen, hserved⟩ := FdTable.clear_served (hb p)
      exact hput _ rfl hlen hserved trivial
  | closeRange p lo hi =>
      by_cases hsafe : lo = 0 → tables p ≠ []
      · obtain ⟨fds', hrun, hlen, hget⟩ :=
          @FdTable.closeRange_served F (tables p) lo hi (hb p) hsafe
        have hcall : tables.call (.closeRange p lo hi) = some (tables.put p (fds', _)) :=
          congrArg (Option.map (tables.put p)) hrun
        exact hput _ hcall hlen ⟨hget, rfl⟩ hsafe
      · have hcall : tables.call (.closeRange p lo hi) = none := by
          obtain ⟨rfl, hnil⟩ := Classical.not_imp.mp hsafe
          exact call_closeRange_nil (not_not.mp hnil)
        rw [hcall]
        refine ⟨hb, iff_of_false ?_ hsafe⟩
        rintro ⟨tables', ans, hsome, -⟩
        cases hcall.symm.trans hsome
  | duplicate p c => exact hput (tables p, .done) rfl (hb p) ⟨rfl, rfl⟩ trivial

/-- The tables are partial maps, and no call panics, in exactly the runs in which no range from 0
on is closed in a vector without places. -/
theorem tables_are_maps (calls : List (FdCall F)) :
    Along Tables.step Good (fun _ => ([] : FdTable F)) calls ↔
      Along Tables.step Safe (fun _ => ([] : FdTable F)) calls :=
  along_iff Tables.Bounded (fun _ _ _ hb hstep _ => (good_of_safe hb hstep).1)
    (fun _ _ _ hb hstep => (good_of_safe hb hstep).2) calls fun _ => Nat.zero_le _

/-- A process goes and clears the table that it shares with another, which then closes all
descriptors. -/
theorem not_always_maps : ¬∀ calls : List (FdCall Nat),
    Along Tables.step Good (fun _ => ([] : FdTable Nat)) calls := by
  intro hall
  have hrun := hall [.alloc 0 ⟨7, false⟩ 0, .clear 0, .closeRange 0 0 4294967295]
  obtain ⟨⟨tables', ans, hcall, -⟩, -⟩ := ((hrun _ rfl).2 _ rfl).2 _ rfl
  cases (call_closeRange_nil rfl).symm.trans hcall

end FdCall

end MindOS.Kernel.Fs
