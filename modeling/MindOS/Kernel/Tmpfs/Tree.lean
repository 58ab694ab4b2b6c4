import Mathlib.Data.List.AList
import MindOS.Text.Basic
import MindOS.Transition

/-!
# The tree of tmpfs

## The tree of tmpfs

Inodes are shared: a directory has the inodes that its entries name, and a process may hold
one that no entry names any more. An inode is known by its number; number 0 is the root. An
operation is given the inodes that its caller has looked up.
-/

namespace MindOS.Kernel.Tmpfs

open Text Transition

abbrev Ino := Nat

inductive Kind where
  | file
  | dir
  | symlink
  | charDev
  | blockDev
  | fifo
  | socket
  deriving DecidableEq

inductive Errno where
  | ENOENT
  | EEXIST
  | ENOTDIR
  | EISDIR
  | EINVAL
  | EPERM
  | ENOTEMPTY
  deriving DecidableEq

abbrev Entries := AList fun _ : Text => Ino

structure Node where
  kind : Kind
  nlink : Nat := 1
  parent : Option Ino := none
  entries : Entries := ∅

/-- A name that `lookup` looks for among the entries, and that a path can have. -/
def proper (name : Text) : Bool :=
  !(name.isEmpty || name == ".".toList || name == "..".toList)

/-- How an operation ends: `hangs` is a lock that is taken twice. -/
inductive Res where
  | done
  | failed (e : Errno)
  | hangs
  deriving DecidableEq

/-- The count of links is 32 bits wide. -/
def wrapLinks (n : Nat) : Nat := n % 2 ^ 32

structure Fs where
  nodes : List Node
  /-- The inodes that a process holds. -/
  held : List Ino := []

namespace Fs

def root : Ino := 0

def new : Fs := { nodes := [{ kind := .dir }] }

section Reading

variable (s : Fs)

def isDir (i : Ino) : Bool := (s.nodes[i]?).any fun node => node.kind == .dir

def entries (i : Ino) : Entries := ((s.nodes[i]?).map Node.entries).getD ∅

def nlink (i : Ino) : Nat := ((s.nodes[i]?).map Node.nlink).getD 0

def lookup (d : Ino) (name : Text) : Option Ino := (s.entries d).lookup name

/-- How many entries name the inode. -/
def count (i : Ino) : Nat :=
  (s.nodes.map fun node => (node.entries.entries.map Sigma.snd).count i).sum

/-- The inode is somewhere: it is the root, an entry names it, or a process holds it. -/
def alive (i : Ino) : Bool := i == root || s.count i != 0 || s.held.contains i

/-- Follows names from a directory. -/
def walk : Ino → List Text → Option Ino
  | d, [] => some d
  | d, name :: rest =>
      if proper name && s.isDir d then (s.lookup d name).bind fun i => walk i rest else none

end Reading

def modify (s : Fs) (i : Ino) (f : Node → Node) : Fs := { s with nodes := s.nodes.modify i f }

def setEntries (s : Fs) (d : Ino) (es : Entries) : Fs :=
  s.modify d fun node => { node with entries := es }

def setLinks (s : Fs) (i : Ino) (n : Nat) : Fs := s.modify i fun node => { node with nlink := n }

def insert (s : Fs) (d : Ino) (name : Text) (i : Ino) : Fs :=
  s.setEntries d ((s.entries d).insert name i)

def remove (s : Fs) (d : Ino) (name : Text) : Fs := s.setEntries d ((s.entries d).erase name)

/-- A new inode, which no entry names yet. -/
def push (s : Fs) (kind : Kind) (parent : Ino) : Fs :=
  { s with nodes := s.nodes ++ [{ kind := kind, parent := some parent }] }

/-- `create`, and `mkdir` for a directory. -/
def create (s : Fs) (d : Ino) (name : Text) (kind : Kind) : Fs × Res :=
  if !s.isDir d then (s, .failed .ENOTDIR)
  else if !proper name then (s, .failed .EINVAL)
  else if (s.lookup d name).isSome then (s, .failed .EEXIST)
  else ((s.push kind d).insert d name s.nodes.length, .done)

def link (s : Fs) (d : Ino) (name : Text) (target : Ino) : Fs × Res :=
  if !s.isDir d then (s, .failed .ENOTDIR)
  else if s.isDir target then (s, .failed .EPERM)
  else if (s.lookup d name).isSome then (s, .failed .EEXIST)
  else ((s.setLinks target (wrapLinks (s.nlink target + 1))).insert d name target, .done)

def unlink (s : Fs) (d : Ino) (name : Text) : Fs × Res :=
  if !s.isDir d then (s, .failed .ENOTDIR)
  else
    match s.lookup d name with
    | none => (s, .failed .ENOENT)
    | some e =>
        if s.isDir e then (s, .failed .EISDIR)
        else ((s.remove d name).setLinks e (wrapLinks (s.nlink e + (2 ^ 32 - 1))), .done)

def rmdir (s : Fs) (d : Ino) (name : Text) : Fs × Res :=
  if !s.isDir d then (s, .failed .ENOTDIR)
  else
    match s.lookup d name with
    | none => (s, .failed .ENOENT)
    | some e =>
        if !s.isDir e then (s, .failed .ENOTDIR)
        else if !(s.entries e).entries.isEmpty then (s, .failed .ENOTEMPTY)
        else (s.remove d name, .done)

/-- The entry that was taken out goes to its new place. -/
def attach (s : Fs) (d : Ino) (name : Text) (i : Ino) : Fs :=
  (s.modify i fun node => { node with parent := some d }).insert d name i

/-- Something that `rename` will not replace. -/
def full (s : Fs) (d : Ino) (name : Text) : Bool :=
  (s.lookup d name).any fun i => s.isDir i && !(s.entries i).entries.isEmpty

def rename (s : Fs) (a : Ino) (old : Text) (b : Ino) (new : Text) : Fs × Res :=
  match s.lookup a old with
  | none => (s, .failed .ENOENT)
  | some i =>
      if !(s.remove a old).full b new then ((s.remove a old).attach b new i, .done)
      -- the lock of the directory is held for the look at the other entry
      else if a = b then (s.remove a old, .hangs)
      else ((s.remove a old).insert a old i, .failed .ENOTEMPTY)

end Fs

inductive TreeOp where
  | create (d : Ino) (name : Text) (kind : Kind)
  | link (d : Ino) (name : Text) (target : Ino)
  | unlink (d : Ino) (name : Text)
  | rmdir (d : Ino) (name : Text)
  | rename (a : Ino) (old : Text) (b : Ino) (new : Text)
  | opens (i : Ino)
  | closes (i : Ino)

/-- The file system after an operation, with how that ended. -/
structure Ran where
  fs : Fs
  res : Res := .done

namespace Ran

def of (r : Fs × Res) : Ran := ⟨r.1, r.2⟩

/-- Callers have inodes that are somewhere. -/
def step (w : Ran) : TreeOp → Option Ran
  | .create d name kind => if w.fs.alive d then some (of (w.fs.create d name kind)) else none
  | .link d name target =>
      if w.fs.alive d && w.fs.alive target then some (of (w.fs.link d name target)) else none
  | .unlink d name => if w.fs.alive d then some (of (w.fs.unlink d name)) else none
  | .rmdir d name => if w.fs.alive d then some (of (w.fs.rmdir d name)) else none
  | .rename a old b new =>
      if w.fs.alive a && w.fs.alive b then some (of (w.fs.rename a old b new)) else none
  | .opens i =>
      if w.fs.alive i then some ⟨{ w.fs with held := i :: w.fs.held }, .done⟩ else none
  | .closes i => some ⟨{ w.fs with held := w.fs.held.erase i }, .done⟩

/-- What is asked of an operation. -/
structure Good (w t : Ran) : Prop where
  /-- One path leads to each directory that is not removed. -/
  tree : ∀ i, t.fs.isDir i = true → i = Fs.root ∨ t.fs.count i ≠ 0 →
    ∃! p, t.fs.walk Fs.root p = some i
  /-- A directory that was removed has no entry and keeps its count. -/
  links : ∀ i, t.fs.alive i = true → i ≠ Fs.root →
    t.fs.isDir i = true ∧ t.fs.count i = 0 ∨ t.fs.nlink i = t.fs.count i
  error : ∀ e, t.res = .failed e → ∀ d name, t.fs.lookup d name = w.fs.lookup d name

end Ran

/-!
## What a change to a node or an entry changes

One lemma for each way to look at a file system and each change: what an entry names, which
inodes are directories, the counts of links, and how many entries name an inode.
-/

namespace Fs

variable {s : Fs} {i j d b : Ino} {name : Text} {e : Entries}

/-! ### The entries of one directory -/

def vals (e : Entries) : List Ino := e.entries.map Sigma.snd

theorem count_erase (h : e.lookup name = some j) (i : Ino) :
    (vals (e.erase name)).count i + [j].count i = (vals e).count i := by
  have hmem : Sigma.mk name j ∈ e.entries := AList.mem_lookup_iff.mp h
  obtain ⟨b, front, back, -, heq, herase⟩ := List.exists_of_kerase (List.mem_keys_of_mem hmem)
  have hb : b = j := by
    have hmem' : Sigma.mk name b ∈ e.entries := by
      rw [heq]
      exact List.mem_append_right _ List.mem_cons_self
    exact Option.some.inj ((AList.mem_lookup_iff.mpr hmem').symm.trans h)
  subst hb
  have hvals : vals (e.erase name) = (front ++ back).map Sigma.snd := congrArg _ herase
  have hcons : (Sigma.mk name b :: back).map Sigma.snd = [b] ++ back.map Sigma.snd := rfl
  rw [hvals, vals, heq, List.map_append, List.map_append, hcons, List.count_append,
    List.count_append, List.count_append]
  omega

theorem count_insert (e : Entries) (name : Text) (i j : Ino) :
    (vals (e.insert name j)).count i = (vals (e.erase name)).count i + [j].count i := by
  rw [vals, AList.entries_insert, List.map_cons, List.count_cons, List.count_singleton]
  rfl

/-! ### What changing a node changes -/

theorem sum_map_modify {α : Type*} (l : List α) (i : Nat) (f : α → α) (g : α → Nat) {x : α}
    (hx : l[i]? = some x) : ((l.modify i f).map g).sum + g x = (l.map g).sum + g (f x) := by
  induction l generalizing i with
  | nil => cases hx
  | cons y l ih =>
      cases i with
      | zero =>
          cases hx
          rw [List.modify_zero_cons, List.map_cons, List.sum_cons, List.map_cons, List.sum_cons]
          omega
      | succ i =>
          have hrest := ih i hx
          rw [List.modify_succ_cons, List.map_cons, List.sum_cons, List.map_cons, List.sum_cons]
          omega

section Modify

variable {f : Node → Node}

theorem getElem?_modify (s : Fs) (i j : Ino) (f : Node → Node) :
    (s.modify i f).nodes[j]? = if i = j then (s.nodes[j]?).map f else s.nodes[j]? := by
  rw [modify, List.getElem?_modify]
  cases s.nodes[j]? with
  | none => exact (ite_self none).symm
  | some node =>
      change some _ = _
      split
      · rfl
      · rfl

theorem isDir_modify (hf : ∀ node, (f node).kind = node.kind) (s : Fs) (i j : Ino) :
    (s.modify i f).isDir j = s.isDir j := by
  rw [isDir, getElem?_modify, isDir]
  split
  · cases s.nodes[j]? with
    | none => rfl
    | some node => rw [Option.map_some, Option.any_some, Option.any_some, hf]
  · rfl

theorem entries_modify (hf : ∀ node, (f node).entries = node.entries) (s : Fs) (i j : Ino) :
    (s.modify i f).entries j = s.entries j := by
  rw [entries, getElem?_modify, entries]
  split
  · cases s.nodes[j]? with
    | none => rfl
    | some node => rw [Option.map_some, Option.map_some, Option.map_some, hf]
  · rfl

theorem nlink_modify (hf : ∀ node, (f node).nlink = node.nlink) (s : Fs) (i j : Ino) :
    (s.modify i f).nlink j = s.nlink j := by
  rw [nlink, getElem?_modify, nlink]
  split
  · cases s.nodes[j]? with
    | none => rfl
    | some node => rw [Option.map_some, Option.map_some, Option.map_some, hf]
  · rfl

theorem count_modify (hf : ∀ node, (f node).entries = node.entries) (s : Fs) (i j : Ino) :
    (s.modify i f).count j = s.count j := by
  cases hi : s.nodes[i]? with
  | none =>
      rw [modify, List.modify_eq_self (List.getElem?_eq_none_iff.mp hi)]
  | some node =>
      have hsum := sum_map_modify s.nodes i f
        (fun node => (node.entries.entries.map Sigma.snd).count j) hi
      simp only [hf] at hsum
      exact Nat.add_right_cancel hsum

end Modify

theorem lt_of_isDir (h : s.isDir d = true) : d < s.nodes.length := by
  by_contra hge
  rw [isDir, List.getElem?_eq_none (Nat.le_of_not_lt hge)] at h
  cases h

theorem isDir_setEntries (s : Fs) (d : Ino) (e : Entries) (i : Ino) :
    (s.setEntries d e).isDir i = s.isDir i := by
  rw [setEntries]
  refine isDir_modify ?_ s d i
  exact fun _ => rfl

theorem nlink_setEntries (s : Fs) (d : Ino) (e : Entries) (i : Ino) :
    (s.setEntries d e).nlink i = s.nlink i := by
  rw [setEntries]
  refine nlink_modify ?_ s d i
  exact fun _ => rfl

theorem entries_setEntries (hd : d < s.nodes.length) (e : Entries) (i : Ino) :
    (s.setEntries d e).entries i = if d = i then e else s.entries i := by
  rw [entries, setEntries, getElem?_modify, entries]
  split
  · next h =>
      subst h
      rw [List.getElem?_eq_getElem hd]
      rfl
  · rfl

theorem count_setEntries (hd : d < s.nodes.length) (e : Entries) (i : Ino) :
    (s.setEntries d e).count i + (vals (s.entries d)).count i = s.count i + (vals e).count i := by
  have hget := List.getElem?_eq_getElem hd
  have hsum := sum_map_modify s.nodes d (fun node => { node with entries := e })
    (fun node => (node.entries.entries.map Sigma.snd).count i) hget
  rw [entries, hget]
  exact hsum

theorem isDir_setLinks (s : Fs) (i : Ino) (n : Nat) (j : Ino) :
    (s.setLinks i n).isDir j = s.isDir j := by
  rw [setLinks]
  refine isDir_modify ?_ s i j
  exact fun _ => rfl

theorem entries_setLinks (s : Fs) (i : Ino) (n : Nat) (j : Ino) :
    (s.setLinks i n).entries j = s.entries j := by
  rw [setLinks]
  refine entries_modify ?_ s i j
  exact fun _ => rfl

theorem count_setLinks (s : Fs) (i : Ino) (n : Nat) (j : Ino) :
    (s.setLinks i n).count j = s.count j := by
  rw [setLinks]
  refine count_modify ?_ s i j
  exact fun _ => rfl

theorem nlink_setLinks (hi : i < s.nodes.length) (n : Nat) (j : Ino) :
    (s.setLinks i n).nlink j = if i = j then n else s.nlink j := by
  rw [nlink, setLinks, getElem?_modify, nlink]
  split
  · next h =>
      subst h
      rw [List.getElem?_eq_getElem hi]
      rfl
  · rfl

/-! ### What the changes of an entry change -/

theorem lookup_eq_none (hd : s.nodes.length ≤ d) (name : Text) : s.lookup d name = none := by
  rw [lookup, entries, List.getElem?_eq_none hd]
  rfl

theorem lt_of_lookup (h : s.lookup d name = some i) : d < s.nodes.length := by
  by_contra hge
  rw [lookup_eq_none (Nat.le_of_not_lt hge)] at h
  cases h

theorem lookup_insert (hd : d < s.nodes.length) (name : Text) (i b : Ino) (l : Text) :
    (s.insert d name i).lookup b l = if b = d ∧ l = name then some i else s.lookup b l := by
  rw [lookup, insert, entries_setEntries hd, lookup]
  by_cases hb : d = b
  · subst hb
    rw [if_pos rfl]
    by_cases hl : l = name
    · rw [if_pos ⟨rfl, hl⟩, hl, AList.lookup_insert]
    · rw [if_neg fun h => hl h.2, AList.lookup_insert_ne hl]
  · rw [if_neg hb, if_neg fun h => hb h.1.symm]

theorem lookup_remove (hd : d < s.nodes.length) (name : Text) (b : Ino) (l : Text) :
    (s.remove d name).lookup b l = if b = d ∧ l = name then none else s.lookup b l := by
  rw [lookup, remove, entries_setEntries hd, lookup]
  by_cases hb : d = b
  · subst hb
    rw [if_pos rfl]
    by_cases hl : l = name
    · rw [if_pos ⟨rfl, hl⟩, hl, AList.lookup_erase]
    · rw [if_neg fun h => hl h.2, AList.lookup_erase_ne hl]
  · rw [if_neg hb, if_neg fun h => hb h.1.symm]

theorem isDir_insert (s : Fs) (d : Ino) (name : Text) (i b : Ino) :
    (s.insert d name i).isDir b = s.isDir b := isDir_setEntries s d _ b

theorem isDir_remove (s : Fs) (d : Ino) (name : Text) (b : Ino) :
    (s.remove d name).isDir b = s.isDir b := isDir_setEntries s d _ b

theorem nlink_insert (s : Fs) (d : Ino) (name : Text) (i b : Ino) :
    (s.insert d name i).nlink b = s.nlink b := nlink_setEntries s d _ b

theorem nlink_remove (s : Fs) (d : Ino) (name : Text) (b : Ino) :
    (s.remove d name).nlink b = s.nlink b := nlink_setEntries s d _ b

theorem length_modify (s : Fs) (i : Ino) (f : Node → Node) :
    (s.modify i f).nodes.length = s.nodes.length := List.length_modify f s.nodes i

theorem count_remove (h : s.lookup d name = some j) (i : Ino) :
    (s.remove d name).count i + [j].count i = s.count i := by
  have hset := count_setEntries (lt_of_lookup h) ((s.entries d).erase name) i
  have herase := count_erase h i
  change (s.setEntries d _).count i + _ = _
  omega

theorem count_remove_none (h : s.lookup d name = none) (hd : d < s.nodes.length) (i : Ino) :
    (s.remove d name).count i = s.count i := by
  have hset := count_setEntries hd ((s.entries d).erase name) i
  have herase : ((s.entries d).erase name).entries = (s.entries d).entries :=
    List.kerase_of_notMem_keys (AList.lookup_eq_none.mp h)
  rw [vals, vals, herase] at hset
  exact Nat.add_right_cancel hset

theorem count_insert_remove (hd : d < s.nodes.length) (name : Text) (i j : Ino) :
    (s.insert d name j).count i = (s.remove d name).count i + [j].count i := by
  have hset := count_setEntries hd ((s.entries d).insert name j) i
  have hset' := count_setEntries hd ((s.entries d).erase name) i
  have hvals := count_insert (s.entries d) name i j
  change (s.setEntries d _).count i = (s.setEntries d _).count i + _
  omega

theorem count_pos (h : s.lookup d name = some i) : s.count i ≠ 0 := by
  have hremove := count_remove h i
  rw [List.count_singleton_self] at hremove
  omega

theorem exists_lookup (h : s.count i ≠ 0) : ∃ d name, s.lookup d name = some i := by
  obtain ⟨n, hn, hpos⟩ := List.sum_pos_iff_exists_pos_nat.mp (Nat.pos_of_ne_zero h)
  obtain ⟨node, hnode, rfl⟩ := List.mem_map.mp hn
  obtain ⟨entry, hentry, rfl⟩ := List.mem_map.mp (List.count_pos_iff.mp hpos)
  obtain ⟨d, hd, rfl⟩ := List.mem_iff_getElem.mp hnode
  refine ⟨d, entry.1, ?_⟩
  rw [lookup, entries, List.getElem?_eq_getElem hd]
  exact AList.mem_lookup_iff.mpr hentry

end Fs

end MindOS.Kernel.Tmpfs
