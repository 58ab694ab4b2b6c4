import Mathlib.Logic.Function.Basic
import MindOS.Steps
import MindOS.Text.Basic

/-!
# The storage of games

## Folders and links

What the game scripts see of a disk: at a path there is a folder, a symbolic link or another
file. A folder is what walking it finds. Links are followed as often as the kernel does it.
-/

namespace MindOS.Games

/-- A path by the folder it is in and its name. -/
structure Path where
  folder : List Text
  name : Text
  deriving DecidableEq

namespace Path

def parts (p : Path) : List Text := p.folder ++ [p.name]

/-- `is_relative_to` -/
def within (p q : List Text) : Bool := q.isPrefixOf p

/-- `with_name(name + s)` -/
def suffixed (p : Path) (s : Text) : Path := { p with name := p.name ++ s }

variable {p q : Path} {s t : Text}

theorem suffixed_ne_self (hs : s ≠ []) : p.suffixed s ≠ p := by
  intro heq
  have hlen := congrArg (fun p : Path => p.name.length) heq
  simp only [suffixed, List.length_append] at hlen
  exact hs (List.length_eq_zero_iff.mp (by omega))

theorem suffixed_ne_suffixed (hs : s ≠ []) (ht : t ≠ []) (hlast : s.getLast? ≠ t.getLast?) :
    p.suffixed s ≠ q.suffixed t := by
  intro heq
  have hname := congrArg (fun p : Path => p.name.getLast?) heq
  simp only [suffixed, List.getLast?_append_of_ne_nil _ hs,
    List.getLast?_append_of_ne_nil _ ht] at hname
  exact hlast hname

theorem suffixed_ne_of_mem {c : Char} (hs : c ∈ s) (hq : c ∉ q.name) : p.suffixed s ≠ q := by
  rintro rfl
  exact hq (List.mem_append_right _ hs)

end Path

/-- What a folder has under a relative path. -/
inductive Item where
  | file (bytes : List UInt8)
  | directory
  | link (target : Text)
  | special
  deriving DecidableEq

/-- What walking a folder finds, in the order in which it does. -/
structure Tree where
  items : List (List Text × Item)
  nodup : (items.map Prod.fst).Nodup

def Tree.empty : Tree := ⟨[], List.nodup_nil⟩

inductive Node where
  | dir (t : Tree)
  | link (target : Path)
  | other

/-- What is at each path, if anything is. -/
abbrev Disk := Path → Option Node

namespace Disk

variable (d : Disk)

def follow : Nat → Path → Path
  | 0, p => p
  | n + 1, p =>
      match d p with
      | some (.link q) => follow n q
      | _ => p

def resolve (p : Path) : Path := d.follow 40 p

/-- `exists`, which follows links. -/
def there (p : Path) : Bool := (d (d.resolve p)).isSome

def isSymlink (p : Path) : Bool :=
  match d p with
  | some (.link _) => true
  | _ => false

/-- The folder at a path, or at the end of the links from it. -/
def tree? (p : Path) : Option Tree :=
  match d (d.resolve p) with
  | some (.dir t) => some t
  | _ => none

/-- What walking a path finds: nothing if it is no folder. -/
def walk (p : Path) : Tree := (d.tree? p).getD .empty

def put (p : Path) (n : Node) : Disk := Function.update d p (some n)

def remove (p : Path) : Disk := Function.update d p none

/-- `rename(2)`: a folder takes the place of an empty one at most, and another file that of
one that is no folder. -/
def rename (p q : Path) : Option Disk :=
  match d p with
  | none => none
  | some n =>
      if p = q then some d
      else
        match n, d q with
        | _, none => some ((d.remove p).put q n)
        | .dir _, some (.dir t) =>
            if t.items.isEmpty then some ((d.remove p).put q n) else none
        | .dir _, some _ => none
        | _, some (.dir _) => none
        | _, some _ => some ((d.remove p).put q n)

def symlink (p target : Path) : Option Disk :=
  if (d p).isSome then none else some (d.put p (.link target))

def unlink (p : Path) : Option Disk :=
  match d p with
  | none => none
  | some (.dir _) => none
  | some _ => some (d.remove p)

variable {d} {p q : Path} {n : Node} {t : Tree}

@[simp] theorem put_self : d.put p n p = some n := Function.update_self _ _ _

theorem put_of_ne (h : q ≠ p) : d.put p n q = d q := Function.update_of_ne h _ _

@[simp] theorem remove_self : d.remove p p = none := Function.update_self _ _ _

theorem remove_of_ne (h : q ≠ p) : d.remove p q = d q := Function.update_of_ne h _ _

theorem resolve_eq_self (h : d.isSymlink p = false) : d.resolve p = p := by
  rw [resolve, follow]
  rw [isSymlink] at h
  split
  · next q hq =>
      rw [hq] at h
      cases h
  · rfl

theorem there_or_isSymlink : (d.there p || d.isSymlink p) = (d p).isSome := by
  cases hlink : d.isSymlink p with
  | true =>
      rw [isSymlink] at hlink
      rw [Bool.or_true]
      split at hlink
      · next q hq => rw [hq, Option.isSome_some]
      · cases hlink
  | false => rw [Bool.or_false, there, resolve_eq_self hlink]

theorem isSymlink_of_dir (h : d p = some (.dir t)) : d.isSymlink p = false := by
  rw [isSymlink, h]

theorem tree?_of_dir (h : d p = some (.dir t)) : d.tree? p = some t := by
  rw [tree?, resolve_eq_self (isSymlink_of_dir h), h]

theorem resolve_of_link (h : d p = some (.link q)) (hq : d q = some (.dir t)) :
    d.resolve p = q := by
  rw [resolve, follow]
  simp only [h]
  rw [follow]
  simp only [hq]

theorem rename_of_none (h : d p = some n) (hq : d q = none) :
    d.rename p q = some ((d.remove p).put q n) := by
  have hne : p ≠ q := by
    rintro rfl
    rw [h] at hq
    cases hq
  rw [rename]
  simp only [h, if_neg hne, hq]

theorem symlink_of_none (h : d p = none) : d.symlink p q = some (d.put p (.link q)) :=
  if_neg (by rw [h]; exact Bool.false_ne_true)

theorem unlink_of_link (h : d p = some (.link q)) : d.unlink p = some (d.remove p) := by
  rw [unlink, h]

end Disk

end MindOS.Games

/-!
## Cold storage of games

A game's folder is moved to another disk by a verified copy, and a link takes its place; what
is in cold storage is written down. A call may raise at any of its operations; which of them
do, and what a copy or a removal has done by then, is part of the call.
-/

namespace MindOS.Games.Storage

open Commands

inductive Err where
  | value (message : Text)
  | os
  deriving DecidableEq

/-- The operations of a call, in their order. -/
inductive Op where
  | stopped
  | plan
  | stage
  | copy
  | check
  | read
  | place
  | aside
  | link
  | back
  | unlink
  | record
  | remove
  | audit
  deriving DecidableEq

/-- The beginning of the SHA-256 of a game's id, in hexadecimal. -/
structure Key where
  text : Text
  hex : ∀ c ∈ text, c ∈ "0123456789abcdef".toList

/-- A game and the folder in which its launcher looks for it. -/
structure Game where
  id : Text
  key : Key
  path : Path

structure System where
  sha256 : List UInt8 → Text
  home : List Text
  data : List Text

structure Record where
  original : Path
  cold : Path
  deriving DecidableEq

structure World where
  disk : Disk
  index : Text → Option Record

structure Call where
  restore : Bool
  /-- The configured folder, if it is a safe one. -/
  base : Option (List Text)
  free : Nat
  now : Nat
  /-- What the copy consists of, when it ends or fails. -/
  copied : Tree
  /-- What a removal leaves that fails. -/
  remains : Tree
  raises : Op → Bool

structure Plan where
  source : Path
  destination : Path
  bytes : Nat
  free : Nat
  enoughSpace : Bool

/-! ### Manifests -/

inductive Stamp where
  | file (size : Nat) (digest : Text)
  | directory
  | link (target : Text)
  deriving DecidableEq

abbrev Manifest := List (List Text × Stamp)

def specialFile (rel : List Text) : Err :=
  .value ("Special file cannot be moved: ".toList ++ ['/'].intercalate rel)

section

variable (sys : System)

def stamp (rel : List Text) : Item → Except Err (List Text × Stamp)
  | .file bytes => .ok (rel, .file bytes.length (sys.sha256 bytes))
  | .directory => .ok (rel, .directory)
  | .link target => .ok (rel, .link target)
  | .special => .error (specialFile rel)

def manifest (t : Tree) : Except Err Manifest := t.items.mapM fun item => stamp sys item.1 item.2

def itemSize : Item → Nat
  | .file bytes => bytes.length
  | _ => 0

def bytesIn (t : Tree) : Nat := (t.items.map fun item => itemSize item.2).sum

/-! ### Paths -/

def Game.coldPath (g : Game) (base : List Text) : Path := ⟨base, "mindos-".toList ++ g.key.text⟩

def Game.backup (g : Game) : Path := g.path.suffixed ".mindos-original".toList

def oldLink (dst : Path) : Path := dst.suffixed ".mindos-link".toList

def stagePath (dst : Path) (now : Nat) : Path :=
  dst.suffixed (".mindos-".toList ++ Nat.toDigits 10 now)

/-! ### Planning -/

variable (g : Game)

def planned (w : World) (c : Call) (source destination : Path) : Plan :=
  let bytes := bytesIn (w.disk.walk source)
  ⟨source, destination, bytes, c.free, decide (bytes + 64 * 1024 * 1024 < c.free)⟩

def planRestore (w : World) (c : Call) : Except Err Plan :=
  match w.index g.id with
  | none => .error (.value "Game is not in cold storage")
  | some r =>
      if !w.disk.isSymlink r.original ||
          decide (w.disk.resolve r.original ≠ w.disk.resolve r.cold) then
        .error (.value "The launcher path has changed; refusing to replace it")
      else .ok (planned w c r.cold r.original)

/-- The folder of the game has nothing that has to stay. -/
def movable (p : Path) : Bool := !(Path.within sys.home p.parts || Path.within sys.data p.parts)

def planArchive (w : World) (c : Call) : Except Err Plan :=
  if !movable sys (w.disk.resolve g.path) then
    .error (.value
      "The reported game folder contains user or system state; refusing to relocate it")
  else if w.disk.isSymlink g.path then
    .error (.value "Game is already linked; use Restore for managed cold storage")
  else
    match c.base with
    | none => .error (.value "Folder must exist and must not be the filesystem root")
    | some base =>
        if Path.within base (w.disk.resolve g.path).parts then
          .error (.value "Cold storage cannot be inside the game")
        else if w.disk.there (g.coldPath base) || w.disk.isSymlink (g.coldPath base) then
          .error (.value "Cold destination already exists")
        else .ok (planned w c g.path (g.coldPath base))

def plan (w : World) (c : Call) : Except Err Plan :=
  if c.restore then planRestore g w c else planArchive sys g w c

/-! ### Moving -/

variable (c : Call)

/-- An operation on the disk. -/
def onDisk (op : Op) (f : Disk → Option Disk) : EStateM Err World PUnit :=
  attempt (c.raises op) .os fun w => (f w.disk).map fun d => { w with disk := d }

/-- An operation of which nothing is to be seen here. -/
def pass (op : Op) : EStateM Err World PUnit := attempt (c.raises op) .os some

def writeIndex (r : Option Record) : EStateM Err World PUnit :=
  attempt (c.raises .record) .os fun w =>
    some { w with index := Function.update w.index g.id r }

def rmtree (p : Path) : EStateM Err World PUnit := do
  let w ← get
  ensure ((w.disk p).any fun n => n matches .dir _) .os
  attemptPart (c.raises .remove) .os (fun w => { w with disk := w.disk.put p (.dir c.remains) })
    fun w => { w with disk := w.disk.remove p }

def copytree (dst : Path) : EStateM Err World PUnit :=
  let copy := fun w : World => { w with disk := w.disk.put dst (.dir c.copied) }
  attemptPart (c.raises .copy) .os copy copy

def changed : Err :=
  .value ("Files changed during copying or verification failed. ".toList ++
    "The original is unchanged; the partial copy was retained for inspection.".toList)

def verifiedCopy (src dst : Path) : EStateM Err World PUnit := do
  let w ← get
  ensure (!(w.disk.there dst || w.disk.isSymlink dst)) (.value "Destination already exists")
  pass c .stage
  let before ← result (manifest sys (w.disk.walk src))
  copytree c dst
  let w ← get
  let copied ← result (manifest sys (w.disk.walk dst))
  let after ← result (manifest sys (w.disk.walk src))
  ensure (decide (copied.Perm before) && decide (after.Perm before)) changed

/-- Keeps the original cold copy until the verified warm copy is live. -/
def bringBack (src dst stage : Path) : EStateM Err World PUnit := do
  let w ← get
  ensure (!(w.disk.there (oldLink dst) || w.disk.isSymlink (oldLink dst)))
    (.value "A previous restore requires recovery")
  onDisk c .aside (·.rename dst (oldLink dst))
  tryCatch (onDisk c .place (·.rename stage dst)) fun e => do
    onDisk c .back (·.rename (oldLink dst) dst)
    throw e
  onDisk c .unlink (·.unlink (oldLink dst))
  writeIndex g c none
  rmtree c src

def putAway (src dst stage : Path) : EStateM Err World PUnit := do
  onDisk c .place (·.rename stage dst)
  let w ← get
  ensure (!(w.disk.there (src.suffixed ".mindos-original".toList) ||
      w.disk.isSymlink (src.suffixed ".mindos-original".toList)))
    (.value "A previous move requires recovery")
  onDisk c .aside (·.rename src (src.suffixed ".mindos-original".toList))
  tryCatch (onDisk c .link (·.symlink src dst)) fun e => do
    onDisk c .back (·.rename (src.suffixed ".mindos-original".toList) src)
    throw e
  writeIndex g c (some ⟨src, dst⟩)
  rmtree c (src.suffixed ".mindos-original".toList)

def move (p : Plan) (stage : Path) : EStateM Err World PUnit :=
  if c.restore then bringBack g c p.source p.destination stage
  else putAway g c p.source p.destination stage

def relocate : EStateM Err World Plan := do
  pass c .stopped
  pass c .plan
  let w ← get
  let p ← result (plan sys g w c)
  ensure p.enoughSpace (.value "Not enough free space at the destination")
  verifiedCopy sys c p.source (stagePath p.destination c.now)
  pass c .check
  pass c .read
  move g c p (stagePath p.destination c.now)
  pass c .audit
  pure p

end

end MindOS.Games.Storage
