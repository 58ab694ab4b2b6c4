import MindOS.Text.Basic
import MindOS.Transition
import Mathlib.Logic.Function.Basic

/-!
# Pruning a kept root

`snapshot-prune` removes the empty subvolumes that systemd has made in a snapshot, so that Snapper
can delete it. The snapshot is read-only, and is writable while its children are deleted; these are
made read-only before they are looked at. Each call is one step, and so is each change of a local
variable that the clean-up reads. Any call can fail, a signal can come before any step, and others
write in the children meanwhile. A subvolume that is made in a child is an entry of it.
-/

namespace MindOS.Base.Prune

/-- A nested subvolume of the snapshot. -/
structure Sub where
  id : Nat
  readOnly : Bool
  entries : Nat

structure Fs where
  /-- The flag of the snapshot. -/
  readOnly : Bool
  /-- Where the iterator looks, by paths relative to the snapshot. -/
  paths : List Text
  subs : Text → Option Sub

namespace Fs

/-- `btrfsutil.SubvolumeIterator` -/
def children (fs : Fs) : List (Text × Nat) :=
  fs.paths.filterMap fun p => (fs.subs p).map fun sub => (p, sub.id)

def modify (fs : Fs) (p : Text) (f : Sub → Sub) : Fs :=
  { fs with subs := Function.update fs.subs p ((fs.subs p).map f) }

/-- `btrfsutil.set_subvolume_read_only`, of a child -/
def setReadOnly (fs : Fs) (p : Text) (flag : Bool) : Fs :=
  fs.modify p fun sub => { sub with readOnly := flag }

/-- `btrfsutil.delete_subvolume` -/
def delete (fs : Fs) (p : Text) : Fs := { fs with subs := Function.update fs.subs p none }

end Fs

/-- `SYSTEM_DIRS` -/
def systemDirs : List Text := ["var/lib/machines", "var/lib/portables"]

/-- What is said of the snapshot before anything is changed. -/
structure Root where
  /-- It was kept by a restore. -/
  kept : Bool
  received : Bool
  isDefault : Bool
  mounted : Bool

/-- The next step. -/
inductive Pc where
  | start
  /-- The first loop: the children that are left. -/
  | inspect (rest : List (Text × Nat))
  | flag (child : Text) (rest : List (Text × Nat))
  | freeze (child : Text) (rest : List (Text × Nat))
  | noteFrozen (child : Text) (rest : List (Text × Nat))
  | scan (child : Text) (rest : List (Text × Nat))
  | unlock
  | noteUnlocked
  /-- The second loop. -/
  | delete (rest : List Text)
  /-- `finally` -/
  | lock
  /-- The loop of the inner `finally`. -/
  | thaw (rest : List Text)
  | thawOne (child : Text) (rest : List Text)
  | done

structure State where
  fs : Fs
  pc : Pc := .start
  children : List (Text × Nat) := []
  frozen : List Text := []
  parentWritable : Bool := false
  removed : Nat := 0
  raised : Bool := false

namespace State

def goto (s : State) (pc : Pc) : State := { s with pc }

/-- An exception at the next step, if that is not after the end. -/
def raise (s : State) : State :=
  match s.pc with
  | .start | .thaw _ | .thawOne _ _ | .done => { s with pc := .done, raised := true }
  | .lock => { s with pc := .thaw s.frozen, raised := true }
  | _ => { s with pc := .lock, raised := true }

/-- Up to the `try`. -/
def begin (root : Root) (s : State) : State :=
  if !root.kept then s.goto .done
  else if !s.fs.readOnly || root.received || root.isDefault || root.mounted then s.raise
  else
    let children := s.fs.children
    if children.isEmpty then s.goto .done
    else if children.any fun c => decide (c.1 ∉ systemDirs) then s.raise
    else { s with children, pc := .inspect children }

/-- The next step, if its call does not fail. -/
def next (root : Root) (s : State) : State :=
  match s.pc with
  | .start => s.begin root
  | .inspect [] => s.goto .unlock
  | .inspect ((child, id) :: rest) =>
      if (s.fs.subs child).any (·.id = id) then s.goto (.flag child rest) else s.raise
  | .flag child rest =>
      match s.fs.subs child with
      | none => s.raise
      | some sub => s.goto (if sub.readOnly then .scan child rest else .freeze child rest)
  | .freeze child rest =>
      match s.fs.subs child with
      | none => s.raise
      | some _ => { s with fs := s.fs.setReadOnly child true, pc := .noteFrozen child rest }
  | .noteFrozen child rest => { s with frozen := s.frozen ++ [child], pc := .scan child rest }
  | .scan child rest =>
      match s.fs.subs child with
      | none => s.raise
      | some sub => if sub.entries = 0 then s.goto (.inspect rest) else s.raise
  | .unlock => { s with fs := { s.fs with readOnly := false }, pc := .noteUnlocked }
  | .noteUnlocked =>
      { s with parentWritable := true, pc := .delete (s.children.map Prod.fst) }
  | .delete [] => s.goto .lock
  | .delete (child :: rest) =>
      match s.fs.subs child with
      | none => s.raise
      | some _ => { s with fs := s.fs.delete child, removed := s.removed + 1, pc := .delete rest }
  | .lock =>
      { s with
        fs := if s.parentWritable then { s.fs with readOnly := true } else s.fs
        pc := .thaw s.frozen }
  | .thaw [] => s.goto .done
  | .thaw (child :: rest) =>
      s.goto (if (s.fs.subs child).isSome then .thawOne child rest else .thaw rest)
  | .thawOne child rest => { s with fs := s.fs.setReadOnly child false, pc := .thaw rest }
  | .done => s

end State

inductive Action where
  | go
  /-- The next call fails. -/
  | fail
  /-- `InterruptedError` -/
  | sigterm
  /-- A writer makes an entry, or removes one. -/
  | write (child : Text)
  | erase (child : Text)

/-- A writer changes the entries of a child that can be written. -/
def State.edit (s : State) (child : Text) (f : Nat → Nat) : Option State :=
  if (s.fs.subs child).any (!·.readOnly) then
    some { s with fs := s.fs.modify child fun sub => { sub with entries := f sub.entries } }
  else none

def step (root : Root) (s : State) : Action → Option State
  | .go =>
      match s.pc with
      | .done => none
      | _ => some (s.next root)
  | .fail =>
      match s.pc with
      | .noteFrozen _ _ | .noteUnlocked | .done => none
      | _ => some s.raise
  | .sigterm =>
      match s.pc with
      | .done => none
      | _ => some s.raise
  | .write child => s.edit child (· + 1)
  | .erase child => s.edit child (· - 1)

end MindOS.Base.Prune
