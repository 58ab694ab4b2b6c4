import MindOS.Text.Paths

/-!
# Path resolution and the mount table

A path is walked component by component, over mounts and back, and a symbolic link on the way is
resolved by the same function one level deeper.
-/

namespace MindOS.Kernel.Fs

open Text

inductive Kind where
  | file | dir | symlink | charDev | blockDev | fifo | socket
  deriving DecidableEq, Repr

inductive PathErrno where
  | ENOENT | ENOTDIR | ELOOP | ENAMETOOLONG | EINVAL
  /-- Any other error of an inode. -/
  | other (code : Nat)
  deriving DecidableEq, Repr

structure Mount (N : Type) where
  /-- The identity of the directory the file system is mounted on. -/
  on : Nat × Nat
  mountpoint : N
  root : N
  path : Text
  deriving DecidableEq

/-- The inodes of all file systems, and the mount table over them. -/
structure Vfs (N : Type) where
  root : N
  ident : N → Nat × Nat
  kind : N → Kind
  lookup : N → Text → Except PathErrno N
  readlink : N → Except PathErrno Text
  /-- Above a directory is a directory. -/
  lookup_up : ∀ {x y}, lookup x "..".toList = .ok y → kind y = .dir
  mounts : List (Mount N)

structure Resolved (N : Type) where
  /-- The directory with the last component. -/
  parent : N
  /-- The target itself, if it exists. -/
  inode : Option N
  /-- The last component, none of a path without components. -/
  name : Text
  deriving DecidableEq

namespace Vfs

variable {N : Type}

/-- What is mounted on a directory, or the directory. -/
def crossMount (v : Vfs N) (dir : N) : N :=
  match v.mounts.reverse.find? (·.on = v.ident dir) with
  | some m => m.root
  | none => dir

/-- The mount point under the root of a mounted file system, or the directory. -/
def uncrossMount (v : Vfs N) (dir : N) : N :=
  match v.mounts.find? (v.ident ·.root = v.ident dir) with
  | some m => m.mountpoint
  | none => dir

/-- Where `..` leads. -/
def up (v : Vfs N) (cur : N) : Except PathErrno N :=
  if v.ident (v.uncrossMount cur) = v.ident v.root then .ok v.root
  else v.lookup (v.uncrossMount cur) "..".toList

/-- Where a name leads, if it is there. -/
def enter (v : Vfs N) (cur : N) (name : Text) : Except PathErrno (Option N) :=
  match v.lookup cur name with
  | .ok i => .ok (some (v.crossMount i))
  | .error .ENOENT => .ok none
  | .error e => .error e

def next (v : Vfs N) (cur : N) (comp : Text) : Except PathErrno (Option N) :=
  if comp = ".".toList then .ok (some cur)
  else if comp = "..".toList then (v.up cur).map some
  else v.enter cur comp

/-- The components of a path from `cur` on; `link` resolves the target of a symbolic link. -/
def walkComps (v : Vfs N) (follow trailingSlash : Bool)
    (link : N → Text → Option (Except PathErrno (Resolved N))) :
    N → List Text → Option (Except PathErrno (Resolved N))
  -- only a path without components gets here
  | cur, [] => some (.ok ⟨cur, some cur, []⟩)
  | cur, comp :: rest =>
      if 255 < len comp then some (.error .ENAMETOOLONG)
      else if v.kind cur ≠ .dir then some (.error .ENOTDIR)
      else match v.next cur comp with
        | .error e => some (.error e)
        | .ok none =>
            if rest = [] then some (.ok ⟨cur, none, comp⟩) else some (.error .ENOENT)
        | .ok (some next) =>
            if v.kind next = .symlink ∧ (rest ≠ [] ∨ follow ∨ trailingSlash) then
              match v.readlink next with
              | .error e => some (.error e)
              | .ok target =>
                  match link cur target with
                  | none => none
                  | some (.error e) => some (.error e)
                  | some (.ok r) =>
                      if rest = [] then
                        if trailingSlash ∧ r.inode.any (v.kind · ≠ .dir) then
                          some (.error .ENOTDIR)
                        else some (.ok { r with name := if r.name = [] then comp else r.name })
                      else match r.inode with
                        | none => some (.error .ENOENT)
                        | some i => walkComps v follow trailingSlash link i rest
            else if rest = [] then
              if trailingSlash ∧ v.kind next ≠ .dir then some (.error .ENOTDIR)
              else some (.ok ⟨cur, some next, comp⟩)
            else walkComps v follow trailingSlash link next rest

/-- The components of a path that are not empty. -/
def comps (path : Text) : List Text := (components path).filter (· ≠ [])

/-- The resolution of a path at some depth of links; nothing when the fuel is used up. -/
def resolveInner (v : Vfs N) :
    Nat → N → Text → Bool → Nat → Option (Except PathErrno (Resolved N))
  | 0, _, _, _, _ => none
  | fuel + 1, base, path, follow, depth =>
      if 40 < depth then some (.error .ELOOP)
      else if 4096 < len path then some (.error .ENAMETOOLONG)
      else
        walkComps v follow (path.getLast? = some '/')
          (fun cur target => resolveInner v fuel cur target true (depth + 1))
          (if isAbsolute path then v.root else base) (comps path)

/-- The fuel covers the links that are followed and the call that says that they are too many. -/
def resolvePath (v : Vfs N) (base : N) (path : Text) (follow : Bool) :
    Option (Except PathErrno (Resolved N)) := v.resolveInner 42 base path follow 0

end Vfs

/-- `parts` after one more component. -/
def pushPart (parts : List Text) (c : Text) : List Text :=
  if c = [] ∨ c = ".".toList then parts
  else if c = "..".toList then parts.dropLast
  else parts ++ [c]

/-- The lexical normal form of an absolute path. -/
def normalize (path : Text) : Text :=
  '/' :: ['/'].intercalate ((components path).foldl pushPart [])

namespace Vfs

variable {N : Type}

def mount (v : Vfs N) (path : Text) (fsRoot : N) : Option (Except PathErrno (Vfs N)) :=
  match v.resolvePath v.root path true with
  | none => none
  | some (.error e) => some (.error e)
  | some (.ok r) =>
      match r.inode with
      | none => some (.error .ENOENT)
      | some mp =>
          if v.kind mp ≠ .dir then some (.error .ENOTDIR)
          else
            some (.ok { v with mounts := v.mounts ++ [⟨v.ident mp, mp, fsRoot, normalize path⟩] })

def umount (v : Vfs N) (path : Text) : Except PathErrno (Vfs N) :=
  match v.mounts.findIdx? (·.path = normalize path) with
  | none => .error .EINVAL
  | some idx => .ok { v with mounts := v.mounts.eraseIdx idx }

/-! ### Links -/

variable {v : Vfs N}

theorem walkComps_isSome {follow trailingSlash : Bool}
    {link : N → Text → Option (Except PathErrno (Resolved N))}
    (hlink : ∀ cur target, (link cur target).isSome) (cur : N) (cs : List Text) :
    (v.walkComps follow trailingSlash link cur cs).isSome := by
  induction cs generalizing cur with
  | nil => rfl
  | cons comp rest ih =>
      rw [walkComps]
      split
      · rfl
      split
      · rfl
      split
      · rfl
      · split <;> rfl
      split
      · split
        · rfl
        rename_i target _
        obtain ⟨res, hres⟩ := Option.isSome_iff_exists.mp (hlink cur target)
        rw [hres]
        cases res with
        | error e => rfl
        | ok r =>
            dsimp only
            split
            · split <;> rfl
            · split
              · rfl
              · exact ih _
      · split
        · split <;> rfl
        · exact ih _

theorem resolveInner_isSome {fuel : Nat} (base : N) (path : Text) (follow : Bool) {depth : Nat}
    (h : 42 ≤ fuel + depth) (hfuel : 0 < fuel) :
    (v.resolveInner fuel base path follow depth).isSome := by
  induction fuel generalizing base path follow depth with
  | zero => omega
  | succ fuel ih =>
      rw [resolveInner]
      split
      · rfl
      split
      · rfl
      · exact walkComps_isSome
          (fun cur target => ih cur target true (by omega) (by omega)) _ _

theorem resolvePath_isSome (base : N) (path : Text) (follow : Bool) :
    (v.resolvePath base path follow).isSome :=
  resolveInner_isSome base path follow (by omega) (by omega)

/-! ### Mounts -/

theorem mount_spec {v' : Vfs N} {path : Text} {fsRoot : N}
    (h : v.mount path fsRoot = some (.ok v')) :
    ∃ m : Mount N, m.path = normalize path ∧ v' = { v with mounts := v.mounts ++ [m] } := by
  rw [mount] at h
  split at h
  · cases h
  · cases h
  split at h
  · cases h
  split at h
  · cases h
  · cases h
    exact ⟨_, rfl, rfl⟩

/-- A file system that is the only one at its path is the one that is taken off. -/
theorem umount_mount {v' : Vfs N} {path : Text} {fsRoot : N}
    (h : v.mount path fsRoot = some (.ok v')) (hfree : ∀ m ∈ v.mounts, m.path ≠ normalize path) :
    v'.umount path = .ok v ∧
      ∀ w, v'.umount path = .ok w → ∀ base p follow,
        w.resolvePath base p follow = v.resolvePath base p follow := by
  obtain ⟨m, hpath, rfl⟩ := mount_spec h
  have hidx : (v.mounts ++ [m]).findIdx? (·.path = normalize path) = some v.mounts.length := by
    have hnone : v.mounts.findIdx? (·.path = normalize path) = none :=
      List.findIdx?_eq_none_iff.mpr fun e he => decide_eq_false (hfree e he)
    rw [List.findIdx?_append, hnone, List.findIdx?_singleton, if_pos (decide_eq_true hpath)]
    simp
  have hback : umount { v with mounts := v.mounts ++ [m] } path = .ok v := by
    have herase : (v.mounts ++ [m]).eraseIdx v.mounts.length = v.mounts := by
      rw [List.eraseIdx_append_of_length_le le_rfl, Nat.sub_self]
      exact List.append_nil _
    simp only [umount, hidx, herase]
  refine ⟨hback, fun w hw base p follow => ?_⟩
  rw [hback] at hw
  rw [Except.ok.inj hw]

/-- The root, two directories in it, and the roots of three file systems. -/
def twoLevels : Vfs (Fin 6) where
  root := 0
  ident n := (0, n)
  kind _ := .dir
  lookup n name :=
    if name = "..".toList then .ok (if n = 1 ∨ n = 4 then 0 else n)
    else if n = 0 ∧ name = "a".toList then .ok 1
    else if n = 0 ∧ name = "b".toList then .ok 4
    else .error .ENOENT
  readlink _ := .error .EINVAL
  lookup_up _ := rfl
  mounts := []

theorem umount_mount_root :
    ∃ v v', twoLevels.mount "/b".toList 5 = some (.ok v) ∧
      v.mount "/a".toList 2 = some (.ok v') ∧
      (v'.umount "/a".toList = .ok v ∧
        ∀ w, v'.umount "/a".toList = .ok w → ∀ base p follow,
          w.resolvePath base p follow = v.resolvePath base p follow) :=
  ⟨_, _, rfl, rfl, umount_mount rfl (by decide)⟩

/-- Of two file systems at one path the older one is taken off, and with it what the path
resolved to. -/
theorem not_umount_mount :
    ∃ v v' w : Vfs (Fin 6), twoLevels.mount "/a".toList 2 = some (.ok v) ∧
      v.mount "/a".toList 3 = some (.ok v') ∧ v'.umount "/a".toList = .ok w ∧
      ((v.resolvePath 0 "/a".toList true).map fun r => r.toOption.bind Resolved.inode) =
        some (some 2) ∧
      ((w.resolvePath 0 "/a".toList true).map fun r => r.toOption.bind Resolved.inode) =
        some (some 1) :=
  ⟨_, _, _, rfl, rfl, rfl, by decide, by decide⟩

end Vfs

end MindOS.Kernel.Fs
