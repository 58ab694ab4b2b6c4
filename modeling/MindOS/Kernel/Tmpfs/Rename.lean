import MindOS.Kernel.Tmpfs.Invariant

/-!
# Renaming, and runs of operations

`rename` takes the entry out before it looks at what it is to replace. It looks neither at
whether the new place is below what is moved, nor at whether it is in a directory that was
removed, nor at the links of a file that it replaces.
-/

namespace MindOS.Kernel.Tmpfs

open Transition

namespace Fs

variable {s : Fs} {i j d b : Ino} {name : Text} {e : Entries}

/-! ## Renaming -/

section Rename

variable {a : Ino} {old new : Text}

/-- What a renaming that goes through changes; `repl` is what it replaces. -/
structure Renamed (s t : Fs) (a : Ino) (old : Text) (b : Ino) (new : Text) (i : Ino)
    (repl : Option Ino) : Prop where
  lookup : ∀ d l, t.lookup d l =
    if d = b ∧ l = new then some i else if d = a ∧ l = old then none else s.lookup d l
  isDir : ∀ x, t.isDir x = s.isDir x
  nlink : ∀ x, t.nlink x = s.nlink x
  count : ∀ x, t.count x + repl.toList.count x = s.count x
  length : t.nodes.length = s.nodes.length
  held : t.held = s.held

theorem renamed (hi : s.lookup a old = some i) (hb : b < s.nodes.length) :
    Renamed s ((s.remove a old).attach b new i) a old b new i
      ((s.remove a old).lookup b new) := by
  have ha := lt_of_lookup hi
  have hlen : (s.remove a old).nodes.length = s.nodes.length := length_modify _ _ _
  have hlenP : ((s.remove a old).modify i fun node => { node with parent := some b }).nodes.length =
      s.nodes.length := (length_modify _ _ _).trans hlen
  have hentries : ∀ d, ((s.remove a old).modify i fun node =>
      { node with parent := some b }).entries d = (s.remove a old).entries d := by
    intro d
    refine entries_modify ?_ (s.remove a old) i d
    exact fun _ => rfl
  have hlookup : ∀ d l, ((s.remove a old).modify i fun node =>
      { node with parent := some b }).lookup d l = (s.remove a old).lookup d l := by
    intro d l
    rw [Fs.lookup, hentries, Fs.lookup]
  have hcount : ∀ x, ((s.remove a old).modify i fun node =>
      { node with parent := some b }).count x = (s.remove a old).count x := by
    intro x
    refine count_modify ?_ (s.remove a old) i x
    exact fun _ => rfl
  constructor
  · intro d l
    rw [attach, lookup_insert (hlenP.symm ▸ hb), hlookup, lookup_remove ha]
  · intro x
    rw [attach, isDir_insert, ← isDir_remove s a old x]
    refine isDir_modify ?_ (s.remove a old) i x
    exact fun _ => rfl
  · intro x
    rw [attach, nlink_insert, ← nlink_remove s a old x]
    refine nlink_modify ?_ (s.remove a old) i x
    exact fun _ => rfl
  · intro x
    rw [attach, count_insert_remove (hlenP.symm ▸ hb), ← count_remove hi x, ← hcount x]
    cases hrepl : (s.remove a old).lookup b new with
    | none =>
        rw [count_remove_none (by rw [hlookup, hrepl]) (hlenP.symm ▸ hb)]
        rfl
    | some k =>
        have hk := count_remove (s := (s.remove a old).modify i fun node =>
          { node with parent := some b }) (by rw [hlookup, hrepl] : _ = some k) x
        rw [Option.toList_some]
        omega
  · exact (length_modify _ _ _).trans hlenP
  · rfl

theorem Inv.no_loop (h : s.Inv) {l : Text} (hin : b = Fs.root ∨ s.count b ≠ 0)
    (hb : s.isDir b = true) : s.lookup b l ≠ some b := by
  intro hl
  obtain ⟨p, hp⟩ := h.reached hb hin
  have heq := h.tree.path_unique hp (hp.concat (h.edge hl hb))
  have hlen := congrArg List.length heq
  rw [List.length_append, List.length_singleton] at hlen
  omega

/-- When a renaming keeps the tree and the counts: it is into a directory that is there, what
is moved is not above it, and a file that is replaced has no other name and is not held. -/
structure Clear (s : Fs) (a : Ino) (old : Text) (b : Ino) (new : Text) (i : Ino) : Prop where
  target : s.isDir b = true ∧ (b = Fs.root ∨ s.count b ≠ 0)
  outside : s.isDir i = true → Tmpfs.proper new = true ∧ ∀ p, s.walk i p ≠ some b
  replaced : ∀ k, (s.remove a old).lookup b new = some k → s.isDir k = false →
    s.count k = 1 ∧ s.held.contains k = false

variable {t : Fs} {repl : Option Ino}

theorem lookup_of_remove {l : Text} {k : Ino} (hi : s.lookup a old = some i)
    (hk : (s.remove a old).lookup d l = some k) :
    s.lookup d l = some k ∧ ¬(d = a ∧ l = old) := by
  rw [lookup_remove (lt_of_lookup hi)] at hk
  split at hk
  · cases hk
  · next hne => exact ⟨hk, hne⟩

/-- The edges after the renaming, before what is replaced is taken off. -/
def MovedEdge (s : Fs) (b : Ino) (new : Text) (i : Ino) (u : Ino) (l : Text) (v : Ino) : Prop :=
  s.Edge u l v ∧ v ≠ i ∨ s.isDir i = true ∧ u = b ∧ l = new ∧ v = i

theorem Inv.tree_moved (h : s.Inv) (hi : s.lookup a old = some i) (hclear : s.Clear a old b new i) :
    Rooted.IsTree (s.MovedEdge b new i) Fs.root := by
  cases hdir : s.isDir i with
  | true =>
      have hroot : i ≠ Fs.root := by
        rintro rfl
        exact h.tree.noRoot _ _ (h.edge hi hdir)
      refine (h.tree.move (o := new) hroot (h.reached hclear.target.1 hclear.target.2) ?_).congr
        fun u l v => or_congr Iff.rfl (and_iff_right hdir)
      rintro ⟨p, hp⟩
      exact (hclear.outside hdir).2 p ((walk_iff hclear.target.1 i p).mpr hp)
  | false =>
      refine h.tree.congr fun u l v => ⟨?_, fun hedge => .inl ⟨hedge, ?_⟩⟩
      · rintro (⟨hedge, -⟩ | ⟨hdir', -⟩)
        · exact hedge
        · rw [hdir] at hdir'
          cases hdir'
      · exact (ne_of_isDir hdir hedge.2.2.2).symm

theorem Renamed.edge (h : Renamed s t a old b new i ((s.remove a old).lookup b new)) (hs : s.Inv)
    (hi : s.lookup a old = some i) (hclear : s.Clear a old b new i) (u : Ino) (l : Text)
    (v : Ino) :
    t.Edge u l v ↔ s.MovedEdge b new i u l v ∧
      ∀ k, (s.remove a old).lookup b new = some k → s.isDir k = true → v ≠ k := by
  rw [Edge, h.isDir, h.isDir, h.lookup, MovedEdge]
  have hother : ∀ k, (s.remove a old).lookup b new = some k → s.isDir k = true → i ≠ k := by
    rintro k hk hkdir rfl
    obtain ⟨hk', hne⟩ := lookup_of_remove hi hk
    obtain ⟨rfl, rfl⟩ := hs.unique hk' hi hkdir
    exact hne ⟨rfl, rfl⟩
  constructor
  · rintro ⟨hl, hu, hv, hdir⟩
    split at hv
    · next hnew =>
        obtain rfl := Option.some.inj hv
        exact ⟨.inr ⟨hdir, hnew.1, hnew.2, rfl⟩, hother⟩
    · next hnew =>
        split at hv
        · cases hv
        · next hold =>
            refine ⟨.inl ⟨⟨hl, hu, hv, hdir⟩, ?_⟩, ?_⟩
            · rintro rfl
              exact hold (hs.unique hv hi hdir)
            · rintro k hk - rfl
              exact hnew (hs.unique hv (lookup_of_remove hi hk).1 hdir)
  · rintro ⟨⟨⟨hl, hu, hv, hdir⟩, hne⟩ | ⟨hdir, rfl, rfl, rfl⟩, hrepl⟩
    · have hold : ¬(u = a ∧ l = old) := by
        rintro ⟨rfl, rfl⟩
        exact hne (Option.some.inj (hv.symm.trans hi))
      refine ⟨hl, hu, ?_, hdir⟩
      rw [if_neg, if_neg hold]
      · exact hv
      · rintro ⟨rfl, rfl⟩
        refine hrepl v ?_ hdir rfl
        rw [lookup_remove (lt_of_lookup hi), if_neg hold]
        exact hv
    · exact ⟨(hclear.outside hdir).1, hclear.target.1, if_pos ⟨rfl, rfl⟩, hdir⟩

/-- A directory that is replaced is a leaf by then. -/
theorem Inv.leaf_moved (h : s.Inv) (hi : s.lookup a old = some i)
    (hclear : s.Clear a old b new i) {k : Ino} (hk : (s.remove a old).lookup b new = some k)
    (hempty : ∀ l, (s.remove a old).lookup k l = none) (l : Text) (v : Ino) :
    ¬s.MovedEdge b new i k l v := by
  rintro (⟨⟨-, -, hv, -⟩, hne⟩ | ⟨-, rfl, -, -⟩)
  · have hnone := hempty l
    rw [lookup_remove (lt_of_lookup hi)] at hnone
    split at hnone
    · next hold =>
        obtain ⟨rfl, rfl⟩ := hold
        exact hne (Option.some.inj (hv.symm.trans hi))
    · rw [hv] at hnone
      cases hnone
  · exact h.no_loop hclear.target.2 hclear.target.1 (lookup_of_remove hi hk).1

theorem Renamed.tree (h : Renamed s t a old b new i ((s.remove a old).lookup b new)) (hs : s.Inv)
    (hi : s.lookup a old = some i) (hclear : s.Clear a old b new i)
    (hempty : ∀ k, (s.remove a old).lookup b new = some k → s.isDir k = true →
      ∀ l, (s.remove a old).lookup k l = none) : Rooted.IsTree t.Edge Fs.root := by
  have hmoved := hs.tree_moved hi hclear
  by_cases hrepl : ∃ k, (s.remove a old).lookup b new = some k ∧ s.isDir k = true
  · obtain ⟨k, hk, hkdir⟩ := hrepl
    refine (hmoved.remove (x := k) (hs.leaf_moved hi hclear hk (hempty k hk hkdir))).congr
      fun u l v => (h.edge hs hi hclear u l v).trans (and_congr_right fun _ => ⟨?_, ?_⟩)
    · exact fun hall => hall k hk hkdir
    · rintro hne k' hk' - rfl
      exact hne (Option.some.inj (hk'.symm.trans hk))
  · exact hmoved.congr fun u l v => (h.edge hs hi hclear u l v).trans
      (and_iff_left fun k hk hkdir => absurd ⟨k, hk, hkdir⟩ hrepl)

theorem Renamed.inv (h : Renamed s t a old b new i ((s.remove a old).lookup b new)) (hs : s.Inv)
    (hi : s.lookup a old = some i) (hclear : s.Clear a old b new i)
    (hempty : ∀ k, (s.remove a old).lookup b new = some k → s.isDir k = true →
      ∀ l, (s.remove a old).lookup k l = none) : t.Inv := by
  have hle : ∀ x, t.count x ≤ s.count x := fun x => by
    have hcount := h.count x
    omega
  have halive : ∀ x, t.alive x = true → s.alive x = true := by
    intro x hx
    rw [alive_iff, h.held] at hx
    refine alive_iff.mpr (hx.imp_right (.imp_left fun hne => ?_))
    have := hle x
    omega
  refine hs.kept h.isDir h.length halive (fun x _ => ⟨h.nlink x, hle x⟩)
    (h.tree hs hi hclear hempty) (fun d l x hl hx => ?_) fun x hx => ⟨?_, fun hx' => ?_⟩
  · rw [h.lookup] at hl
    split at hl
    · next hnew =>
        obtain rfl := Option.some.inj hl
        obtain ⟨rfl, rfl⟩ := hnew
        exact ⟨(hclear.outside hx).1, hclear.target.1⟩
    · split at hl
      · cases hl
      · exact hs.proper d l x hl hx
  · exact h.nlink x ▸ hs.small x
  · rw [h.nlink, hs.links x hx (halive x hx')]
    have hcount := h.count x
    cases hrepl : (s.remove a old).lookup b new with
    | none =>
        rw [hrepl, Option.toList_none, List.count_nil] at hcount
        exact hcount.symm
    | some k =>
        rw [hrepl, Option.toList_some] at hcount
        by_cases hxk : k = x
        · -- a file that is replaced is gone
          subst hxk
          obtain ⟨hone, hheld⟩ := hclear.replaced k hrepl hx
          rw [List.count_singleton_self] at hcount
          rw [alive_iff, h.held, hheld] at hx'
          rcases hx' with rfl | hne | hfalse
          · rw [hs.rootDir] at hx
            cases hx
          · omega
          · cases hfalse
        · rw [List.count_singleton, beq_eq_false_iff_ne.mpr hxk, if_neg Bool.false_ne_true,
            Nat.add_zero] at hcount
          exact hcount.symm

end Rename

theorem Inv.new : Fs.new.Inv := by
  have hnone : ∀ d l, Fs.new.lookup d l = none := by
    intro d l
    cases d with
    | zero => rfl
    | succ d => rfl
  have hcount : ∀ i, Fs.new.count i = 0 := by
    intro i
    by_contra hne
    obtain ⟨d, l, hl⟩ := exists_lookup hne
    rw [hnone] at hl
    cases hl
  have hedge : ∀ u l v, ¬Fs.new.Edge u l v := by
    rintro u l v ⟨-, -, hv, -⟩
    rw [hnone] at hv
    cases hv
  have hroot : ∀ i, Fs.new.alive i = true → i = 0 := by
    intro i hi
    rcases alive_iff.mp hi with rfl | hne | hheld
    · rfl
    · exact absurd (hcount i) hne
    · cases hheld
  constructor
  · rfl
  · exact ⟨fun u l hl => hedge u l _ hl, fun u l _ _ v hl => absurd hl (hedge u l v),
      fun u l v hl => absurd hl (hedge u l v)⟩
  · intro d l i hl
    rw [hnone] at hl
    cases hl
  · intro i hi
    rw [hroot i hi]
    exact Nat.zero_lt_one
  · intro i
    cases i with
    | zero => decide
    | succ i => exact Nat.two_pow_pos 32
  · intro i hi
    cases i with
    | zero => rfl
    | succ i => cases hi
  · intro i _
    rw [hcount]
    exact Nat.zero_le _
  · intro i hi halive
    rw [hroot i halive] at hi
    cases hi

theorem Inv.opens (h : s.Inv) (hi : s.alive i = true) :
    Inv { s with held := i :: s.held } := by
  refine h.alike ⟨fun _ _ => rfl, fun _ => rfl, fun _ => rfl, fun _ => rfl, rfl, fun j hj => ?_⟩
  rw [List.contains_iff_mem, List.mem_cons] at hj
  rcases hj with rfl | hj
  · exact hi
  · exact alive_iff.mpr (.inr (.inr (List.contains_iff_mem.mpr hj)))

theorem Inv.closes (h : s.Inv) (i : Ino) : Inv { s with held := s.held.erase i } := by
  refine h.alike ⟨fun _ _ => rfl, fun _ => rfl, fun _ => rfl, fun _ => rfl, rfl, fun j hj => ?_⟩
  have hmem := List.mem_of_mem_erase (List.contains_iff_mem.mp hj)
  exact alive_iff.mpr (.inr (.inr (List.contains_iff_mem.mpr hmem)))

theorem alike_put_back {a : Ino} {old : Text} (hi : s.lookup a old = some i) :
    Alike s ((s.remove a old).insert a old i) := by
  have ha := lt_of_lookup hi
  have hlen : (s.remove a old).nodes.length = s.nodes.length := length_modify _ _ _
  have ha' : a < (s.remove a old).nodes.length := hlen.symm ▸ ha
  have hnone : (s.remove a old).lookup a old = none := by
    rw [lookup_remove ha, if_pos ⟨rfl, rfl⟩]
  refine ⟨fun d l => ?_, fun x => ?_, fun x => ?_, fun x => ?_, ?_, fun x hx => ?_⟩
  · rw [lookup_insert ha', lookup_remove ha]
    split
    · next hold => rw [hold.1, hold.2, hi]
    · rfl
  · rw [isDir_insert, isDir_remove]
  · rw [nlink_insert, nlink_remove]
  · rw [count_insert_remove ha', count_remove_none hnone ha', count_remove hi]
  · exact (length_modify _ _ _).trans hlen
  · exact alive_iff.mpr (.inr (.inr hx))

theorem not_full {k : Ino} (hfull : s.full d name = false) (hk : s.lookup d name = some k)
    (hdir : s.isDir k = true) (l : Text) : s.lookup k l = none := by
  rw [full, hk, Option.any_some, hdir, Bool.true_and, Bool.not_eq_false',
    List.isEmpty_iff] at hfull
  have hempty : s.entries k = ∅ := AList.ext hfull
  rw [lookup, hempty, AList.lookup_empty]

end Fs

namespace Ran

variable {w t : Ran} {op : TreeOp}

/-- Nothing is put into a directory that was removed, the count of links has room, and a
renaming is clear and not within one directory onto one that is not empty. -/
def Sound (w : Ran) : TreeOp → Prop
  | .create d _ _ => d = Fs.root ∨ w.fs.count d ≠ 0
  | .link d _ target => (d = Fs.root ∨ w.fs.count d ≠ 0) ∧ w.fs.nlink target + 1 < 2 ^ 32
  | .rename a old b new => ∀ i, w.fs.lookup a old = some i →
      if (w.fs.remove a old).full b new = true then a ≠ b else w.fs.Clear a old b new i
  | _ => True

/-- The state keeps the invariant, and an error changes no directory. -/
def Kept (s : Fs) (r : Fs × Res) : Prop :=
  r.1.Inv ∧ ∀ e, r.2 = .failed e → ∀ d name, r.1.lookup d name = s.lookup d name

theorem Kept.failed {s : Fs} (h : s.Inv) (e : Errno) : Kept s (s, .failed e) :=
  ⟨h, fun _ _ _ _ => rfl⟩

theorem Kept.done {s t : Fs} (h : t.Inv) : Kept s (t, .done) :=
  ⟨h, fun _ he => Res.noConfusion he⟩

section Operations

variable {s : Fs} {d i a b : Ino} {name old new : Text}

theorem kept_create (h : s.Inv) (hin : d = Fs.root ∨ s.count d ≠ 0) (kind : Kind) :
    Kept s (s.create d name kind) := by
  rw [Fs.create]
  split
  · exact .failed h _
  · next hd =>
      rw [Bool.not_eq_true', Bool.not_eq_false] at hd
      split
      · exact .failed h _
      · next hname =>
          rw [Bool.not_eq_true', Bool.not_eq_false] at hname
          split
          · exact .failed h _
          · next hnone =>
              rw [Option.not_isSome_iff_eq_none] at hnone
              exact .done ((Fs.created hd hnone kind).inv h hd hname hnone hin)

theorem kept_link (h : s.Inv) {target : Ino} (halive : s.alive target = true)
    (hsmall : s.nlink target + 1 < 2 ^ 32) : Kept s (s.link d name target) := by
  rw [Fs.link]
  split
  · exact .failed h _
  · next hd =>
      rw [Bool.not_eq_true', Bool.not_eq_false] at hd
      split
      · exact .failed h _
      · next htarget =>
          split
          · exact .failed h _
          · next hnone =>
              rw [Option.not_isSome_iff_eq_none] at hnone
              exact .done (h.link hd (eq_false_of_ne_true htarget) halive hnone hsmall)

theorem kept_unlink (h : s.Inv) : Kept s (s.unlink d name) := by
  rw [Fs.unlink]
  split
  · exact .failed h _
  · split
    · exact .failed h _
    · next e he =>
        split
        · exact .failed h _
        · next hdir => exact .done (h.unlink he (eq_false_of_ne_true hdir))

theorem kept_rmdir (h : s.Inv) : Kept s (s.rmdir d name) := by
  rw [Fs.rmdir]
  split
  · exact .failed h _
  · split
    · exact .failed h _
    · next e he =>
        split
        · exact .failed h _
        · next hdir =>
            rw [Bool.not_eq_true', Bool.not_eq_false] at hdir
            split
            · exact .failed h _
            · next hempty =>
                rw [Bool.not_eq_true', Bool.not_eq_false] at hempty
                have hfull : s.full d name = false := by
                  rw [Fs.full, he, Option.any_some, hempty, Bool.not_true, Bool.and_false]
                exact .done (h.rmdir he hdir (Fs.not_full hfull he hdir))

theorem kept_rename (h : s.Inv)
    (hsound : ∀ i, s.lookup a old = some i →
      if (s.remove a old).full b new = true then a ≠ b else s.Clear a old b new i) :
    Kept s (s.rename a old b new) := by
  rw [Fs.rename]
  split
  · exact .failed h _
  · next i hi =>
      have hcond := hsound i hi
      split
      · next hfull =>
          rw [Bool.not_eq_true'] at hfull
          rw [hfull, if_neg Bool.false_ne_true] at hcond
          have hrenamed : Fs.Renamed s ((s.remove a old).attach b new i) a old b new i
              ((s.remove a old).lookup b new) :=
            Fs.renamed hi (Fs.lt_of_isDir hcond.target.1)
          refine .done (hrenamed.inv h hi hcond fun k hk hdir l => ?_)
          exact Fs.not_full hfull hk (by rw [Fs.isDir_remove, hdir]) l
      · next hfull =>
          rw [Bool.not_eq_true', Bool.not_eq_false] at hfull
          rw [hfull, if_pos rfl] at hcond
          rw [if_neg hcond]
          have halike := Fs.alike_put_back hi
          exact ⟨h.alike halike, fun _ _ => halike.lookup⟩

end Operations

/-- Every operation under its condition keeps the invariant, and an error changes nothing. -/
theorem kept_step (h : w.fs.Inv) (ht : w.step op = some t) (hsound : w.Sound op) :
    Kept w.fs (t.fs, t.res) := by
  cases op with
  | create d name kind =>
      rw [step] at ht
      split at ht
      · cases ht
        exact kept_create h hsound kind
      · cases ht
  | link d name target =>
      rw [step] at ht
      split at ht
      · next halive =>
          cases ht
          exact kept_link h (Bool.and_eq_true_iff.mp halive).2 hsound.2
      · cases ht
  | unlink d name =>
      rw [step] at ht
      split at ht
      · cases ht
        exact kept_unlink h
      · cases ht
  | rmdir d name =>
      rw [step] at ht
      split at ht
      · cases ht
        exact kept_rmdir h
      · cases ht
  | rename a old b new =>
      rw [step] at ht
      split at ht
      · cases ht
        exact kept_rename h hsound
      · cases ht
  | opens i =>
      rw [step] at ht
      split at ht
      · next hi =>
          cases ht
          exact .done (h.opens hi)
      · cases ht
  | closes i =>
      cases ht
      exact .done (h.closes i)

theorem Kept.good (h : Kept w.fs (t.fs, t.res)) : w.Good t := by
  obtain ⟨hinv, herror⟩ := h
  replace hinv : t.fs.Inv := hinv
  refine ⟨fun i hi hin => ?_, fun i halive hroot => ?_, herror⟩
  · obtain ⟨p, hp⟩ := hinv.reached hi hin
    refine ⟨p, (Fs.walk_iff hi _ p).mpr hp, fun q hq => ?_⟩
    exact hinv.tree.path_unique ((Fs.walk_iff hi _ q).mp hq) hp
  · cases hdir : t.fs.isDir i with
    | false => exact .inr (hinv.links i hdir halive)
    | true =>
        have hlinks := hinv.dirLinks i hdir
        have hcount := hinv.dirCount i hdir
        rcases Nat.eq_zero_or_pos (t.fs.count i) with hzero | hpos
        · exact .inl ⟨rfl, hzero⟩
        · exact .inr (by omega)

/-- A run whose operations are sound leaves a tree, with right counts, in every state. -/
theorem rooted_of_sound (ops : List TreeOp)
    (h : Along step (fun w op _ => w.Sound op) ⟨Fs.new, .done⟩ ops) :
    Along step (fun w _ t => w.Good t) ⟨Fs.new, .done⟩ ops :=
  Along.imp (fun w => w.fs.Inv) (fun _ _ _ hw ht hsound => (kept_step hw ht hsound).1)
    (fun _ _ _ hw ht hsound => (kept_step hw ht hsound).good) Fs.Inv.new h

/-- A directory and a file are made and the directory removed. -/
theorem rooted_of_sound_removed :
    Along step (fun w _ t => w.Good t) ⟨Fs.new, .done⟩
      [.create 0 "a".toList .dir, .create 1 "f".toList .file, .unlink 1 "f".toList,
        .rmdir 0 "a".toList] :=
  rooted_of_sound _ <|
    .cons rfl (.inl rfl) <| .cons rfl (.inr (by decide)) <| .cons rfl trivial <|
    .cons rfl trivial <| trivial

/-- A directory is moved into itself, and no path leads to it any more. -/
theorem not_always_rooted : ¬∀ ops, Along step (fun w _ t => w.Good t) ⟨Fs.new, .done⟩ ops := by
  intro h
  have hgood := h [.create 0 "a".toList .dir, .create 1 "b".toList .dir,
    .rename 0 "a".toList 2 "c".toList]
  have hlast := (((hgood _ rfl).2 _ rfl).2 _ rfl).1
  obtain ⟨p, hp, -⟩ := hlast.tree 1 (by decide) (.inr (by decide))
  cases p with
  | nil => cases hp
  | cons l p =>
      rw [Fs.walk] at hp
      split at hp
      · obtain ⟨k, hk, -⟩ := Option.bind_eq_some_iff.mp hp
        cases hk
      · cases hp

end Ran

end MindOS.Kernel.Tmpfs
