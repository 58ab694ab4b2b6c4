import MindOS.Kernel.Tmpfs.Tree
import MindOS.Rooted

/-!
# The directories are a tree

The entries that name directories are the edges of a tree below the root, and the count of
links of a file that is somewhere is the number of entries that name it. Making, linking,
unlinking and removing keep that.
-/

namespace MindOS.Kernel.Tmpfs

namespace Fs

variable {s : Fs} {i j d b : Ino} {name : Text} {e : Entries}

/-! ## The invariant -/

/-- A directory has a directory. -/
def Edge (s : Fs) (d : Ino) (l : Text) (i : Ino) : Prop :=
  proper l = true ∧ s.isDir d = true ∧ s.lookup d l = some i ∧ s.isDir i = true

structure Inv (s : Fs) : Prop where
  rootDir : s.isDir root = true
  tree : Rooted.IsTree s.Edge root
  proper : ∀ d l i, s.lookup d l = some i → s.isDir i = true →
    Tmpfs.proper l = true ∧ s.isDir d = true
  bound : ∀ i, s.alive i = true → i < s.nodes.length
  small : ∀ i, s.nlink i < 2 ^ 32
  dirLinks : ∀ i, s.isDir i = true → s.nlink i = 1
  dirCount : ∀ i, s.isDir i = true → s.count i ≤ 1
  links : ∀ i, s.isDir i = false → s.alive i = true → s.nlink i = s.count i

theorem Inv.edge (h : s.Inv) {l : Text} (hl : s.lookup d l = some i) (hi : s.isDir i = true) :
    s.Edge d l i := ⟨(h.proper d l i hl hi).1, (h.proper d l i hl hi).2, hl, hi⟩

theorem walk_iff (hi : s.isDir i = true) (d : Ino) (p : List Text) :
    s.walk d p = some i ↔ Rooted.Path s.Edge d p i := by
  induction p generalizing d with
  | nil =>
      constructor
      · intro h
        cases h
        exact .nil _
      · intro h
        cases h
        rfl
  | cons l p ih =>
      constructor
      · intro h
        rw [walk] at h
        split at h
        · next hl =>
            obtain ⟨k, hk, hrest⟩ := Option.bind_eq_some_iff.mp h
            obtain ⟨hproper, hd⟩ := Bool.and_eq_true_iff.mp hl
            have hkdir : s.isDir k = true := by
              cases p with
              | nil =>
                  cases hrest
                  exact hi
              | cons l' p =>
                  rw [walk] at hrest
                  split at hrest
                  · next hl' => exact (Bool.and_eq_true_iff.mp hl').2
                  · cases hrest
            exact .cons ⟨hproper, hd, hk, hkdir⟩ ((ih k).mp hrest)
        · cases h
      · intro h
        cases h with
        | cons hedge hrest =>
            obtain ⟨hproper, hd, hk, -⟩ := hedge
            rw [walk, hproper, hd, Bool.true_and, if_pos rfl, hk, Option.bind_some]
            exact (ih _).mpr hrest

theorem Inv.reached (h : s.Inv) (hi : s.isDir i = true) (hin : i = Fs.root ∨ s.count i ≠ 0) :
    ∃ p, Rooted.Path s.Edge Fs.root p i := by
  rcases hin with rfl | hcount
  · exact ⟨[], .nil _⟩
  · obtain ⟨d, l, hl⟩ := exists_lookup hcount
    exact h.tree.reached_target (h.edge hl hi)

/-- States that look the same. -/
structure Alike (s t : Fs) : Prop where
  lookup : ∀ d l, t.lookup d l = s.lookup d l
  isDir : ∀ i, t.isDir i = s.isDir i
  nlink : ∀ i, t.nlink i = s.nlink i
  count : ∀ i, t.count i = s.count i
  length : t.nodes.length = s.nodes.length
  held : ∀ i, t.held.contains i = true → s.alive i = true

theorem Alike.edge {t : Fs} (h : Alike s t) (d : Ino) (l : Text) (i : Ino) :
    t.Edge d l i ↔ s.Edge d l i := by
  rw [Edge, Edge, h.lookup, h.isDir, h.isDir]

theorem alive_iff : s.alive i = true ↔ i = root ∨ s.count i ≠ 0 ∨ s.held.contains i = true := by
  rw [alive, Bool.or_eq_true, Bool.or_eq_true, beq_iff_eq, bne_iff_ne, or_assoc]

theorem Alike.alive {t : Fs} (h : Alike s t) (hi : t.alive i = true) : s.alive i = true := by
  rcases alive_iff.mp hi with hroot | hcount | hheld
  · exact alive_iff.mpr (.inl hroot)
  · exact alive_iff.mpr (.inr (.inl (h.count i ▸ hcount)))
  · exact h.held i hheld

theorem Inv.alike {t : Fs} (hs : s.Inv) (h : Alike s t) : t.Inv where
  rootDir := (h.isDir root).trans hs.rootDir
  tree := hs.tree.congr h.edge
  proper d l i hl hi := by
    rw [h.lookup] at hl
    rw [h.isDir] at hi ⊢
    exact hs.proper d l i hl hi
  bound i hi := h.length ▸ hs.bound i (h.alive hi)
  small i := h.nlink i ▸ hs.small i
  dirLinks i hi := (h.nlink i).trans (hs.dirLinks i (h.isDir i ▸ hi))
  dirCount i hi := h.count i ▸ hs.dirCount i (h.isDir i ▸ hi)
  links i hi halive := by
    rw [h.nlink, h.count]
    exact hs.links i (h.isDir i ▸ hi) (h.alive halive)

/-! ## Operations keep the invariant -/

theorem Inv.unique (h : s.Inv) {l l' : Text} (hl : s.lookup d l = some i)
    (hl' : s.lookup b l' = some i) (hi : s.isDir i = true) : d = b ∧ l = l' :=
  h.tree.unique d l b l' i (h.edge hl hi) (h.edge hl' hi)

theorem Inv.lt (h : s.Inv) {l : Text} (hl : s.lookup d l = some i) : i < s.nodes.length :=
  h.bound i (alive_iff.mpr (.inr (.inl (count_pos hl))))

section Create

variable {kind : Kind}

theorem isDir_push (s : Fs) (kind : Kind) (d b : Ino) :
    (s.push kind d).isDir b = if b = s.nodes.length then kind == .dir else s.isDir b := by
  rw [isDir, push, isDir]
  split
  · next hb => rw [hb, List.getElem?_concat_length, Option.any_some]
  · next hb =>
      rcases Nat.lt_or_gt_of_ne hb with hlt | hgt
      · rw [List.getElem?_append_left hlt]
      · rw [List.getElem?_eq_none (Nat.le_of_lt hgt), List.getElem?_eq_none]
        rw [List.length_append, List.length_singleton]
        exact hgt

theorem entries_push (s : Fs) (kind : Kind) (d b : Ino) :
    (s.push kind d).entries b = s.entries b := by
  rw [entries, push, entries]
  rcases Nat.lt_trichotomy b s.nodes.length with hlt | rfl | hgt
  · rw [List.getElem?_append_left hlt]
  · rw [List.getElem?_concat_length, List.getElem?_eq_none (Nat.le_refl _)]
    rfl
  · rw [List.getElem?_eq_none (Nat.le_of_lt hgt), List.getElem?_eq_none]
    rw [List.length_append, List.length_singleton]
    exact hgt

theorem nlink_push (s : Fs) (kind : Kind) (d b : Ino) :
    (s.push kind d).nlink b = if b = s.nodes.length then 1 else s.nlink b := by
  rw [nlink, push, nlink]
  split
  · next hb =>
      rw [hb, List.getElem?_concat_length]
      rfl
  · next hb =>
      rcases Nat.lt_or_gt_of_ne hb with hlt | hgt
      · rw [List.getElem?_append_left hlt]
      · rw [List.getElem?_eq_none (Nat.le_of_lt hgt), List.getElem?_eq_none]
        rw [List.length_append, List.length_singleton]
        exact hgt

theorem count_push (s : Fs) (kind : Kind) (d i : Ino) : (s.push kind d).count i = s.count i := by
  rw [count, push, List.map_append, List.sum_append]
  exact Nat.add_zero _

theorem Inv.not_alive_new (h : s.Inv) : s.alive s.nodes.length = false := by
  rw [← Bool.not_eq_true]
  exact fun halive => Nat.lt_irrefl _ (h.bound _ halive)

theorem Inv.new_ne_root (h : s.Inv) : s.nodes.length ≠ Fs.root := by
  intro heq
  have hnew := h.not_alive_new
  rw [alive_iff.mpr (.inl heq)] at hnew
  cases hnew

theorem Inv.count_new (h : s.Inv) : s.count s.nodes.length = 0 := by
  by_contra hne
  have hnew := h.not_alive_new
  rw [alive_iff.mpr (.inr (.inl hne))] at hnew
  cases hnew

/-- What a new inode changes. -/
structure Created (s t : Fs) (d : Ino) (name : Text) (kind : Kind) : Prop where
  lookup : ∀ b l, t.lookup b l = if b = d ∧ l = name then some s.nodes.length else s.lookup b l
  isDir : ∀ b, t.isDir b = if b = s.nodes.length then kind == .dir else s.isDir b
  nlink : ∀ b, t.nlink b = if b = s.nodes.length then 1 else s.nlink b
  count : ∀ b, t.count b = s.count b + [s.nodes.length].count b
  length : t.nodes.length = s.nodes.length + 1
  held : t.held = s.held

theorem created (hd : s.isDir d = true) (hnone : s.lookup d name = none) (kind : Kind) :
    Created s ((s.push kind d).insert d name s.nodes.length) d name kind := by
  have hlen : (s.push kind d).nodes.length = s.nodes.length + 1 := by
    rw [push, List.length_append, List.length_singleton]
  have hlt : d < (s.push kind d).nodes.length :=
    hlen ▸ Nat.lt_succ_of_lt (lt_of_isDir hd)
  constructor
  · intro b l
    rw [lookup_insert hlt, lookup, entries_push, lookup]
  · intro b
    rw [isDir_insert, isDir_push]
  · intro b
    rw [nlink_insert, nlink_push]
  · intro b
    have hnone' : (s.push kind d).lookup d name = none := by
      rw [lookup, entries_push]
      exact hnone
    rw [count_insert_remove hlt, count_remove_none hnone' hlt, count_push]
  · exact (length_modify _ _ _).trans hlen
  · rfl

theorem Created.count_self {t : Fs} (h : Created s t d name kind) (hs : s.Inv) :
    t.count s.nodes.length = 1 := by
  rw [h.count, hs.count_new, List.count_singleton_self]

theorem Created.count_other {t : Fs} (h : Created s t d name kind) (hb : b ≠ s.nodes.length) :
    t.count b = s.count b := by
  rw [h.count, List.count_singleton, beq_eq_false_iff_ne.mpr (Ne.symm hb),
    if_neg Bool.false_ne_true, Nat.add_zero]

theorem Created.alive {t : Fs} (h : Created s t d name kind) (hb : b ≠ s.nodes.length)
    (halive : t.alive b = true) : s.alive b = true := by
  rw [alive_iff, h.count_other hb, h.held] at halive
  exact alive_iff.mpr halive

/-- What the edges are: those of before, and that to a new directory. -/
theorem Created.edge {t : Fs} (h : Created s t d name kind) (hs : s.Inv) (hd : s.isDir d = true)
    (hname : Tmpfs.proper name = true) (hnone : s.lookup d name = none) (b : Ino) (l : Text)
    (i : Ino) :
    t.Edge b l i ↔ s.Edge b l i ∨ kind = .dir ∧ b = d ∧ l = name ∧ i = s.nodes.length := by
  have hdne : d ≠ s.nodes.length := Nat.ne_of_lt (lt_of_isDir hd)
  rw [Edge, Edge, h.lookup, h.isDir, h.isDir]
  by_cases hnew : b = d ∧ l = name
  · obtain ⟨rfl, rfl⟩ := hnew
    rw [if_neg hdne, if_pos (And.intro rfl rfl : b = b ∧ l = l), hnone]
    constructor
    · rintro ⟨-, -, hi, hdir⟩
      obtain rfl := Option.some.inj hi
      rw [if_pos rfl, beq_iff_eq] at hdir
      exact .inr ⟨hdir, rfl, rfl, rfl⟩
    · rintro (⟨-, -, hi, -⟩ | ⟨hdir, -, -, rfl⟩)
      · cases hi
      · exact ⟨hname, hd, rfl, by rw [if_pos rfl, hdir, beq_self_eq_true]⟩
  · rw [if_neg hnew]
    constructor
    · rintro ⟨hl, hb, hi, hdir⟩
      have hine : i ≠ s.nodes.length := Nat.ne_of_lt (hs.lt hi)
      have hbne : b ≠ s.nodes.length := Nat.ne_of_lt (lt_of_lookup hi)
      rw [if_neg hine] at hdir
      rw [if_neg hbne] at hb
      exact .inl ⟨hl, hb, hi, hdir⟩
    · rintro (⟨hl, hb, hi, hdir⟩ | ⟨-, rfl, rfl, -⟩)
      · rw [if_neg (Nat.ne_of_lt (hs.lt hi)), if_neg (Nat.ne_of_lt (lt_of_isDir hb))]
        exact ⟨hl, hb, hi, hdir⟩
      · exact absurd ⟨rfl, rfl⟩ hnew

theorem Created.inv {t : Fs} (h : Created s t d name kind) (hs : s.Inv) (hd : s.isDir d = true)
    (hname : Tmpfs.proper name = true) (hnone : s.lookup d name = none)
    (hin : d = Fs.root ∨ s.count d ≠ 0) : t.Inv := by
  have hdne : d ≠ s.nodes.length := Nat.ne_of_lt (lt_of_isDir hd)
  constructor
  · rw [h.isDir, if_neg hs.new_ne_root.symm]
    exact hs.rootDir
  · by_cases hkind : kind = .dir
    · refine (hs.tree.add (o := name) (x := s.nodes.length) (hs.reached hd hin) ?_
        hs.new_ne_root).congr fun b l i => ?_
      · exact fun u l hedge => Nat.lt_irrefl _ (lt_of_isDir hedge.2.2.2)
      · rw [h.edge hs hd hname hnone]
        exact or_congr Iff.rfl (and_iff_right hkind)
    · refine hs.tree.congr fun b l i => ?_
      rw [h.edge hs hd hname hnone]
      exact or_iff_left fun hc => hkind hc.1
  · intro b l i hl hi
    by_cases hnew : b = d ∧ l = name
    · obtain ⟨rfl, rfl⟩ := hnew
      exact ⟨hname, by rw [h.isDir, if_neg hdne, hd]⟩
    · rw [h.lookup, if_neg hnew] at hl
      rw [h.isDir, if_neg (Nat.ne_of_lt (hs.lt hl))] at hi
      rw [h.isDir, if_neg (Nat.ne_of_lt (lt_of_lookup hl))]
      exact hs.proper b l i hl hi
  · intro b hb
    rw [h.length]
    by_cases hne : b = s.nodes.length
    · exact hne ▸ Nat.lt_succ_self _
    · exact Nat.lt_succ_of_lt (hs.bound b (h.alive hne hb))
  · intro b
    rw [h.nlink]
    split
    · decide
    · exact hs.small b
  · intro b hb
    rw [h.nlink]
    split
    · rfl
    · next hne =>
        rw [h.isDir, if_neg hne] at hb
        exact hs.dirLinks b hb
  · intro b hb
    by_cases hne : b = s.nodes.length
    · rw [hne, h.count_self hs]
    · rw [h.isDir, if_neg hne] at hb
      rw [h.count_other hne]
      exact hs.dirCount b hb
  · intro b hb halive
    rw [h.nlink]
    split
    · next hne => rw [hne, h.count_self hs]
    · next hne =>
        rw [h.isDir, if_neg hne] at hb
        rw [h.count_other hne]
        exact hs.links b hb (h.alive hne halive)

end Create

/-! ## Operations on the inodes there are -/

/-- What is to be shown where no inode is new: the tree, the names of directories, and the
counts of links. -/
theorem Inv.kept {t : Fs} (h : s.Inv) (hdir : ∀ b, t.isDir b = s.isDir b)
    (hlen : t.nodes.length = s.nodes.length)
    (halive : ∀ b, t.alive b = true → s.alive b = true)
    (hdirs : ∀ b, s.isDir b = true → t.nlink b = s.nlink b ∧ t.count b ≤ s.count b)
    (htree : Rooted.IsTree t.Edge Fs.root)
    (hproper : ∀ d l i, t.lookup d l = some i → s.isDir i = true →
      Tmpfs.proper l = true ∧ s.isDir d = true)
    (hfiles : ∀ b, s.isDir b = false → t.nlink b < 2 ^ 32 ∧
      (t.alive b = true → t.nlink b = t.count b)) : t.Inv where
  rootDir := (hdir _).trans h.rootDir
  tree := htree
  proper d l i hl hi := by
    rw [hdir] at hi ⊢
    exact hproper d l i hl hi
  bound b hb := hlen ▸ h.bound b (halive b hb)
  small b := by
    cases hb : s.isDir b with
    | true => exact (hdirs b hb).1 ▸ h.small b
    | false => exact (hfiles b hb).1
  dirLinks b hb := by
    rw [hdir] at hb
    exact (hdirs b hb).1.trans (h.dirLinks b hb)
  dirCount b hb := by
    rw [hdir] at hb
    exact Nat.le_trans (hdirs b hb).2 (h.dirCount b hb)
  links b hb hb' := (hfiles b (hdir b ▸ hb)).2 hb'

/-- What is no directory may come and go in the entries. -/
theorem tree_of_files {t : Fs} (h : s.Inv) (hdir : ∀ b, t.isDir b = s.isDir b)
    (hlookup : ∀ b l i, s.isDir i = true → (t.lookup b l = some i ↔ s.lookup b l = some i)) :
    Rooted.IsTree t.Edge Fs.root := by
  refine h.tree.congr fun b l i => ?_
  rw [Edge, Edge, hdir, hdir]
  exact and_congr_right fun _ => and_congr_right fun _ =>
    ⟨fun ⟨hi, hi'⟩ => ⟨(hlookup b l i hi').mp hi, hi'⟩,
      fun ⟨hi, hi'⟩ => ⟨(hlookup b l i hi').mpr hi, hi'⟩⟩

theorem ne_of_isDir (hi : s.isDir i = false) (hb : s.isDir b = true) : i ≠ b := by
  rintro rfl
  rw [hi] at hb
  cases hb

theorem Inv.link (h : s.Inv) {target : Ino} (hd : s.isDir d = true)
    (htarget : s.isDir target = false) (halive : s.alive target = true)
    (hnone : s.lookup d name = none) (hsmall : s.nlink target + 1 < 2 ^ 32) :
    ((s.setLinks target (wrapLinks (s.nlink target + 1))).insert d name target).Inv := by
  have hlt := lt_of_isDir hd
  have hltT := h.bound target halive
  have hlen : (s.setLinks target (wrapLinks (s.nlink target + 1))).nodes.length =
      s.nodes.length := length_modify _ _ _
  have hlookup : ∀ b l, ((s.setLinks target (wrapLinks (s.nlink target + 1))).insert d name
      target).lookup b l = if b = d ∧ l = name then some target else s.lookup b l := by
    intro b l
    rw [lookup_insert (hlen.symm ▸ hlt), lookup, entries_setLinks, lookup]
  have hdir : ∀ b, ((s.setLinks target (wrapLinks (s.nlink target + 1))).insert d name
      target).isDir b = s.isDir b := by
    intro b
    rw [isDir_insert, isDir_setLinks]
  have hlink : ∀ b, ((s.setLinks target (wrapLinks (s.nlink target + 1))).insert d name
      target).nlink b = if target = b then s.nlink target + 1 else s.nlink b := by
    intro b
    rw [nlink_insert, nlink_setLinks hltT, wrapLinks, Nat.mod_eq_of_lt hsmall]
  have hcount : ∀ b, ((s.setLinks target (wrapLinks (s.nlink target + 1))).insert d name
      target).count b = s.count b + [target].count b := by
    intro b
    have hnone' : (s.setLinks target (wrapLinks (s.nlink target + 1))).lookup d name = none := by
      rw [Fs.lookup, entries_setLinks]
      exact hnone
    rw [count_insert_remove (hlen.symm ▸ hlt), count_remove_none hnone' (hlen.symm ▸ hlt),
      count_setLinks]
  have hother : ∀ b, target ≠ b → s.count b + [target].count b = s.count b := by
    intro b hb
    rw [List.count_singleton, beq_eq_false_iff_ne.mpr hb, if_neg Bool.false_ne_true, Nat.add_zero]
  have halive' : ∀ b, ((s.setLinks target (wrapLinks (s.nlink target + 1))).insert d name
      target).alive b = true → s.alive b = true := by
    intro b hb
    by_cases hne : target = b
    · exact hne ▸ halive
    · rw [alive_iff, hcount, hother b hne] at hb
      exact alive_iff.mpr hb
  have hfile : ∀ b l i, s.isDir i = true →
      (((s.setLinks target (wrapLinks (s.nlink target + 1))).insert d name target).lookup b l =
        some i ↔ s.lookup b l = some i) := by
    intro b l i hi
    rw [hlookup]
    split
    · next hnew =>
        obtain ⟨rfl, rfl⟩ := hnew
        rw [hnone]
        refine iff_of_false (fun heq => ?_) (Option.some_ne_none i).symm
        exact ne_of_isDir htarget hi (Option.some.inj heq)
    · exact Iff.rfl
  refine h.kept hdir ((length_modify _ _ _).trans hlen) halive' (fun b hb => ?_)
    (tree_of_files h hdir hfile) (fun b l i hl hi => ?_) fun b hb => ⟨?_, fun hb' => ?_⟩
  · have hne := ne_of_isDir htarget hb
    rw [hlink, if_neg hne, hcount, hother b hne]
    exact ⟨rfl, Nat.le_refl _⟩
  · exact h.proper b l i ((hfile b l i hi).mp hl) hi
  · rw [hlink]
    split
    · exact hsmall
    · exact h.small b
  · rw [hlink, hcount]
    split
    · next heq => rw [← heq, List.count_singleton_self, h.links target htarget halive]
    · next hne =>
        rw [hother b hne]
        exact h.links b hb (halive' b hb')

theorem count_removed {t : Fs} {x : Ino} (hcount : ∀ i, t.count i + [x].count i = s.count i)
    (hi : x ≠ i) : t.count i = s.count i := by
  have h := hcount i
  rwa [List.count_singleton, beq_eq_false_iff_ne.mpr hi, if_neg Bool.false_ne_true,
    Nat.add_zero] at h

theorem Inv.unlink (h : s.Inv) (he : s.lookup d name = some i) (hi : s.isDir i = false) :
    ((s.remove d name).setLinks i (wrapLinks (s.nlink i + (2 ^ 32 - 1)))).Inv := by
  have hlt := lt_of_lookup he
  have hlen : (s.remove d name).nodes.length = s.nodes.length := length_modify _ _ _
  have hltI : i < (s.remove d name).nodes.length := hlen.symm ▸ h.lt he
  have hpos := count_pos he
  have hnlink : s.nlink i = s.count i := h.links i hi (alive_iff.mpr (.inr (.inl hpos)))
  have hsmall := h.small i
  have hwrap : wrapLinks (s.nlink i + (2 ^ 32 - 1)) = s.count i - 1 := by
    rw [wrapLinks]
    omega
  rw [hwrap]
  have hlookup : ∀ b l, ((s.remove d name).setLinks i (s.count i - 1)).lookup b l =
      if b = d ∧ l = name then none else s.lookup b l := by
    intro b l
    rw [← lookup_remove hlt, Fs.lookup, entries_setLinks, Fs.lookup]
  have hdir : ∀ b, ((s.remove d name).setLinks i (s.count i - 1)).isDir b = s.isDir b := by
    intro b
    rw [isDir_setLinks, isDir_remove]
  have hlink : ∀ b, ((s.remove d name).setLinks i (s.count i - 1)).nlink b =
      if i = b then s.count i - 1 else s.nlink b := by
    intro b
    rw [nlink_setLinks hltI, nlink_remove]
  have hcount : ∀ b, ((s.remove d name).setLinks i (s.count i - 1)).count b + [i].count b =
      s.count b := by
    intro b
    rw [count_setLinks]
    exact count_remove he b
  have halive : ∀ b, ((s.remove d name).setLinks i (s.count i - 1)).alive b = true →
      s.alive b = true := by
    intro b hb
    have hb' := hcount b
    refine alive_iff.mpr ((alive_iff.mp hb).imp_right (.imp_left fun hne => ?_))
    omega
  have hfile : ∀ b l j, s.isDir j = true →
      (((s.remove d name).setLinks i (s.count i - 1)).lookup b l = some j ↔
        s.lookup b l = some j) := by
    intro b l j hj
    rw [hlookup]
    split
    · next hold =>
        obtain ⟨rfl, rfl⟩ := hold
        rw [he]
        refine iff_of_false (Option.some_ne_none j).symm fun heq => ?_
        exact ne_of_isDir hi hj (Option.some.inj heq)
    · exact Iff.rfl
  refine h.kept hdir ((length_modify _ _ _).trans hlen) halive (fun b hb => ?_)
    (tree_of_files h hdir hfile) (fun b l j hl hj => ?_) fun b hb => ⟨?_, fun hb' => ?_⟩
  · have hne := ne_of_isDir hi hb
    rw [hlink, if_neg hne, count_removed hcount hne]
    exact ⟨rfl, Nat.le_refl _⟩
  · exact h.proper b l j ((hfile b l j hj).mp hl) hj
  · rw [hlink]
    split
    · omega
    · exact h.small b
  · rw [hlink]
    split
    · next heq =>
        have hself := hcount i
        rw [List.count_singleton_self] at hself
        rw [← heq]
        omega
    · next hne =>
        rw [count_removed hcount hne]
        exact h.links b hb (halive b hb')

theorem Inv.rmdir (h : s.Inv) (he : s.lookup d name = some i) (hi : s.isDir i = true)
    (hempty : ∀ l, s.lookup i l = none) : (s.remove d name).Inv := by
  have hlt := lt_of_lookup he
  have hcount := count_remove he
  have halive : ∀ b, (s.remove d name).alive b = true → s.alive b = true := by
    intro b hb
    have hb' := hcount b
    refine alive_iff.mpr ((alive_iff.mp hb).imp_right (.imp_left fun hne => ?_))
    omega
  have hlinks : ∀ b, (s.remove d name).nlink b = s.nlink b := nlink_remove s d name
  have hdir : ∀ b, (s.remove d name).isDir b = s.isDir b := isDir_remove s d name
  refine h.kept hdir (length_modify _ _ _) halive
    (fun b hb => ⟨hlinks b, Nat.le_of_add_right_le (Nat.le_of_eq (hcount b))⟩) ?_
    (fun b l j hl hj => ?_) fun b hb => ⟨?_, fun hb' => ?_⟩
  · refine (h.tree.remove (x := i) fun l j hedge => ?_).congr fun b l j => ?_
    · have hnone := hedge.2.2.1
      rw [hempty] at hnone
      cases hnone
    · rw [Edge, hdir, hdir, lookup_remove hlt]
      constructor
      · rintro ⟨hl, hb, hj, hj'⟩
        split at hj
        · cases hj
        · next hne =>
            refine ⟨⟨hl, hb, hj, hj'⟩, ?_⟩
            rintro rfl
            exact hne (h.unique hj he hi)
      · rintro ⟨⟨hl, hb, hj, hj'⟩, hne⟩
        refine ⟨hl, hb, ?_, hj'⟩
        rw [if_neg]
        · exact hj
        · rintro ⟨rfl, rfl⟩
          exact hne (Option.some.inj (hj.symm.trans he))
  · rw [lookup_remove hlt] at hl
    split at hl
    · cases hl
    · exact h.proper b l j hl hj
  · rw [hlinks]
    exact h.small b
  · rw [hlinks, count_removed hcount (ne_of_isDir hb hi).symm]
    exact h.links b hb (halive b hb')

end Fs

end MindOS.Kernel.Tmpfs
