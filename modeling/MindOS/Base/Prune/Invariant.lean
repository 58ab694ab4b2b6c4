import MindOS.Base.Prune.Machine

/-!
# What holds while a root is pruned

Which flags have been changed, and which children are sealed. The invariant says it of every next
step, and every step keeps it where no exception comes between a change and its note, or in the
clean-up before all is put back.
-/

namespace MindOS.Base.Prune

open Transition

/-- A child has been made read-only, or the snapshot writable, and the clean-up would not put it
back if an exception came now. -/
def Unsettled (s : State) : Prop :=
  match s.pc with
  | .noteFrozen _ _ | .noteUnlocked => True
  | .lock => s.parentWritable = true
  | .thaw rest => ∃ p ∈ rest, s.fs.subs p ≠ none
  | .thawOne child rest => ∃ p ∈ child :: rest, s.fs.subs p ≠ none
  | _ => False

/-- Exceptions come only where the clean-up puts everything back. -/
def Settled (s : State) (a : Action) (_ : State) : Prop :=
  match a with
  | .fail | .sigterm => ¬Unsettled s
  | _ => True

/-! ## The invariant -/

namespace State

/-- The children whose flag has been changed. -/
def changed (s : State) : List Text :=
  match s.pc with
  | .start | .done => []
  | .noteFrozen child _ => child :: s.frozen
  | .thaw rest => rest
  | .thawOne child rest => child :: rest
  | _ => s.frozen

/-- The snapshot has been made writable. -/
def unlocked (s : State) : Bool :=
  match s.pc with
  | .start | .thaw _ | .thawOne _ _ | .done => false
  | .noteUnlocked => true
  | _ => s.parentWritable

/-- The children that are still to be inspected. -/
def ahead (s : State) : List Text :=
  match s.pc with
  | .inspect rest => rest.map Prod.fst
  | .flag child rest | .freeze child rest | .noteFrozen child rest | .scan child rest =>
      child :: rest.map Prod.fst
  | _ => []

/-- The children that will be deleted, if nothing is found in them. -/
def doomed (s : State) : List Text :=
  match s.pc with
  | .inspect _ | .flag _ _ | .freeze _ _ | .noteFrozen _ _ | .scan _ _ | .unlock | .noteUnlocked =>
      s.children.map Prod.fst
  | .delete rest => rest
  | _ => []

end State

def ReadOnly (fs : Fs) (p : Text) : Prop := ∀ sub, fs.subs p = some sub → sub.readOnly = true

/-- Nothing is in it and nothing can be made in it. -/
def Sealed (fs : Fs) (p : Text) : Prop :=
  ∀ sub, fs.subs p = some sub → sub.readOnly = true ∧ sub.entries = 0

structure Inv (before : Fs) (s : State) : Prop where
  flags : ∀ p sub, s.fs.subs p = some sub → ∃ sub', before.subs p = some sub' ∧
    sub.readOnly = (sub'.readOnly || decide (p ∈ s.changed)) ∧
      (p ∈ s.changed → sub'.readOnly = false)
  parent : s.fs.readOnly = (before.readOnly && !s.unlocked)
  /-- Nothing is changed before the checks. -/
  checked : s.pc = .start ∨ s.pc = .done ∨ before.readOnly = true
  system : ∀ p, p ∈ s.ahead ∨ p ∈ s.doomed ∨ p ∈ s.changed ∨ p ∈ s.frozen → p ∈ systemDirs
  sealed : ∀ p ∈ s.doomed, p ∈ s.ahead ∨ Sealed s.fs p
  held : ∀ child rest, s.pc = .noteFrozen child rest ∨ s.pc = .scan child rest →
    ReadOnly s.fs child
  writable : ∀ child rest, s.pc = .freeze child rest →
    ∀ sub, s.fs.subs child = some sub → sub.readOnly = false
  nodup : s.changed.Nodup
  fresh : s.pc = .start → s.frozen = [] ∧ s.parentWritable = false

variable {before : Fs} {s t : State} {root : Root} {p child : Text} {rest : List (Text × Nat)}

/-- The flags and what has been changed of them, where no child is about to be deleted. -/
structure Kept (before : Fs) (s : State) (changed : List Text) (unlocked : Bool) : Prop where
  flags : ∀ p sub, s.fs.subs p = some sub → ∃ sub', before.subs p = some sub' ∧
    sub.readOnly = (sub'.readOnly || decide (p ∈ changed)) ∧
      (p ∈ changed → sub'.readOnly = false)
  parent : s.fs.readOnly = (before.readOnly && !unlocked)
  system : ∀ p, p ∈ changed ∨ p ∈ s.frozen → p ∈ systemDirs
  nodup : changed.Nodup

theorem Inv.kept (h : Inv before s) : Kept before s s.changed s.unlocked where
  flags := h.flags
  parent := h.parent
  system p hp := h.system p (.inr (.inr hp))
  nodup := h.nodup

namespace Kept

theorem lock (h : Kept before s s.frozen s.parentWritable) (hchecked : before.readOnly = true)
    (raised : Bool) : Inv before { s with pc := .lock, raised } where
  flags := h.flags
  parent := h.parent
  checked := .inr (.inr hchecked)
  system p hp := by
    rcases hp with hp | hp | hp
    · cases hp
    · cases hp
    · exact h.system p hp
  sealed _ hp := nomatch hp
  held _ _ hpc := nomatch hpc
  writable _ _ hpc := nomatch hpc
  nodup := h.nodup
  fresh hpc := nomatch hpc

theorem thaw {rest : List Text} (h : Kept before s rest false) (hchecked : before.readOnly = true)
    (raised : Bool) : Inv before { s with pc := .thaw rest, raised } where
  flags := h.flags
  parent := h.parent
  checked := .inr (.inr hchecked)
  system p hp := by
    rcases hp with hp | hp | hp
    · cases hp
    · cases hp
    · exact h.system p hp
  sealed _ hp := nomatch hp
  held _ _ hpc := nomatch hpc
  writable _ _ hpc := nomatch hpc
  nodup := h.nodup
  fresh hpc := nomatch hpc

theorem done {rest : List Text} (h : Kept before s rest false)
    (hgone : ∀ p ∈ rest, s.fs.subs p = none) (raised : Bool) :
    Inv before { s with pc := .done, raised } where
  flags p sub hsub := by
    obtain ⟨sub', hbefore, hflag, -⟩ := h.flags p sub hsub
    have hp : p ∉ rest := by
      intro hp
      rw [hgone p hp] at hsub
      cases hsub
    rw [decide_eq_false hp, Bool.or_false] at hflag
    exact ⟨sub', hbefore, by rw [hflag]; exact (Bool.or_false _).symm, fun hp => nomatch hp⟩
  parent := h.parent
  checked := .inr (.inl rfl)
  system p hp := by
    rcases hp with hp | hp | hp | hp
    · cases hp
    · cases hp
    · cases hp
    · exact h.system p (.inr hp)
  sealed _ hp := nomatch hp
  held _ _ hpc := nomatch hpc
  writable _ _ hpc := nomatch hpc
  nodup := List.nodup_nil
  fresh hpc := nomatch hpc

end Kept

/-- An exception that comes where the clean-up puts everything back. -/
theorem Inv.raise (h : Inv before s) (hsettled : ¬Unsettled s) : Inv before s.raise := by
  obtain ⟨fs, pc, children, frozen, parentWritable, removed, raised⟩ := s
  have hchecked := h.checked
  cases pc with
  | start => exact h.kept.done (fun _ hp => nomatch hp) true
  | inspect rest => exact h.kept.lock (by simpa using hchecked) true
  | flag child rest => exact h.kept.lock (by simpa using hchecked) true
  | freeze child rest => exact h.kept.lock (by simpa using hchecked) true
  | noteFrozen child rest => exact absurd trivial hsettled
  | scan child rest => exact h.kept.lock (by simpa using hchecked) true
  | unlock => exact h.kept.lock (by simpa using hchecked) true
  | noteUnlocked => exact absurd trivial hsettled
  | delete rest => exact h.kept.lock (by simpa using hchecked) true
  | lock =>
      obtain rfl : parentWritable = false := Bool.eq_false_iff.mpr hsettled
      exact h.kept.thaw (by simpa using hchecked) true
  | thaw rest =>
      refine h.kept.done (fun p hp => ?_) true
      by_contra hsub
      exact hsettled ⟨p, hp, hsub⟩
  | thawOne child rest =>
      refine h.kept.done (fun p hp => ?_) true
      by_contra hsub
      exact hsettled ⟨p, hp, hsub⟩
  | done => exact h.kept.done (fun _ hp => nomatch hp) true

/-! ## What the calls change -/

theorem modify_subs (fs : Fs) (child : Text) (f : Sub → Sub) (p : Text) :
    (fs.modify child f).subs p = if p = child then (fs.subs child).map f else fs.subs p :=
  Function.update_apply ..

theorem subs_modify {fs : Fs} {f : Sub → Sub} {sub : Sub}
    (h : (fs.modify child f).subs p = some sub) :
    ∃ sub', fs.subs p = some sub' ∧ sub = if p = child then f sub' else sub' := by
  rw [modify_subs] at h
  split at h
  case isTrue hp =>
    obtain ⟨sub', hsub, rfl⟩ := Option.map_eq_some_iff.mp h
    exact ⟨sub', hp ▸ hsub, (if_pos hp).symm⟩
  case isFalse hp => exact ⟨sub, h, (if_neg hp).symm⟩

theorem modify_subs_ne_none {fs : Fs} {sub : Sub} (f : Sub → Sub) (h : fs.subs p = some sub) :
    (fs.modify child f).subs p ≠ none := by
  rw [modify_subs]
  split
  case isTrue hp =>
    rw [← hp, h]
    exact Option.some_ne_none _
  case isFalse =>
    rw [h]
    exact Option.some_ne_none _

theorem delete_subs (fs : Fs) (child p : Text) :
    (fs.delete child).subs p = if p = child then none else fs.subs p :=
  Function.update_apply ..

theorem subs_delete {fs : Fs} {sub : Sub} (h : (fs.delete child).subs p = some sub) :
    p ≠ child ∧ fs.subs p = some sub := by
  rw [delete_subs] at h
  split at h
  · cases h
  case isFalse hp => exact ⟨hp, h⟩

/-- A writer changes neither flags nor what is sealed. -/
theorem Inv.edit {f : Nat → Nat} (h : Inv before s) (hedit : s.edit child f = some t) :
    Inv before t := by
  obtain ⟨hopen, rfl⟩ := Option.ite_some_none_eq_some.mp hedit
  have hsub : ∀ p sub, (s.fs.modify child fun sub => { sub with entries := f sub.entries }).subs p =
      some sub → ∃ sub', s.fs.subs p = some sub' ∧ sub.readOnly = sub'.readOnly ∧
        (sub'.readOnly = true → sub = sub') := by
    intro p sub hp
    obtain ⟨sub', hsub', rfl⟩ := subs_modify hp
    refine ⟨sub', hsub', by split <;> rfl, fun hro => if_neg ?_⟩
    rintro rfl
    rw [hsub'] at hopen
    simp [hro] at hopen
  refine ⟨fun p sub hp => ?_, h.parent, h.checked, h.system, fun p hp => ?_, fun c rest hpc => ?_,
    fun c rest hpc sub hc => ?_, h.nodup, h.fresh⟩
  · obtain ⟨sub', hsub', hro, -⟩ := hsub p sub hp
    rw [hro]
    exact h.flags p sub' hsub'
  · refine (h.sealed p hp).imp_right fun hsealed sub hp => ?_
    obtain ⟨sub', hsub', -, hsame⟩ := hsub p sub hp
    have hboth := hsealed sub' hsub'
    rw [hsame hboth.1]
    exact hboth
  · intro sub hc
    obtain ⟨sub', hsub', hro, -⟩ := hsub c sub hc
    rw [hro]
    exact h.held c rest hpc sub' hsub'
  · obtain ⟨sub', hsub', hro, -⟩ := hsub c sub hc
    rw [hro]
    exact h.writable c rest hpc sub' hsub'

/-! ## Steps -/

/-- Only the next step is another one, among the same children. -/
theorem Inv.move {pc : Pc} (h : Inv before s) (hchecked : before.readOnly = true)
    (hchanged : ({ s with pc } : State).changed = s.changed)
    (hunlocked : ({ s with pc } : State).unlocked = s.unlocked)
    (hahead : ({ s with pc } : State).ahead ⊆ s.ahead)
    (hdoomed : ({ s with pc } : State).doomed ⊆ s.doomed)
    (hsealed : ∀ p ∈ s.ahead, p ∈ ({ s with pc } : State).ahead ∨ Sealed s.fs p)
    (hheld : ∀ child rest, pc = .noteFrozen child rest ∨ pc = .scan child rest →
      ReadOnly s.fs child)
    (hwritable : ∀ child rest, pc = .freeze child rest →
      ∀ sub, s.fs.subs child = some sub → sub.readOnly = false)
    (hstart : pc ≠ .start) : Inv before { s with pc } where
  flags := by
    rw [hchanged]
    exact h.flags
  parent := by
    rw [hunlocked]
    exact h.parent
  checked := .inr (.inr hchecked)
  system p hp := by
    rw [hchanged] at hp
    exact h.system p (hp.imp (hahead ·) (.imp_left (hdoomed ·)))
  sealed p hp := (h.sealed p (hdoomed hp)).elim (hsealed p) .inr
  held := hheld
  writable := hwritable
  nodup := by
    rw [hchanged]
    exact h.nodup
  fresh hpc := absurd hpc hstart

theorem Inv.begin (h : Inv before s) (hpc : s.pc = .start) : Inv before (s.begin root) := by
  obtain ⟨fs, pc, children, frozen, parentWritable, removed, raised⟩ := s
  subst hpc
  have hraise := h.raise not_false
  rw [State.begin]
  split
  · exact h.kept.done (fun _ hp => nomatch hp) raised
  split
  · exact hraise
  case isFalse hfine =>
    dsimp only
    split
    · exact h.kept.done (fun _ hp => nomatch hp) raised
    split
    · exact hraise
    case isFalse hsystem =>
      obtain ⟨rfl, rfl⟩ : frozen = [] ∧ parentWritable = false := h.fresh rfl
      have hparent : fs.readOnly = before.readOnly := h.parent.trans (Bool.and_true _)
      have hreadOnly : fs.readOnly = true := by
        cases hflag : fs.readOnly
        · simp [hflag] at hfine
        · rfl
      have hinside : ∀ c ∈ fs.children, c.1 ∈ systemDirs := by
        intro c hc
        by_contra hout
        exact hsystem (List.any_eq_true.mpr ⟨c, hc, decide_eq_true hout⟩)
      refine ⟨h.flags, hparent.trans (Bool.and_true _).symm, .inr (.inr (hparent ▸ hreadOnly)),
        fun p hp => ?_, fun p hp => .inl hp, fun _ _ hpc => (nomatch hpc),
        fun _ _ hpc => (nomatch hpc), List.nodup_nil, fun hpc => (nomatch hpc)⟩
      have hp : p ∈ fs.children.map Prod.fst := by
        rcases hp with hp | hp | hp | hp
        · exact hp
        · exact hp
        · cases hp
        · cases hp
      obtain ⟨c, hc, rfl⟩ := List.mem_map.mp hp
      exact hinside c hc

theorem Inv.nextInspect (h : Inv before s) {children : List (Text × Nat)}
    (hpc : s.pc = .inspect children) : Inv before (s.next root) := by
  obtain ⟨fs, pc, all, frozen, parentWritable, removed, raised⟩ := s
  subst hpc
  have hchecked : before.readOnly = true := by simpa using h.checked
  match children with
  | [] =>
      exact h.move hchecked rfl rfl (List.Subset.refl _) (List.Subset.refl _) (fun _ hp => .inl hp)
        (fun _ _ hpc => by simp at hpc) (fun _ _ hpc => nomatch hpc) nofun
  | (child, id) :: rest =>
      rw [State.next]
      dsimp only
      split
      · exact h.move hchecked rfl rfl (List.Subset.refl _) (List.Subset.refl _)
          (fun _ hp => .inl hp) (fun _ _ hpc => by simp at hpc) (fun _ _ hpc => nomatch hpc) nofun
      · exact h.raise not_false

theorem Inv.nextFlag (h : Inv before s) (hpc : s.pc = .flag child rest) :
    Inv before (s.next root) := by
  obtain ⟨fs, pc, all, frozen, parentWritable, removed, raised⟩ := s
  subst hpc
  have hchecked : before.readOnly = true := by simpa using h.checked
  rw [State.next]
  dsimp only
  split
  · exact h.raise not_false
  case h_2 sub hsub =>
    split
    case isTrue hro =>
      refine h.move hchecked rfl rfl (List.Subset.refl _) (List.Subset.refl _)
        (fun _ hp => .inl hp) (fun c rest hpc => ?_) (fun _ _ hpc => (nomatch hpc)) nofun
      obtain ⟨⟨⟩⟩ | ⟨⟨⟩⟩ := hpc
      intro sub' hsub'
      obtain rfl := Option.some.inj (hsub.symm.trans hsub')
      exact hro
    case isFalse hro =>
      refine h.move hchecked rfl rfl (List.Subset.refl _) (List.Subset.refl _)
        (fun _ hp => .inl hp) (fun _ _ hpc => (nomatch hpc)) (fun c rest hpc sub' hsub' => ?_) nofun
      cases hpc
      obtain rfl := Option.some.inj (hsub.symm.trans hsub')
      exact Bool.eq_false_iff.mpr hro

theorem Inv.nextFreeze (h : Inv before s) (hpc : s.pc = .freeze child rest) :
    Inv before (s.next root) := by
  obtain ⟨fs, pc, all, frozen, parentWritable, removed, raised⟩ := s
  subst hpc
  have hchecked : before.readOnly = true := by simpa using h.checked
  rw [State.next]
  dsimp only
  split
  · exact h.raise not_false
  case h_2 sub hsub =>
    have hopen := h.writable child rest rfl sub hsub
    obtain ⟨sub', hbefore, hflag, -⟩ := h.flags child sub hsub
    -- It has its own flag, which it has not by a change.
    rw [hopen] at hflag
    obtain ⟨hown, hnew⟩ := Bool.or_eq_false_iff.mp hflag.symm
    have hnew : child ∉ frozen := of_decide_eq_false hnew
    have hin : child ∈ systemDirs := h.system child (.inl List.mem_cons_self)
    refine ⟨fun p sub₁ hp => ?_, h.parent, .inr (.inr hchecked), fun p hp => ?_, fun p hp => ?_,
      fun c rest hpc => ?_, fun _ _ hpc => (nomatch hpc), List.nodup_cons.mpr ⟨hnew, h.nodup⟩,
      fun hpc => (nomatch hpc)⟩
    · obtain ⟨sub₀, hsub₀, rfl⟩ := subs_modify hp
      by_cases hc : p = child
      · subst hc
        rw [if_pos rfl]
        exact ⟨sub', hbefore, by simp [State.changed], fun _ => hown⟩
      · rw [if_neg hc]
        obtain ⟨sub₁, hbefore₁, hflag₁, hown₁⟩ := h.flags p sub₀ hsub₀
        have hmem : p ∈ child :: frozen ↔ p ∈ frozen := by simp [hc]
        refine ⟨sub₁, hbefore₁, ?_, fun hp => hown₁ (hmem.mp hp)⟩
        rw [hflag₁]
        exact congrArg _ (decide_eq_decide.mpr hmem.symm)
    · rcases hp with hp | hp | hp | hp
      · exact h.system p (.inl hp)
      · exact h.system p (.inr (.inl hp))
      · rcases List.mem_cons.mp hp with rfl | hp
        · exact hin
        · exact h.system p (.inr (.inr (.inr hp)))
      · exact h.system p (.inr (.inr (.inr hp)))
    · rcases h.sealed p hp with hahead | hsealed
      · exact .inl hahead
      · right
        intro sub₁ hp
        obtain ⟨sub₀, hsub₀, rfl⟩ := subs_modify hp
        have hboth := hsealed sub₀ hsub₀
        split
        · exact ⟨rfl, hboth.2⟩
        · exact hboth
    · obtain ⟨⟨⟩⟩ | ⟨⟨⟩⟩ := hpc
      intro sub₁ hp
      obtain ⟨sub₀, hsub₀, rfl⟩ := subs_modify hp
      rw [if_pos rfl]

theorem Inv.nextNoteFrozen (h : Inv before s) (hpc : s.pc = .noteFrozen child rest) :
    Inv before (s.next root) := by
  obtain ⟨fs, pc, all, frozen, parentWritable, removed, raised⟩ := s
  subst hpc
  have hchecked : before.readOnly = true := by simpa using h.checked
  have hmem : ∀ p, p ∈ frozen ++ [child] ↔ p ∈ child :: frozen := by
    intro p
    rw [List.mem_append, List.mem_singleton, List.mem_cons, or_comm]
  refine ⟨fun p sub hp => ?_, h.parent, .inr (.inr hchecked), fun p hp => ?_, h.sealed,
    fun c rest hpc => ?_, fun _ _ hpc => (nomatch hpc), ?_, fun hpc => (nomatch hpc)⟩
  · obtain ⟨sub', hbefore, hflag, hown⟩ := h.flags p sub hp
    refine ⟨sub', hbefore, ?_, fun hp => hown ((hmem p).mp hp)⟩
    rw [hflag]
    exact congrArg _ (decide_eq_decide.mpr (hmem p).symm)
  · rcases hp with hp | hp | hp | hp
    · exact h.system p (.inl hp)
    · exact h.system p (.inr (.inl hp))
    · exact h.system p (.inr (.inr (.inl ((hmem p).mp hp))))
    · exact h.system p (.inr (.inr (.inl ((hmem p).mp hp))))
  · obtain ⟨⟨⟩⟩ | ⟨⟨⟩⟩ := hpc
    exact h.held child _ (.inl rfl)
  · have hnodup : (child :: frozen).Nodup := h.nodup
    exact (List.perm_append_singleton child frozen).nodup_iff.mpr hnodup

theorem Inv.nextScan (h : Inv before s) (hpc : s.pc = .scan child rest) :
    Inv before (s.next root) := by
  obtain ⟨fs, pc, all, frozen, parentWritable, removed, raised⟩ := s
  subst hpc
  have hchecked : before.readOnly = true := by simpa using h.checked
  rw [State.next]
  dsimp only
  split
  · exact h.raise not_false
  case h_2 sub hsub =>
    split
    case isTrue hempty =>
      refine h.move hchecked rfl rfl (List.subset_cons_self _ _) (List.Subset.refl _)
        (fun p hp => ?_) (fun _ _ hpc => by simp at hpc) (fun _ _ hpc => (nomatch hpc)) nofun
      rcases List.mem_cons.mp hp with rfl | hp
      · right
        intro sub' hsub'
        obtain rfl := Option.some.inj (hsub.symm.trans hsub')
        exact ⟨h.held p rest (.inr rfl) sub hsub, hempty⟩
      · exact .inl hp
    · exact h.raise not_false

theorem Inv.nextUnlock (h : Inv before s) (hpc : s.pc = .unlock) : Inv before (s.next root) := by
  obtain ⟨fs, pc, all, frozen, parentWritable, removed, raised⟩ := s
  subst hpc
  have hchecked : before.readOnly = true := by simpa using h.checked
  exact ⟨h.flags, (Bool.and_false _).symm, .inr (.inr hchecked), h.system, h.sealed,
    fun _ _ hpc => by simp [State.next] at hpc, fun _ _ hpc => (nomatch hpc), h.nodup,
    fun hpc => (nomatch hpc)⟩

theorem Inv.nextNoteUnlocked (h : Inv before s) (hpc : s.pc = .noteUnlocked) :
    Inv before (s.next root) := by
  obtain ⟨fs, pc, all, frozen, parentWritable, removed, raised⟩ := s
  subst hpc
  have hchecked : before.readOnly = true := by simpa using h.checked
  exact ⟨h.flags, h.parent, .inr (.inr hchecked), h.system, h.sealed,
    fun _ _ hpc => by simp [State.next] at hpc, fun _ _ hpc => (nomatch hpc), h.nodup,
    fun hpc => (nomatch hpc)⟩

theorem Inv.nextDelete (h : Inv before s) {children : List Text} (hpc : s.pc = .delete children) :
    Inv before (s.next root) := by
  obtain ⟨fs, pc, all, frozen, parentWritable, removed, raised⟩ := s
  subst hpc
  have hchecked : before.readOnly = true := by simpa using h.checked
  match children with
  | [] => exact h.kept.lock hchecked raised
  | child :: rest =>
      rw [State.next]
      dsimp only
      split
      · exact h.raise not_false
      refine ⟨fun p sub hp => ?_, h.parent, .inr (.inr hchecked), fun p hp => ?_, fun p hp => ?_,
        fun _ _ hpc => by simp at hpc, fun _ _ hpc => (nomatch hpc), h.nodup,
        fun hpc => (nomatch hpc)⟩
      · exact h.flags p sub (subs_delete hp).2
      · exact h.system p (hp.imp_right (.imp_left (List.mem_cons_of_mem child)))
      · right
        intro sub hsub
        rcases h.sealed p (List.mem_cons_of_mem child hp) with hahead | hsealed
        · cases hahead
        · exact hsealed sub (subs_delete hsub).2

/-! ## The clean-up -/

theorem Inv.nextLock (h : Inv before s) (hpc : s.pc = .lock) : Inv before (s.next root) := by
  obtain ⟨fs, pc, all, frozen, parentWritable, removed, raised⟩ := s
  subst hpc
  have hchecked : before.readOnly = true := by simpa using h.checked
  have hparent : (if parentWritable then { fs with readOnly := true } else fs).readOnly =
      before.readOnly := by
    have hparent := h.parent
    cases parentWritable with
    | true => exact hchecked.symm
    | false => exact hparent.trans (Bool.and_true _)
  have hsubs : (if parentWritable then { fs with readOnly := true } else fs).subs = fs.subs := by
    split <;> rfl
  refine Kept.thaw (s := ⟨if parentWritable then { fs with readOnly := true } else fs, .lock, all,
    frozen, parentWritable, removed, raised⟩) ⟨fun p sub hp => ?_,
      hparent.trans (Bool.and_true _).symm, h.kept.system, h.nodup⟩ hchecked raised
  rw [hsubs] at hp
  exact h.flags p sub hp

theorem Inv.nextThaw (h : Inv before s) {children : List Text} (hpc : s.pc = .thaw children) :
    Inv before (s.next root) := by
  obtain ⟨fs, pc, all, frozen, parentWritable, removed, raised⟩ := s
  subst hpc
  have hchecked : before.readOnly = true := by simpa using h.checked
  match children with
  | [] => exact h.kept.done (fun _ hp => (nomatch hp)) raised
  | child :: rest =>
      rw [State.next]
      dsimp only
      split
      · exact h.move hchecked rfl rfl (List.Subset.refl _) (List.Subset.refl _)
          (fun _ hp => .inl hp) (fun _ _ hpc => by simp at hpc) (fun _ _ hpc => (nomatch hpc)) nofun
      case isFalse hgone =>
        have hgone : fs.subs child = none := Option.not_isSome_iff_eq_none.mp hgone
        refine Kept.thaw ⟨fun p sub hp => ?_, h.parent, fun p hp => ?_, h.nodup.of_cons⟩ hchecked
          raised
        · obtain ⟨sub', hbefore, hflag, hown⟩ := h.flags p sub hp
          have hmem : p ∈ child :: rest ↔ p ∈ rest := by
            refine List.mem_cons.trans (or_iff_right ?_)
            rintro rfl
            rw [hgone] at hp
            cases hp
          refine ⟨sub', hbefore, ?_, fun hp => hown (hmem.mpr hp)⟩
          rw [hflag]
          exact congrArg _ (decide_eq_decide.mpr hmem)
        · exact h.kept.system p (hp.imp_left (List.mem_cons_of_mem child))

theorem Inv.nextThawOne (h : Inv before s) {rest : List Text} (hpc : s.pc = .thawOne child rest) :
    Inv before (s.next root) := by
  obtain ⟨fs, pc, all, frozen, parentWritable, removed, raised⟩ := s
  subst hpc
  have hchecked : before.readOnly = true := by simpa using h.checked
  have hnew : child ∉ rest := (List.nodup_cons.mp h.nodup).1
  refine Kept.thaw (s := ⟨fs.setReadOnly child false, .thawOne child rest, all, frozen,
    parentWritable, removed, raised⟩) ⟨fun p sub hp => ?_, h.parent, fun p hp => ?_,
      h.nodup.of_cons⟩ hchecked raised
  · obtain ⟨sub₀, hsub₀, rfl⟩ := subs_modify hp
    obtain ⟨sub', hbefore, hflag, hown⟩ := h.flags p sub₀ hsub₀
    by_cases hc : p = child
    · subst hc
      rw [if_pos rfl]
      refine ⟨sub', hbefore, ?_, fun hp => absurd hp hnew⟩
      rw [hown List.mem_cons_self, decide_eq_false hnew]
      rfl
    · rw [if_neg hc]
      have hmem : p ∈ child :: rest ↔ p ∈ rest := by simp [hc]
      refine ⟨sub', hbefore, ?_, fun hp => hown (hmem.mpr hp)⟩
      rw [hflag]
      exact congrArg _ (decide_eq_decide.mpr hmem)
  · exact h.kept.system p (hp.imp_left (List.mem_cons_of_mem child))

theorem Inv.next (h : Inv before s) : Inv before (s.next root) := by
  cases hpc : s.pc with
  | start =>
      rw [State.next, hpc]
      exact h.begin hpc
  | inspect => exact h.nextInspect hpc
  | flag => exact h.nextFlag hpc
  | freeze => exact h.nextFreeze hpc
  | noteFrozen => exact h.nextNoteFrozen hpc
  | scan => exact h.nextScan hpc
  | unlock => exact h.nextUnlock hpc
  | noteUnlocked => exact h.nextNoteUnlocked hpc
  | delete => exact h.nextDelete hpc
  | lock => exact h.nextLock hpc
  | thaw => exact h.nextThaw hpc
  | thawOne => exact h.nextThawOne hpc
  | done =>
      rw [State.next, hpc]
      exact h

/-- What a step is. -/
inductive Stepped (root : Root) (s : State) : Action → State → Prop where
  | go : Stepped root s .go (s.next root)
  | fail : Stepped root s .fail s.raise
  | sigterm : Stepped root s .sigterm s.raise
  | write {child : Text} {t : State} (h : s.edit child (· + 1) = some t) :
      Stepped root s (.write child) t
  | erase {child : Text} {t : State} (h : s.edit child (· - 1) = some t) :
      Stepped root s (.erase child) t

theorem stepped {a : Action} (h : step root s a = some t) : Stepped root s a t := by
  cases a with
  | go =>
      rw [step] at h
      split at h
      · cases h
      · exact Option.some.inj h ▸ .go
  | fail =>
      rw [step] at h
      split at h
      · cases h
      · cases h
      · cases h
      · exact Option.some.inj h ▸ .fail
  | sigterm =>
      rw [step] at h
      split at h
      · cases h
      · exact Option.some.inj h ▸ .sigterm
  | write child => exact .write h
  | erase child => exact .erase h

theorem Inv.step {a : Action} (h : Inv before s) (hstep : step root s a = some t)
    (hsettled : Settled s a t) : Inv before t := by
  cases stepped hstep with
  | go => exact h.next
  | fail => exact h.raise hsettled
  | sigterm => exact h.raise hsettled
  | write hedit => exact h.edit hedit
  | erase hedit => exact h.edit hedit

end MindOS.Base.Prune
