import MindOS.Base.Prune.Invariant

/-!
# Pruning keeps data and flags

Nothing that has an entry is deleted, nothing but the children in the system directories changes,
and the flags are at the end what they were.
-/

namespace MindOS.Base.Prune

open Transition

variable {before : Fs} {s t : State} {root : Root} {p child : Text}

/-- The flags are what they were. -/
structure Restored (before : Fs) (fs : Fs) : Prop where
  parent : fs.readOnly = before.readOnly
  children : ∀ p sub, fs.subs p = some sub →
    ∃ sub', before.subs p = some sub' ∧ sub.readOnly = sub'.readOnly

/-- What a step is to be. -/
structure Safe (before : Fs) (s : State) (a : Action) (t : State) : Prop where
  /-- Nothing that has an entry is deleted. -/
  deleted : ∀ p sub, s.fs.subs p = some sub → t.fs.subs p = none → sub.entries = 0
  /-- Nothing outside of the system directories is touched. -/
  outside : ∀ p, p ∉ systemDirs → (∀ child, a ≠ .write child ∧ a ≠ .erase child) →
    t.fs.subs p = s.fs.subs p
  restored : t.pc = .done → Restored before t.fs

theorem raise_fs (s : State) : s.raise.fs = s.fs := by
  rw [State.raise]
  split <;> rfl

theorem next_subs (root : Root) (s : State) :
    (s.next root).fs.subs = s.fs.subs ∨
      (∃ child flag, (child ∈ s.ahead ∨ child ∈ s.changed) ∧
        (s.next root).fs.subs = (s.fs.setReadOnly child flag).subs) ∨
      ∃ child, child ∈ s.doomed ∧ s.ahead = [] ∧
        (s.next root).fs.subs = (s.fs.delete child).subs := by
  obtain ⟨fs, pc, all, frozen, parentWritable, removed, raised⟩ := s
  cases pc with
  | start =>
      left
      rw [State.next, State.begin]
      dsimp only
      split_ifs <;> rfl
  | inspect rest =>
      left
      cases rest with
      | nil => rfl
      | cons first rest =>
          obtain ⟨child, id⟩ := first
          rw [State.next]
          dsimp only
          split <;> rfl
  | flag child rest =>
      left
      rw [State.next]
      dsimp only
      split <;> rfl
  | freeze child rest =>
      rw [State.next]
      dsimp only
      split
      · exact .inl rfl
      · exact .inr (.inl ⟨child, true, .inl List.mem_cons_self, rfl⟩)
  | noteFrozen child rest => exact .inl rfl
  | scan child rest =>
      left
      rw [State.next]
      dsimp only
      split
      · rfl
      · split <;> rfl
  | unlock => exact .inl rfl
  | noteUnlocked => exact .inl rfl
  | delete rest =>
      cases rest with
      | nil => exact .inl rfl
      | cons child rest =>
          rw [State.next]
          dsimp only
          split
          · exact .inl rfl
          · exact .inr (.inr ⟨child, List.mem_cons_self, rfl, rfl⟩)
  | lock =>
      left
      rw [State.next]
      dsimp only
      split <;> rfl
  | thaw rest =>
      cases rest with
      | nil => exact .inl rfl
      | cons child rest => exact .inl rfl
  | thawOne child rest => exact .inr (.inl ⟨child, false, .inr List.mem_cons_self, rfl⟩)
  | done => exact .inl rfl

theorem Inv.next_deleted (h : Inv before s) {sub : Sub} (hsub : s.fs.subs p = some sub)
    (hgone : (s.next root).fs.subs p = none) : sub.entries = 0 := by
  obtain hsame | ⟨child, flag, -, hset⟩ | ⟨child, hdoomed, hahead, hdelete⟩ := next_subs root s
  · rw [hsame, hsub] at hgone
    cases hgone
  · rw [hset] at hgone
    exact absurd hgone (modify_subs_ne_none _ hsub)
  · rw [hdelete, delete_subs] at hgone
    split at hgone
    case isTrue hp =>
      subst hp
      obtain hnone | hsealed := h.sealed p hdoomed
      · rw [hahead] at hnone
        cases hnone
      · exact (hsealed sub hsub).2
    case isFalse =>
      rw [hsub] at hgone
      cases hgone

theorem Inv.restored (h : Inv before s) (hpc : s.pc = .done) : Restored before s.fs := by
  obtain ⟨fs, pc, all, frozen, parentWritable, removed, raised⟩ := s
  subst hpc
  refine ⟨h.parent.trans (Bool.and_true _), fun p sub hp => ?_⟩
  obtain ⟨sub', hbefore, hflag, -⟩ := h.flags p sub hp
  exact ⟨sub', hbefore, hflag.trans (Bool.or_false _)⟩

theorem edit_subs {f : Nat → Nat} (hedit : s.edit child f = some t) {sub : Sub}
    (hsub : s.fs.subs p = some sub) : t.fs.subs p ≠ none := by
  obtain ⟨-, rfl⟩ := Option.ite_some_none_eq_some.mp hedit
  exact modify_subs_ne_none _ hsub

theorem Inv.safe {a : Action} (h : Inv before s) (hstep : Prune.step root s a = some t)
    (hsettled : Settled s a t) : Safe before s a t where
  deleted p sub hsub hgone := by
    cases stepped hstep with
    | go => exact h.next_deleted hsub hgone
    | fail =>
        rw [raise_fs, hsub] at hgone
        cases hgone
    | sigterm =>
        rw [raise_fs, hsub] at hgone
        cases hgone
    | write hedit => exact absurd hgone (edit_subs hedit hsub)
    | erase hedit => exact absurd hgone (edit_subs hedit hsub)
  outside p hp hwriter := by
    cases stepped hstep with
    | go =>
        obtain hsame | ⟨child, flag, hin, hset⟩ | ⟨child, hin, -, hdelete⟩ := next_subs root s
        · rw [hsame]
        · rw [hset, Fs.setReadOnly, modify_subs, if_neg]
          rintro rfl
          exact hp (h.system p (hin.imp_right fun hin => .inr (.inl hin)))
        · rw [hdelete, delete_subs, if_neg]
          rintro rfl
          exact hp (h.system p (.inr (.inl hin)))
    | fail => rw [raise_fs]
    | sigterm => rw [raise_fs]
    | write => exact absurd rfl (hwriter _).1
    | erase => exact absurd rfl (hwriter _).2
  restored hpc := (h.step hstep hsettled).restored hpc

theorem inv_init (fs : Fs) : Inv fs { fs } where
  flags p sub hp := ⟨sub, hp, (Bool.or_false _).symm, fun hp => nomatch hp⟩
  parent := (Bool.and_true _).symm
  checked := .inl rfl
  system p hp := by
    rcases hp with hp | hp | hp | hp <;> cases hp
  sealed _ hp := nomatch hp
  held _ _ hpc := nomatch hpc
  writable _ _ hpc := nomatch hpc
  nodup := List.nodup_nil
  fresh _ := ⟨rfl, rfl⟩

/-- Pruning is safe in every run in which no exception comes between a change of a flag and its
note, or in the clean-up before the flags are back. -/
theorem prune_safe (root : Root) (fs : Fs) (actions : List Action)
    (h : Along (step root) Settled { fs } actions) : Along (step root) (Safe fs) { fs } actions :=
  Along.imp (Inv fs) (fun _ _ _ hs hstep hsettled => hs.step hstep hsettled)
    (fun _ _ _ hs hstep hsettled => hs.safe hstep hsettled) (inv_init fs) h

/-- A snapshot with one child, which is empty. -/
def oneChild : Fs where
  readOnly := true
  paths := ["var/lib/machines"]
  subs p := if p = "var/lib/machines" then some ⟨257, false, 0⟩ else none

def keptRoot : Root := ⟨true, false, false, false⟩

/-- A signal comes when the child has just been frozen, and is put back. -/
theorem prune_safe_signal : Along (step keptRoot) (Safe oneChild) { fs := oneChild }
    [.go, .go, .go, .go, .go, .sigterm, .go, .go, .go, .go] := by
  refine prune_safe keptRoot oneChild _ ?_
  rintro _ ⟨⟩
  refine ⟨trivial, ?_⟩
  rintro _ ⟨⟩
  refine ⟨trivial, ?_⟩
  rintro _ ⟨⟩
  refine ⟨trivial, ?_⟩
  rintro _ ⟨⟩
  refine ⟨trivial, ?_⟩
  rintro _ ⟨⟩
  refine ⟨trivial, ?_⟩
  rintro _ ⟨⟩
  refine ⟨not_false, ?_⟩
  rintro _ ⟨⟩
  refine ⟨trivial, ?_⟩
  rintro _ ⟨⟩
  refine ⟨trivial, ?_⟩
  rintro _ ⟨⟩
  refine ⟨trivial, ?_⟩
  rintro _ ⟨⟩
  exact ⟨trivial, trivial⟩

/-- A signal comes between the change of a flag and its note. -/
theorem prune_interrupted : ¬Along (step keptRoot) (Safe oneChild) { fs := oneChild }
    [.go, .go, .go, .go, .sigterm, .go, .go] := by
  intro h
  obtain ⟨-, h⟩ := h _ rfl
  obtain ⟨-, h⟩ := h _ rfl
  obtain ⟨-, h⟩ := h _ rfl
  obtain ⟨-, h⟩ := h _ rfl
  obtain ⟨-, h⟩ := h _ rfl
  obtain ⟨-, h⟩ := h _ rfl
  obtain ⟨hsafe, -⟩ := h _ rfl
  obtain ⟨sub, hbefore, hflag⟩ :=
    (hsafe.restored rfl).children "var/lib/machines" ⟨257, true, 0⟩ rfl
  obtain rfl := Option.some.inj hbefore
  cases hflag

end MindOS.Base.Prune
