import Mathlib.Data.List.Basic
import Mathlib.Data.List.Induction
import Mathlib.Data.Option.Basic

/-!
# Transition systems

## Runs of a partial step function

A system is a function that says where a label leads from a state, or that the
label is not enabled there. All choice (who moves, what the environment answers)
is in the labels, so a run is a list of labels and can be evaluated. A property
of steps holds along a run when every step taken meets it.
-/

namespace Transition

variable {σ α : Type*}

/-- The state after a run, if every label was enabled. -/
def exec (step : σ → α → Option σ) : σ → List α → Option σ
  | s, [] => some s
  | s, a :: as => (step s a).bind fun t => exec step t as

/-- Every step taken by the run meets `P`, read on the state before, the label and
the state after. -/
def Along (step : σ → α → Option σ) (P : σ → α → σ → Prop) : σ → List α → Prop
  | _, [] => True
  | s, a :: as => ∀ t, step s a = some t → P s a t ∧ Along step P t as

variable {step : σ → α → Option σ} {P Q : σ → α → σ → Prop}

@[simp] theorem exec_nil (s : σ) : exec step s [] = some s := rfl

theorem exec_cons (s : σ) (a : α) (as : List α) :
    exec step s (a :: as) = (step s a).bind fun t => exec step t as := rfl

theorem exec_append (s : σ) (as bs : List α) :
    exec step s (as ++ bs) = (exec step s as).bind fun t => exec step t bs := by
  induction as generalizing s with
  | nil => rfl
  | cons a as ih =>
      rw [List.cons_append, exec_cons, exec_cons, Option.bind_assoc]
      exact congrArg _ (funext fun t => ih t)

theorem Along.cons {s t : σ} {a : α} {as : List α} (hstep : step s a = some t) (hP : P s a t)
    (h : Along step P t as) : Along step P s (a :: as) := by
  intro u hu
  obtain rfl := Option.some.inj (hstep.symm.trans hu)
  exact ⟨hP, h⟩

theorem along_of_forall {R : α → Prop} {s : σ} {as : List α} (h : ∀ a ∈ as, R a) :
    Along step (fun _ a _ => R a) s as := by
  induction as generalizing s with
  | nil => trivial
  | cons a as ih =>
      intro t ht
      exact ⟨h a List.mem_cons_self, ih fun b hb => h b (List.mem_cons_of_mem a hb)⟩

theorem Along.exec {R : σ → Prop} (hP : ∀ s a t, P s a t → R t) {s t : σ} {as : List α}
    (hs : R s) (h : Along step P s as) (ht : exec step s as = some t) : R t := by
  induction as generalizing s with
  | nil =>
      cases ht
      exact hs
  | cons a as ih =>
      obtain ⟨u, hu, hrest⟩ := Option.bind_eq_some_iff.mp ht
      exact ih (hP s a u (h u hu).1) (h u hu).2 hrest

/-- Under an invariant that steps meeting `P` keep, `P` along a run gives every
property of a step that the invariant and `P` give. -/
theorem Along.imp (Inv : σ → Prop)
    (hkeep : ∀ s a t, Inv s → step s a = some t → P s a t → Inv t)
    (himp : ∀ s a t, Inv s → step s a = some t → P s a t → Q s a t)
    {s : σ} {as : List α} (hs : Inv s) (h : Along step P s as) : Along step Q s as := by
  induction as generalizing s with
  | nil => trivial
  | cons a as ih =>
      intro t ht
      obtain ⟨hP, hrest⟩ := h t ht
      exact ⟨himp s a t hs ht hP, ih (hkeep s a t hs ht hP) hrest⟩

theorem length_le_of_lt (Inv : σ → Prop) (μ : σ → Nat)
    (hkeep : ∀ s a t, Inv s → step s a = some t → P s a t → Inv t)
    (hlt : ∀ s a t, Inv s → step s a = some t → P s a t → μ t < μ s)
    {s t : σ} {as : List α} (hs : Inv s) (h : Along step P s as) (ht : exec step s as = some t) :
    as.length ≤ μ s := by
  induction as generalizing s with
  | nil => exact Nat.zero_le _
  | cons a as ih =>
      obtain ⟨u, hu, hrest⟩ := Option.bind_eq_some_iff.mp ht
      obtain ⟨hP, hlater⟩ := h u hu
      have hlength := ih (hkeep s a u hs hu hP) hlater hrest
      exact Nat.lt_of_le_of_lt hlength (hlt s a u hs hu hP)

theorem along_of_invariant (Inv : σ → Prop) {R : σ → Prop}
    (hkeep : ∀ s a t, Inv s → step s a = some t → Inv t) (hR : ∀ s, Inv s → R s) {s : σ}
    (as : List α) (hs : Inv s) : Along step (fun _ _ t => R t) s as := by
  induction as generalizing s with
  | nil => trivial
  | cons a as ih =>
      intro t ht
      have hInv := hkeep s a t hs ht
      exact ⟨hR t hInv, ih hInv⟩

/-- Two properties of steps that agree on every step from the invariant, and keep
it, hold along the same runs. -/
theorem along_iff (Inv : σ → Prop)
    (hkeep : ∀ s a t, Inv s → step s a = some t → P s a t → Inv t)
    (hiff : ∀ s a t, Inv s → step s a = some t → (P s a t ↔ Q s a t))
    {s : σ} (as : List α) (hs : Inv s) : Along step P s as ↔ Along step Q s as := by
  constructor
  · exact Along.imp Inv hkeep (fun s a t hi ht => (hiff s a t hi ht).mp) hs
  · exact Along.imp Inv (fun s a t hi ht hQ => hkeep s a t hi ht ((hiff s a t hi ht).mpr hQ))
      (fun s a t hi ht => (hiff s a t hi ht).mpr) hs

/-- The same along runs whose steps all meet a third property, which keeps the
invariant. -/
theorem Along.iff {R : σ → α → σ → Prop} (Inv : σ → Prop)
    (hkeep : ∀ s a t, Inv s → step s a = some t → R s a t → Inv t)
    (hiff : ∀ s a t, Inv s → step s a = some t → R s a t → (P s a t ↔ Q s a t))
    {s : σ} {as : List α} (hs : Inv s) (h : Along step R s as) :
    Along step P s as ↔ Along step Q s as := by
  induction as generalizing s with
  | nil => exact Iff.rfl
  | cons a as ih =>
      refine forall_congr' fun t => forall_congr' fun ht => ?_
      obtain ⟨hR, hrest⟩ := h t ht
      exact and_congr (hiff s a t hs ht hR) (ih (hkeep s a t hs ht hR) hrest)

end Transition

/-!
## Logs whose entries are justified by what precedes them

A log grows at its end. That every entry was allowed when it was written is then a
property of the log alone, and it is kept by writing entries that are allowed.
-/

namespace Transition

variable {ε : Type*} {P : List ε → ε → Prop} {log front back front' back' : List ε} {e e' : ε}

/-- Every entry meets `P` with the entries before it. -/
def Justified (P : List ε → ε → Prop) (log : List ε) : Prop :=
  ∀ front e back, log = front ++ e :: back → P front e

theorem Justified.nil : Justified P [] := by
  intro front e back h
  simp at h

theorem Justified.concat (h : Justified P log) (he : P log e) : Justified P (log ++ [e]) := by
  intro front d back hlog
  obtain rfl | ⟨back, x, rfl⟩ := List.eq_nil_or_concat back
  · obtain ⟨rfl, hd⟩ := List.append_inj' hlog rfl
    rwa [← List.singleton_inj.mp hd]
  · rw [List.concat_eq_append, ← List.cons_append, ← List.append_assoc] at hlog
    exact h front d back (List.append_inj' hlog rfl).1

theorem Justified.append (h : Justified P log) {entries : List ε}
    (hfree : ∀ front, ∀ e ∈ entries, P front e) : Justified P (log ++ entries) := by
  induction entries generalizing log with
  | nil => rwa [List.append_nil]
  | cons e entries ih =>
      rw [List.append_cons]
      exact ih (h.concat (hfree log e List.mem_cons_self))
        fun front d hd => hfree front d (List.mem_cons_of_mem e hd)

theorem Justified.of_append {more : List ε} (h : Justified P (log ++ more)) : Justified P log := by
  intro front e back hlog
  exact h front e (back ++ more) (by rw [hlog, List.append_assoc, List.cons_append])

theorem Justified.countP_le_one {p : ε → Bool} (h : Justified P log)
    (hfirst : ∀ front e, P front e → p e → ∀ x ∈ front, ¬p x) : log.countP p ≤ 1 := by
  induction log using List.reverseRecOn with
  | nil => exact Nat.zero_le 1
  | append_singleton front e ih =>
      rw [List.countP_append, List.countP_singleton]
      split
      case isTrue he =>
        have hzero := List.countP_eq_zero.mpr (hfirst front e (h front e [] rfl) he)
        exact Nat.add_le_add_right (Nat.le_of_eq hzero) 1
      case isFalse => exact ih h.of_append

theorem first_unique {p : ε → Prop} (h : front ++ e :: back = front' ++ e' :: back')
    (he : p e) (he' : p e') (hfront : ∀ x ∈ front, ¬p x) (hfront' : ∀ x ∈ front', ¬p x) :
    front.length = front'.length := by
  induction front generalizing front' with
  | nil =>
      cases front' with
      | nil => rfl
      | cons x front' =>
          obtain ⟨rfl, -⟩ := List.cons.inj h
          exact absurd he (hfront' _ List.mem_cons_self)
  | cons y front ih =>
      cases front' with
      | nil =>
          obtain ⟨rfl, -⟩ := List.cons.inj h
          exact absurd he' (hfront _ List.mem_cons_self)
      | cons x front' =>
          rw [List.length_cons, List.length_cons]
          have hrest := ih (List.cons.inj h).2 (fun x hx => hfront x (List.mem_cons_of_mem _ hx))
            fun x hx => hfront' x (List.mem_cons_of_mem _ hx)
          omega

end Transition
