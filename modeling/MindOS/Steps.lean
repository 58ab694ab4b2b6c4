import Mathlib.Data.List.Basic
import Mathlib.Data.Option.Basic
import Mathlib.Data.Setoid.Basic

/-!
# Steps that may fail

## Steps that may be refused

Steps are taken one after the other up to the first that is refused, and what was done until
then stays done. When each step works on a part of the state of its own, the parts tell
whether a refusal has left everything as it was.
-/

namespace Steps

variable {σ ε : Type*}

/-- Take steps up to the first that is refused. -/
def run : List (σ → Except ε σ) → σ → σ × Except ε Unit
  | [], s => (s, .ok ())
  | f :: fs, s =>
      match f s with
      | .error e => (s, .error e)
      | .ok t => run fs t

/-- A step that works on a part of the state, which is given by the states that agree on it:
from these the step is refused alike, or leaves states that agree again. -/
structure Part (σ ε : Type*) where
  step : σ → Except ε σ
  same : Setoid σ
  refused : ∀ {s t e}, same s t → step s = .error e → step t = .error e
  taken : ∀ {s t s' t'}, same s t → step s = .ok s' → step t = .ok t' → same s' t'

namespace Part

/-- No step at all, on any part. -/
def still (same : Setoid σ) : Part σ ε where
  step := .ok
  same := same
  refused := fun _ h => nomatch h
  taken := by
    rintro s t _ _ h ⟨rfl⟩ ⟨rfl⟩
    exact h

/-- A step leaves the part of another as it is. -/
def Frames (p q : Part σ ε) : Prop := ∀ ⦃s t⦄, p.step s = .ok t → q.same t s

/-- The step is refused, or asks for what its part is already. -/
def AsIs (p : Part σ ε) (s : σ) : Prop := ∀ ⦃t⦄, p.step s = .ok t → p.same t s

def Accepted (p : Part σ ε) (s : σ) : Prop := ∀ e, p.step s ≠ .error e

variable {p : Part σ ε} {s t : σ} {e : ε}

theorem accepted_iff : p.Accepted s ↔ ∃ t, p.step s = .ok t := by
  cases h : p.step s with
  | ok t => simp [Accepted, h]
  | error e => simp [Accepted, h]

theorem step_error_iff (h : p.same s t) : p.step s = .error e ↔ p.step t = .error e :=
  ⟨p.refused h, p.refused (p.same.symm h)⟩

theorem accepted_congr (h : p.same s t) : p.Accepted s ↔ p.Accepted t :=
  forall_congr' fun _ => not_congr (step_error_iff h)

theorem AsIs.of_same (h : p.same s t) (hs : p.AsIs s) : p.AsIs t := by
  intro t' ht
  obtain ⟨s', hs'⟩ := accepted_iff.1 ((accepted_congr h).mpr (accepted_iff.2 ⟨t', ht⟩))
  exact p.same.trans (p.taken (p.same.symm h) ht hs') (p.same.trans (hs hs') h)

theorem asIs_congr (h : p.same s t) : p.AsIs s ↔ p.AsIs t :=
  ⟨.of_same h, .of_same (p.same.symm h)⟩

end Part

/-! ### Runs -/

variable {s t : σ} {e : ε} {fs gs : List (σ → Except ε σ)} {f : σ → Except ε σ}
  {ps : List (Part σ ε)} {p q : Part σ ε}

theorem run_append_of_ok (h : run fs s = (t, .ok ())) : run (fs ++ gs) s = run gs t := by
  induction fs generalizing s with
  | nil => rw [(Prod.mk.inj h).1]; rfl
  | cons f fs ih =>
      rw [run] at h
      rw [List.cons_append, run]
      cases hf : f s with
      | error e => simp [hf] at h
      | ok u =>
          rw [hf] at h
          exact ih h

theorem exists_of_run_error (h : run fs s = (t, .error e)) :
    ∃ pre f post, fs = pre ++ f :: post ∧ run pre s = (t, .ok ()) ∧ f t = .error e := by
  induction fs generalizing s with
  | nil => simp [run] at h
  | cons f fs ih =>
      rw [run] at h
      cases hf : f s with
      | error e' =>
          rw [hf] at h
          obtain ⟨rfl, he⟩ := Prod.mk.inj h
          refine ⟨[], f, fs, rfl, rfl, ?_⟩
          rw [hf, Except.error.inj he]
      | ok u =>
          rw [hf] at h
          obtain ⟨pre, g, post, rfl, hrun, hg⟩ := ih h
          refine ⟨f :: pre, g, post, rfl, ?_, hg⟩
          rw [run, hf]
          exact hrun

theorem same_of_run {r : Except ε Unit} (hframes : ∀ p ∈ ps, p.Frames q)
    (h : run (ps.map Part.step) s = (t, r)) : q.same t s := by
  induction ps generalizing s with
  | nil => rw [(Prod.mk.inj h).1]
  | cons p ps ih =>
      rw [List.map_cons, run] at h
      cases hp : p.step s with
      | error e =>
          rw [hp] at h
          rw [(Prod.mk.inj h).1]
      | ok u =>
          rw [hp] at h
          have hrest := ih (fun p hp => hframes p (List.mem_cons_of_mem _ hp)) h
          exact q.same.trans hrest (hframes p List.mem_cons_self hp)

/-- Two steps leave the parts of each other as they are. -/
def Separate (p q : Part σ ε) : Prop := p.Frames q ∧ q.Frames p

theorem run_eq_ok_iff (hsep : ps.Pairwise Separate) :
    (∃ t, run (ps.map Part.step) s = (t, .ok ())) ↔ ∀ p ∈ ps, p.Accepted s := by
  induction ps generalizing s with
  | nil => simp [run]
  | cons p ps ih =>
      obtain ⟨hp, hps⟩ := List.pairwise_cons.mp hsep
      rw [List.map_cons, run, List.forall_mem_cons]
      cases hstep : p.step s with
      | error e => simp [Part.Accepted, hstep]
      | ok u =>
          have hothers : (∀ q ∈ ps, q.Accepted u) ↔ ∀ q ∈ ps, q.Accepted s :=
            forall₂_congr fun q hq => Part.accepted_congr ((hp q hq).1 hstep)
          simp only [ih hps, hothers, Part.accepted_iff.2 ⟨u, hstep⟩, true_and]

theorem same_iff_asIs (hsep : ps.Pairwise Separate)
    (h : run (ps.map Part.step) s = (t, .ok ())) (hq : q ∈ ps) : q.same t s ↔ q.AsIs s := by
  induction ps generalizing s with
  | nil => cases hq
  | cons p ps ih =>
      obtain ⟨hp, hps⟩ := List.pairwise_cons.mp hsep
      rw [List.map_cons, run] at h
      cases hstep : p.step s with
      | error e => simp [hstep] at h
      | ok u =>
          rw [hstep] at h
          obtain rfl | hq := List.mem_cons.mp hq
          · have hrest : q.same t u := same_of_run (fun r hr => (hp r hr).2) h
            constructor
            · intro hsame u' hu'
              obtain rfl := Except.ok.inj (hstep.symm.trans hu')
              exact q.same.trans (q.same.symm hrest) hsame
            · exact fun has => q.same.trans hrest (has hstep)
          · have hpart : q.same u s := (hp q hq).1 hstep
            rw [← Part.asIs_congr hpart, ← ih hps h hq]
            exact ⟨fun hsame => q.same.trans hsame (q.same.symm hpart),
              fun hsame => q.same.trans hsame hpart⟩

/-- The refusals that count leave every part as it was exactly if all steps before the first
that is refused ask for what is already so. -/
theorem kept_iff (hsep : ps.Pairwise Separate) (Counts : ε → Prop) :
    (∀ t e, run (ps.map Part.step) s = (t, .error e) → Counts e → ∀ q ∈ ps, q.same t s) ↔
      ∀ pre p post e, ps = pre ++ p :: post → (∀ q ∈ pre, q.Accepted s) →
        p.step s = .error e → Counts e → ∀ q ∈ pre, q.AsIs s := by
  constructor
  · rintro h pre p post e rfl hpre hp he q hq
    obtain ⟨hsepPre, -, hcross⟩ := List.pairwise_append.mp hsep
    obtain ⟨t, ht⟩ := (run_eq_ok_iff hsepPre).mpr hpre
    have hsame : p.same t s :=
      same_of_run (fun q hq => (hcross q hq p List.mem_cons_self).1) ht
    have hrun : run ((pre ++ p :: post).map Part.step) s = (t, .error e) := by
      rw [List.map_append, run_append_of_ok ht, List.map_cons, run,
        p.refused (p.same.symm hsame) hp]
    exact (same_iff_asIs hsepPre ht hq).mp (h t e hrun he q (List.mem_append_left _ hq))
  · intro h t e hrun he q hq
    obtain ⟨front, f, back, hsplit, hfront, hf⟩ := exists_of_run_error hrun
    obtain ⟨pre, rest, rfl, rfl, hrest⟩ := List.map_eq_append_iff.mp hsplit
    obtain ⟨p, post, rfl, rfl, rfl⟩ := List.map_eq_cons_iff.mp hrest
    obtain ⟨hsepPre, -, hcross⟩ := List.pairwise_append.mp hsep
    have hframed : ∀ r ∈ p :: post, r.same t s := fun r hr =>
      same_of_run (fun q hq => (hcross q hq r hr).1) hfront
    have hasIs := h pre p post e rfl ((run_eq_ok_iff hsepPre).mp ⟨t, hfront⟩)
      (p.refused (hframed p List.mem_cons_self) hf) he
    obtain hq | hq := List.mem_append.mp hq
    · exact (same_iff_asIs hsepPre hfront hq).mpr (hasIs q hq)
    · exact hframed q hq

theorem kept_map_iff {κ : Type*} {keys : List κ} {part : κ → Part σ ε}
    (hsep : (keys.map part).Pairwise Separate) (Counts : ε → Prop) :
    (∀ t e, run ((keys.map part).map Part.step) s = (t, .error e) → Counts e →
      ∀ k ∈ keys, (part k).same t s) ↔
      ∀ before k after e, keys = before ++ k :: after → (∀ j ∈ before, (part j).Accepted s) →
        (part k).step s = .error e → Counts e → ∀ j ∈ before, (part j).AsIs s := by
  have hkept := kept_iff (s := s) hsep Counts
  simp only [List.forall_mem_map] at hkept
  rw [hkept]
  constructor
  · rintro h before k after e rfl hbefore hk he
    have hall := h (before.map part) (part k) (after.map part) e (by simp)
      (List.forall_mem_map.mpr hbefore) hk he
    exact List.forall_mem_map.mp hall
  · intro h pre p post e hsplit hpre hp he q hq
    obtain ⟨before, rest, rfl, rfl, hrest⟩ := List.map_eq_append_iff.mp hsplit
    obtain ⟨k, after, rfl, rfl, rfl⟩ := List.map_eq_cons_iff.mp hrest
    obtain ⟨j, hj, rfl⟩ := List.mem_map.mp hq
    exact h before k after e rfl (List.forall_mem_map.mp hpre) hp he j hj

/-! ### Reading and setting -/

section taking

variable {α : Type*} {read read' : Except ε (Option α)} {set set' : α → σ} {s s' t t' : σ} {e : ε}

/-- Put into effect what was asked for, if anything was. -/
def taking (read : Except ε (Option α)) (set : α → σ) (s : σ) : Except ε σ :=
  match read with
  | .error e => .error e
  | .ok none => .ok s
  | .ok (some a) => .ok (set a)

theorem taking_error : taking read set s = .error e ↔ read = .error e := by
  cases read with
  | error e => simp [taking]
  | ok a => cases a <;> simp [taking]

theorem taking_ok : taking read set s = .ok t ↔
    (read = .ok none ∧ t = s) ∨ ∃ a, read = .ok (some a) ∧ t = set a := by
  cases read with
  | error e => simp [taking]
  | ok a => cases a <;> simp [taking, eq_comm]

theorem taking_congr {β : Type*} (get : σ → β) (hread : read = read')
    (hsame : get s = get s') (hset : ∀ a, get (set a) = get (set' a))
    (ht : taking read set s = .ok t) (ht' : taking read' set' s' = .ok t') :
    get t = get t' := by
  subst hread
  obtain ⟨hnone, rfl⟩ | ⟨a, ha, rfl⟩ := taking_ok.1 ht <;>
    obtain ⟨hnone', rfl⟩ | ⟨b, hb, rfl⟩ := taking_ok.1 ht'
  · exact hsame
  · rw [hnone] at hb; cases hb
  · rw [hnone'] at ha; cases ha
  · rw [ha] at hb
    cases hb
    exact hset a

theorem taking_frame {β : Type*} (get : σ → β) (hset : ∀ a, get (set a) = get s)
    (ht : taking read set s = .ok t) : get t = get s := by
  obtain ⟨-, rfl⟩ | ⟨a, -, rfl⟩ := taking_ok.1 ht
  · rfl
  · exact hset a

theorem taking_asIs {β : Type*} (get : σ → β) :
    (∀ t, taking read set s = .ok t → get t = get s) ↔
      ∀ a, read = .ok (some a) → get (set a) = get s := by
  constructor
  · exact fun h a ha => h _ (taking_ok.2 (.inr ⟨a, ha, rfl⟩))
  · intro h t ht
    obtain ⟨-, rfl⟩ | ⟨a, ha, rfl⟩ := taking_ok.1 ht
    · rfl
    · exact h a ha

end taking

end Steps

/-!
## Commands that may fail

A command works on a state and may raise at any of its operations. What it has changed by then
stays changed, also where a handler goes on. What is true of a state however a command ends is
shown operation by operation.
-/

namespace Commands

universe u

variable {ε σ α β : Type u}

/-- An operation. It raises and changes nothing if it is to fail, or if the state does not
allow it. -/
def attempt (fails : Bool) (e : ε) (f : σ → Option σ) : EStateM ε σ PUnit := fun s =>
  if fails then .error e s
  else
    match f s with
    | none => .error e s
    | some t => .ok ⟨⟩ t

/-- An operation that may fail with a part of it done. -/
def attemptPart (fails : Bool) (e : ε) (part f : σ → σ) : EStateM ε σ PUnit := fun s =>
  if fails then .error e (part s) else .ok ⟨⟩ (f s)

def ensure (c : Bool) (e : ε) : EStateM ε σ PUnit := fun s => if c then .ok ⟨⟩ s else .error e s

/-- What a computation that changes nothing gives. -/
def result (x : Except ε α) : EStateM ε σ α := fun s =>
  match x with
  | .ok a => .ok a s
  | .error e => .error e s

/-- However `c` ends: with a value and a state in `P`, or raising in a state in `Q`. -/
def Ends (c : EStateM ε σ α) (s : σ) (P : α → σ → Prop) (Q : ε → σ → Prop) : Prop :=
  match c s with
  | .ok a t => P a t
  | .error e t => Q e t

section Rules

variable {c : EStateM ε σ α} {g : α → EStateM ε σ β} {h : ε → EStateM ε σ α} {s : σ}
  {P P' : α → σ → Prop} {Q Q' : ε → σ → Prop} {b : Bool} {e : ε} {f part : σ → σ}

theorem Ends.imp (hc : Ends c s P Q) (hP : ∀ a t, P a t → P' a t) (hQ : ∀ e t, Q e t → Q' e t) :
    Ends c s P' Q' := by
  rw [Ends] at *
  split
  · next a t ht =>
      rw [ht] at hc
      exact hP a t hc
  · next e t ht =>
      rw [ht] at hc
      exact hQ e t hc

@[simp] theorem ends_pure {a : α} : Ends (pure a) s P Q ↔ P a s := Iff.rfl

@[simp] theorem ends_get {P : σ → σ → Prop} : Ends get s P Q ↔ P s s := Iff.rfl

@[simp] theorem ends_throw : Ends (throw e) s P Q ↔ Q e s := Iff.rfl

@[simp] theorem ends_modify {P : PUnit → σ → Prop} : Ends (modify f) s P Q ↔ P ⟨⟩ (f s) := Iff.rfl

@[simp] theorem ends_bind {P : β → σ → Prop} :
    Ends (c >>= g) s P Q ↔ Ends c s (fun a t => Ends (g a) t P Q) Q := by
  change (match EStateM.bind c g s with | .ok a t => P a t | .error e t => Q e t) ↔ _
  rw [EStateM.bind, Ends]
  cases c s <;> rfl

@[simp] theorem ends_tryCatch :
    Ends (tryCatch c h) s P Q ↔ Ends c s P fun e t => Ends (h e) t P Q := by
  change (match EStateM.tryCatch c h s with | .ok a t => P a t | .error e t => Q e t) ↔ _
  rw [EStateM.tryCatch, Ends]
  cases c s <;> rfl

@[simp] theorem ends_ensure {P : PUnit → σ → Prop} :
    Ends (ensure b e) s P Q ↔ (b = true → P ⟨⟩ s) ∧ (b = false → Q e s) := by
  cases b <;> simp [Ends, ensure]

@[simp] theorem ends_result {x : Except ε α} :
    Ends (result x) s P Q ↔ (∀ a, x = .ok a → P a s) ∧ ∀ e, x = .error e → Q e s := by
  cases x <;> simp [Ends, result]

@[simp] theorem ends_attempt {f : σ → Option σ} {P : PUnit → σ → Prop} :
    Ends (attempt b e f) s P Q ↔
      (∀ t, b = false → f s = some t → P ⟨⟩ t) ∧ (b = true ∨ f s = none → Q e s) := by
  cases b <;> cases hf : f s <;> simp [Ends, attempt, hf]

@[simp] theorem ends_attemptPart {P : PUnit → σ → Prop} :
    Ends (attemptPart b e part f) s P Q ↔
      (b = false → P ⟨⟩ (f s)) ∧ (b = true → Q e (part s)) := by
  cases b <;> simp [Ends, attemptPart]

end Rules

end Commands
