import Mathlib.Data.List.Basic
import Mathlib.Data.List.Infix

/-!
# Streams in pieces

## Reading a stream in chunks

A reader that keeps what has arrived in a buffer and takes complete pieces off its
front for as long as there are any. If what follows cannot change the first piece, it
does not matter how the stream was cut into chunks: the reader comes as far as with all
of it at once.
-/

/-- A reader reads on, or it has finished early. -/
inductive Reading (σ ρ : Type*) where
  | more (s : σ)
  | done (r : ρ)
  deriving DecidableEq

namespace Reading

variable {σ τ υ ρ : Type*}

/-- Go on with a reader that has not finished. -/
def bind (x : Reading σ ρ) (f : σ → Reading τ ρ) : Reading τ ρ :=
  match x with
  | more s => f s
  | done r => done r

@[simp] theorem bind_more (s : σ) (f : σ → Reading τ ρ) : (more s).bind f = f s := rfl

@[simp] theorem bind_done (r : ρ) (f : σ → Reading τ ρ) : (done r).bind f = done r := rfl

/-- Go through a list until the reader finishes. -/
def through {β : Type*} (step : σ → β → Reading σ ρ) : σ → List β → Reading σ ρ
  | s, [] => more s
  | s, b :: bs => (step s b).bind fun t => through step t bs

end Reading

/-- A way to cut the first complete piece off a buffer, which takes something off and
does not depend on what follows. -/
structure Cutter (α : Type*) where
  cut : List α → Option (List α × List α)
  shorter : ∀ {buf piece rest}, cut buf = some (piece, rest) → rest.length < buf.length
  stable : ∀ {buf piece rest}, cut buf = some (piece, rest) →
    ∀ more, cut (buf ++ more) = some (piece, rest ++ more)

namespace Cutter

variable {α σ ρ : Type*} (c : Cutter α) (step : σ → List α → Reading σ ρ)

/-- Take pieces off the front of the buffer. -/
def drain (s : σ) (buf : List α) : Reading (σ × List α) ρ :=
  match _h : c.cut buf with
  | none => .more (s, buf)
  | some (piece, rest) =>
      match step s piece with
      | .more t => drain t rest
      | .done r => .done r
termination_by buf.length
decreasing_by exact c.shorter (by assumption)

/-- The reader on chunk after chunk. -/
def read : σ × List α → List (List α) → Reading (σ × List α) ρ :=
  Reading.through fun p chunk => c.drain step p.1 (p.2 ++ chunk)

variable {c step}

theorem drain_none {s : σ} {buf : List α} (h : c.cut buf = none) :
    c.drain step s buf = .more (s, buf) := by
  rw [drain]
  split
  · rfl
  case h_2 hsome =>
    rw [h] at hsome
    cases hsome

theorem drain_some {s : σ} {buf piece rest : List α} (h : c.cut buf = some (piece, rest)) :
    c.drain step s buf = (step s piece).bind fun t => c.drain step t rest := by
  rw [drain]
  split
  case h_1 hnone =>
    rw [h] at hnone
    cases hnone
  case h_2 hsome =>
    rw [h] at hsome
    cases hsome
    rfl

theorem cut_eq_none_of_drain {s t : σ} {buf rest : List α}
    (h : c.drain step s buf = .more (t, rest)) : c.cut rest = none := by
  induction hn : buf.length using Nat.strong_induction_on generalizing s buf with
  | _ n ih =>
      subst hn
      cases hcut : c.cut buf with
      | none =>
          rw [drain_none hcut] at h
          cases h
          exact hcut
      | some p =>
          rw [drain_some hcut] at h
          cases hstep : step s p.1 with
          | done r =>
              rw [hstep] at h
              cases h
          | more u =>
              rw [hstep] at h
              exact ih _ (c.shorter hcut) h rfl

theorem drain_append (s : σ) (buf more : List α) :
    c.drain step s (buf ++ more) =
      (c.drain step s buf).bind fun p => c.drain step p.1 (p.2 ++ more) := by
  induction hn : buf.length using Nat.strong_induction_on generalizing s buf with
  | _ n ih =>
      subst hn
      cases hcut : c.cut buf with
      | none =>
          rw [drain_none hcut]
          rfl
      | some p =>
          rw [drain_some hcut, drain_some (c.stable hcut more)]
          cases step s p.1 with
          | done r => rfl
          | more t => exact ih _ (c.shorter hcut) t p.2 rfl

theorem read_eq_drain {s : σ} {buf : List α} (h : c.cut buf = none) (chunks : List (List α)) :
    c.read step (s, buf) chunks = c.drain step s (buf ++ chunks.flatten) := by
  induction chunks generalizing s buf with
  | nil =>
      rw [List.flatten_nil, List.append_nil, drain_none h]
      rfl
  | cons chunk chunks ih =>
      rw [List.flatten_cons, ← List.append_assoc, drain_append]
      cases hdrain : c.drain step s (buf ++ chunk) with
      | done r =>
          rw [read, Reading.through, hdrain]
          rfl
      | more p =>
          rw [read, Reading.through, hdrain]
          exact ih (cut_eq_none_of_drain hdrain)

theorem read_flatten {s : σ} {buf : List α} (h : c.cut buf = none) (chunks : List (List α)) :
    c.read step (s, buf) chunks = c.read step (s, buf) [chunks.flatten] := by
  rw [read_eq_drain h, read_eq_drain h, List.flatten_singleton]

end Cutter

/-! ### Pieces that end in a separator -/

section Separator

variable {α : Type*} [DecidableEq α]

/-- Where the separator first stands. -/
def firstAt (sep : List α) : List α → Option Nat
  | [] => if sep = [] then some 0 else none
  | a :: l => if sep <+: a :: l then some 0 else (firstAt sep l).map (· + 1)

theorem firstAt_bound {sep l : List α} {n : Nat} (h : firstAt sep l = some n) :
    n + sep.length ≤ l.length := by
  induction l generalizing n with
  | nil =>
      rw [firstAt] at h
      split at h
      case isTrue hsep =>
        cases h
        simp [hsep]
      case isFalse => cases h
  | cons a l ih =>
      rw [firstAt] at h
      split at h
      case isTrue hprefix =>
        cases h
        have hlength := hprefix.length_le
        omega
      case isFalse =>
        obtain ⟨m, hm, rfl⟩ := Option.map_eq_some_iff.mp h
        have hbound := ih hm
        rw [List.length_cons]
        omega

theorem firstAt_append {sep l : List α} {n : Nat} (h : firstAt sep l = some n) (m : List α) :
    firstAt sep (l ++ m) = some n := by
  induction l generalizing n with
  | nil =>
      rw [firstAt] at h
      split at h
      case isTrue hsep =>
        cases h
        subst hsep
        cases m with
        | nil => rfl
        | cons b m => exact if_pos (List.nil_prefix)
      case isFalse => cases h
  | cons a l ih =>
      rw [firstAt] at h
      rw [List.cons_append, firstAt]
      split at h
      case isTrue hprefix =>
        have hlong : sep <+: a :: (l ++ m) := hprefix.trans (List.prefix_append (a :: l) m)
        rw [if_pos hlong]
        exact h
      case isFalse hno =>
        obtain ⟨k, hk, rfl⟩ := Option.map_eq_some_iff.mp h
        have hbound := firstAt_bound hk
        -- The separator would fit into what was there before.
        have hno' : ¬sep <+: a :: (l ++ m) := fun hprefix => hno <|
          List.prefix_of_prefix_length_le hprefix (List.prefix_append (a :: l) m) (by
            rw [List.length_cons]
            omega)
        rw [if_neg hno', ih hk]
        rfl

/-- The pieces before a separator. -/
def Cutter.before (sep : List α) (hsep : sep ≠ []) : Cutter α where
  cut buf := (firstAt sep buf).map fun pos => (buf.take pos, buf.drop (pos + sep.length))
  shorter := by
    intro buf piece rest h
    obtain ⟨pos, hpos, heq⟩ := Option.map_eq_some_iff.mp h
    have hbound := firstAt_bound hpos
    have hlength := List.length_pos_of_ne_nil hsep
    rw [← (Prod.mk.inj heq).2, List.length_drop]
    omega
  stable := by
    intro buf piece rest h more
    obtain ⟨pos, hpos, heq⟩ := Option.map_eq_some_iff.mp h
    have hbound := firstAt_bound hpos
    obtain ⟨rfl, rfl⟩ := Prod.mk.inj heq
    rw [firstAt_append hpos, Option.map_some, List.take_append_of_le_length (by omega),
      List.drop_append_of_le_length hbound]

end Separator

/-!
## Records read in pieces

A queue of records, which are lists, is read from its front: a read gives at most one record's
elements, and what it does not take of a record stays at the front. An empty record is given by a
read of nothing.
-/

namespace Records

variable {α : Type*} {records answers left more : List (List α)} {record : List α} {n : Nat}

/-- A record is read whole by these reads: an empty one by a read of nothing, and any other by
reads that each give something. -/
def Whole (reads : List (List α)) : Prop := reads = [[]] ∨ reads ≠ [] ∧ [] ∉ reads

/-- What is left of the records when the first of them was read in part. -/
inductive Rest : List (List α) → List (List α) → List (List α) → Prop
  | none : ∀ left, Rest [] left left
  | some : ∀ part rest left, rest ≠ [] → [] ∉ part →
      Rest part ((part.flatten ++ rest) :: left) (rest :: left)

/-- The answers are those of reads of whole records, in order, and of a part of the next one. -/
def Served (records answers left : List (List α)) : Prop :=
  ∃ (groups : List (List (List α))) (part rest : List (List α)),
    answers = groups.flatten ++ part ∧ (∀ g ∈ groups, Whole g) ∧
      records = groups.map List.flatten ++ rest ∧ Rest part rest left

theorem served_nil : Served records [] records :=
  ⟨[], [], records, rfl, fun _ h => (nomatch h), rfl, .none records⟩

theorem Served.append (h : Served records answers left) :
    Served (records ++ more) answers (left ++ more) := by
  obtain ⟨groups, part, rest, hanswers, hwhole, hrecords, hrest⟩ := h
  refine ⟨groups, part, rest ++ more, hanswers, hwhole, ?_, ?_⟩
  · rw [hrecords, List.append_assoc]
  · cases hrest with
    | none => exact .none _
    | some part rest left hne hpart => exact .some part rest (left ++ more) hne hpart

theorem Served.whole (h : Served records answers (record :: left)) :
    Served records (answers ++ [record]) left := by
  obtain ⟨groups, part, rest, hanswers, hwhole, hrecords, hrest⟩ := h
  refine ⟨groups ++ [part ++ [record]], [], left, ?_, ?_, ?_, .none left⟩
  · rw [hanswers, List.flatten_append, List.flatten_singleton, List.append_assoc, List.append_nil]
  · intro g hg
    obtain hg | hg := List.mem_append.mp hg
    · exact hwhole g hg
    · obtain rfl := List.mem_singleton.mp hg
      cases hrest with
      | none =>
          by_cases hrecord : record = []
          · exact .inl (by rw [hrecord, List.nil_append])
          · exact .inr ⟨List.cons_ne_nil _ _, by simpa using Ne.symm hrecord⟩
      | some part rest left hne hpart =>
          refine .inr ⟨List.append_ne_nil_of_right_ne_nil _ (List.cons_ne_nil _ _), fun hmem => ?_⟩
          obtain hmem | hmem := List.mem_append.mp hmem
          · exact hpart hmem
          · exact hne (List.mem_singleton.mp hmem).symm
  · rw [hrecords, List.map_append, List.append_assoc]
    cases hrest with
    | none => simp
    | some part rest left hne hpart => simp

theorem Served.part (h : Served records answers (record :: left)) (hn : 0 < n)
    (hlt : n < record.length) :
    Served records (answers ++ [record.take n]) (record.drop n :: left) := by
  have hdrop : record.drop n ≠ [] := by
    rw [Ne, List.drop_eq_nil_iff]
    exact Nat.not_le.mpr hlt
  have htake : record.take n ≠ [] := by
    rw [Ne, List.take_eq_nil_iff]
    rintro (h0 | h0)
    · exact absurd h0 (Nat.ne_of_gt hn)
    · rw [h0] at hlt
      exact Nat.not_lt_zero n hlt
  obtain ⟨groups, part, rest, hanswers, hwhole, hrecords, hrest⟩ := h
  refine ⟨groups, part ++ [record.take n], rest, ?_, hwhole, hrecords, ?_⟩
  · rw [hanswers, List.append_assoc]
  · have hflat : ∀ l : List (List α), (l ++ [record.take n]).flatten ++ record.drop n =
        l.flatten ++ record := fun l => by
      rw [List.flatten_append, List.flatten_singleton, List.append_assoc, List.take_append_drop]
    cases hrest with
    | none =>
        have hsome := Rest.some [record.take n] (record.drop n) left hdrop
          (by simpa using Ne.symm htake)
        rwa [List.flatten_singleton, List.take_append_drop] at hsome
    | some part rest left hne hpart =>
        rw [← hflat part]
        refine .some _ _ left hdrop fun hmem => ?_
        obtain hmem | hmem := List.mem_append.mp hmem
        · exact hpart hmem
        · exact htake (List.mem_singleton.mp hmem).symm

end Records
