import Mathlib.Data.List.Rotate

/-!
# Walking round a list

A walk goes round a list by a fixed stride, from a place to the first place after it
whose element is wanted. By stride one it reads the wanted elements one after the
other, and after as many walks as there are such elements it is where it was; by the
stride that is one less than the length it goes back.
-/

namespace Cyclic

variable {α : Type*} (p : α → Bool) (l : List α)

/-- The next place whose element is wanted, among so many places. -/
def seek (stride : Nat) : Nat → Nat → Option (Nat × α)
  | 0, _ => none
  | fuel + 1, i =>
      let j := (i + stride) % l.length
      match l[j]? with
      | none => none
      | some a => if p a then some (j, a) else seek stride fuel j

variable {p l} {stride i j : Nat} {a : α}

theorem stride_add (n i d : Nat) :
    ((i + stride) % n + d * stride) % n = (i + (d + 1) * stride) % n := by
  rw [Nat.mod_add_mod, Nat.succ_mul]
  congr 1
  omega

/-- Where a walk ends is so many strides on, and nothing before it is wanted. -/
theorem seek_some {fuel : Nat} (h : seek p l stride fuel i = some (j, a)) :
    ∃ d, 1 ≤ d ∧ d ≤ fuel ∧ j = (i + d * stride) % l.length ∧ l[j]? = some a ∧ p a = true ∧
      ∀ e, 1 ≤ e → e < d → ∀ b, l[(i + e * stride) % l.length]? = some b → p b = false := by
  induction fuel generalizing i with
  | zero => cases h
  | succ fuel ih =>
      unfold seek at h
      simp only at h
      split at h
      case h_1 => cases h
      case h_2 b hb =>
        split at h
        case isTrue hpb =>
          cases h
          exact ⟨1, le_rfl, by omega, by rw [Nat.one_mul], hb, hpb, by omega⟩
        case isFalse hpb =>
          obtain ⟨d, hd, hfuel, hj, ha, hpa, hbefore⟩ := ih h
          rw [stride_add] at hj
          refine ⟨d + 1, by omega, by omega, hj, ha, hpa, fun e he hed b' hb' => ?_⟩
          cases e with
          | zero => omega
          | succ e =>
              rw [← stride_add] at hb'
              by_cases hzero : e = 0
              · subst hzero
                rw [Nat.zero_mul, Nat.add_zero, Nat.mod_mod, hb] at hb'
                obtain rfl := Option.some.inj hb'
                exact (Bool.not_eq_true _).mp hpb
              · exact hbefore e (by omega) (by omega) b' hb'

theorem seek_of_first {fuel d : Nat} (hd : 1 ≤ d) (hfuel : d ≤ fuel)
    (ha : l[(i + d * stride) % l.length]? = some a) (hpa : p a = true)
    (hbefore : ∀ e, 1 ≤ e → e < d → ∀ b, l[(i + e * stride) % l.length]? = some b → p b = false) :
    seek p l stride fuel i = some ((i + d * stride) % l.length, a) := by
  have hpos : 0 < l.length := by
    by_contra hzero
    have hnil : l = [] := List.length_eq_zero_iff.mp (by omega)
    rw [hnil, List.getElem?_nil] at ha
    cases ha
  induction fuel generalizing i d with
  | zero => omega
  | succ fuel ih =>
      unfold seek
      simp only
      by_cases hone : d = 1
      · subst hone
        rw [Nat.one_mul] at ha ⊢
        rw [ha]
        exact if_pos hpa
      · obtain ⟨first, hfirst⟩ : ∃ b, l[(i + stride) % l.length]? = some b :=
          ⟨_, List.getElem?_eq_getElem (Nat.mod_lt _ hpos)⟩
        have hskip := hbefore 1 le_rfl (by omega) _ (by rw [Nat.one_mul]; exact hfirst)
        rw [hfirst]
        simp only [hskip, Bool.false_eq_true, if_false]
        obtain ⟨c, rfl⟩ : ∃ c, d = c + 1 := ⟨d - 1, by omega⟩
        rw [← stride_add] at ha ⊢
        refine ih (by omega) (by omega) ha fun e he hec b hb => ?_
        rw [stride_add] at hb
        exact hbefore (e + 1) (by omega) (by omega) b hb

theorem seek_none {fuel : Nat} (h : seek p l stride fuel i = none) {d : Nat}
    (hd : 1 ≤ d) (hfuel : d ≤ fuel) {b : α} (hb : l[(i + d * stride) % l.length]? = some b) :
    p b = false := by
  induction d using Nat.strong_induction_on generalizing b with
  | _ d ih =>
      by_contra hpb
      have hfound : seek p l stride fuel i = some (_, b) :=
        seek_of_first hd hfuel hb ((Bool.not_eq_false _).mp hpb)
          fun e he hed c hc => ih e hed he (by omega) hc
      rw [hfound] at h
      cases h

theorem exists_strides {n k : Nat} (hstride : stride = 1 ∨ stride = n - 1) (hi : i < n)
    (hk : k < n) :
    ∃ d, 1 ≤ d ∧ d ≤ n ∧ (i + d * stride) % n = k := by
  obtain rfl | rfl := hstride
  · by_cases hik : i < k
    · exact ⟨k - i, by omega, by omega, by
        rw [Nat.mul_one, Nat.add_sub_cancel' hik.le, Nat.mod_eq_of_lt hk]⟩
    · refine ⟨k + n - i, by omega, by omega, ?_⟩
      rw [Nat.mul_one, Nat.add_sub_cancel' (by omega), Nat.add_mod_right, Nat.mod_eq_of_lt hk]
  · by_cases hki : k < i
    · refine ⟨i - k, by omega, by omega, ?_⟩
      have hround : i + (i - k) * (n - 1) = k + (i - k) * n := by
        rw [Nat.mul_sub, Nat.mul_one]
        have hle := Nat.le_mul_of_pos_right (i - k) (show 0 < n by omega)
        omega
      rw [hround, Nat.add_mul_mod_self_right, Nat.mod_eq_of_lt hk]
    · refine ⟨i + n - k, by omega, by omega, ?_⟩
      have hround : i + (i + n - k) * (n - 1) = k + (i + n - k - 1) * n := by
        obtain ⟨m, hm⟩ : ∃ m, i + n - k = m + 1 := ⟨i + n - k - 1, by omega⟩
        rw [hm, Nat.mul_sub, Nat.succ_mul, Nat.add_sub_cancel]
        omega
      rw [hround, Nat.add_mul_mod_self_right, Nat.mod_eq_of_lt hk]

/-- A round by either stride finds an element that is wanted. -/
theorem seek_isSome (hstride : stride = 1 ∨ stride = l.length - 1) (hi : i < l.length)
    (ha : a ∈ l) (hpa : p a = true) : ∃ r, seek p l stride l.length i = some r := by
  cases hseek : seek p l stride l.length i with
  | some r => exact ⟨r, rfl⟩
  | none =>
      obtain ⟨k, hk, hka⟩ := List.getElem_of_mem ha
      obtain ⟨d, hd, hfuel, hplace⟩ := exists_strides hstride hi hk
      have hfalse := seek_none hseek hd hfuel (b := a) (by
        rw [hplace, List.getElem?_eq_getElem hk, hka])
      rw [hpa] at hfalse
      cases hfalse

/-- What a forward walk from a place comes by, in this order. -/
def ahead (p : α → Bool) (l : List α) (i : Nat) : List α := (l.rotate (i + 1)).filter p

/-- A forward walk finds the first of these, and from there they begin with the next. -/
theorem ahead_seek (h : seek p l 1 l.length i = some (j, a)) :
    (ahead p l i).head? = some a ∧ ahead p l j = (ahead p l i).rotate 1 := by
  obtain ⟨d, hd, hfuel, hj, ha, hpa, hbefore⟩ := seek_some h
  rw [Nat.mul_one] at hj
  have hplace : ∀ e, e < l.length → (l.rotate (i + 1))[e]? = l[(i + (e + 1) * 1) % l.length]? := by
    intro e he
    rw [List.getElem?_rotate he]
    congr 2
    omega
  have hlength : (l.rotate (i + 1)).length = l.length := List.length_rotate ..
  -- The part of the round before the found element, the element, and the rest.
  have hsplit : l.rotate (i + 1) =
      (l.rotate (i + 1)).take (d - 1) ++ a :: (l.rotate (i + 1)).drop d := by
    have hfound : (l.rotate (i + 1))[d - 1]? = some a := by
      rw [hplace _ (by omega), Nat.sub_add_cancel hd, Nat.mul_one, ← hj]
      exact ha
    obtain ⟨hlt, heq⟩ := List.getElem?_eq_some_iff.mp hfound
    conv_lhs => rw [← List.take_append_drop (d - 1) (l.rotate (i + 1)),
      List.drop_eq_getElem_cons hlt,
      heq, Nat.sub_add_cancel hd]
  have hskip : ((l.rotate (i + 1)).take (d - 1)).filter p = [] := by
    refine List.filter_eq_nil_iff.mpr fun b hb => ?_
    obtain ⟨e, he, hbe⟩ := List.getElem_of_mem hb
    rw [List.length_take] at he
    have hwhere : l[(i + (e + 1) * 1) % l.length]? = some b := by
      rw [← hplace e (by omega), ← hbe, List.getElem_take, List.getElem?_eq_getElem]
    rw [hbefore (e + 1) (by omega) (by omega) b hwhere]
    exact Bool.false_ne_true
  have hround : ahead p l i = a :: ((l.rotate (i + 1)).drop d).filter p := by
    rw [ahead, hsplit, List.filter_append, List.filter_cons_of_pos hpa, ← hsplit, hskip,
      List.nil_append]
  constructor
  · rw [hround, List.head?_cons]
  · have hnext : l.rotate (j + 1) = (l.rotate (i + 1)).drop d ++ (l.rotate (i + 1)).take d := by
      rw [← List.rotate_eq_drop_append_take (by omega), List.rotate_rotate, ← List.rotate_mod, hj,
        Nat.mod_add_mod, List.rotate_mod]
      congr 1
      omega
    have htake : (l.rotate (i + 1)).take d = (l.rotate (i + 1)).take (d - 1) ++ [a] := by
      conv_lhs => rw [hsplit]
      rw [List.take_append, List.take_of_length_le (by rw [List.length_take]; omega),
        List.length_take]
      congr 1
      rw [show d - min (d - 1) (l.rotate (i + 1)).length = 1 by omega]
      rfl
    rw [ahead, hnext, htake, List.filter_append, List.filter_append, hskip, List.nil_append,
      List.filter_cons_of_pos hpa, List.filter_nil, hround, List.rotate_cons_succ, List.rotate_zero]

/-- A walk back from where a forward walk ended finds the place it began at, if the
element there is wanted. -/
theorem seek_back {b : α} (h : seek p l 1 l.length i = some (j, a)) (hi : l[i]? = some b)
    (hpb : p b = true) : seek p l (l.length - 1) l.length j = some (i, b) := by
  obtain ⟨d, hd, hfuel, hj, -, -, hbefore⟩ := seek_some h
  rw [Nat.mul_one] at hj
  have hilt : i < l.length := (List.getElem?_eq_some_iff.mp hi).1
  have hback : ∀ e, e ≤ d → (j + e * (l.length - 1)) % l.length = (i + (d - e)) % l.length := by
    intro e he
    rw [hj, Nat.mod_add_mod]
    have hround : i + d + e * (l.length - 1) = i + (d - e) + e * l.length := by
      rw [Nat.mul_sub, Nat.mul_one]
      have hle := Nat.le_mul_of_pos_right e (show 0 < l.length by omega)
      omega
    rw [hround, Nat.add_mul_mod_self_right]
  have hend : (j + d * (l.length - 1)) % l.length = i := by
    rw [hback d le_rfl, Nat.sub_self, Nat.add_zero, Nat.mod_eq_of_lt hilt]
  have hfound : seek p l (l.length - 1) l.length j = some (_, b) :=
    seek_of_first hd hfuel (by rw [hend]; exact hi) hpb fun e he hed c hc => by
      rw [hback e hed.le] at hc
      exact hbefore (d - e) (by omega) (by omega) c (by rw [Nat.mul_one]; exact hc)
  rw [hend] at hfound
  exact hfound

end Cyclic
