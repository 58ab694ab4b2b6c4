import MindOS.Cyclic
import MindOS.Stack
import Mathlib.Data.List.Dedup

/-!
# Recent-window switching

While the modifier is held the windows are gone through in the order that they had
when the cycle began; windows that have closed since are passed over. What is focused
in passing does not count as used until the cycle is finished.

The laws hold in every state that a run of operations reaches: whatever opens, closes
and takes the focus in between only changes what the steps are told is available.
-/

namespace MindOS.Cycle

inductive CycleModifier where
  | alt
  | super
  deriving DecidableEq

structure Selection where
  order : List Nat
  index : Nat
  origin : Option Nat
  modifier : CycleModifier
  deriving DecidableEq

/-- The window that the cycle stands at. -/
def Selection.chosen (s : Selection) : Option Nat := s.order[s.index]?

structure WindowCycle where
  recent : List Nat := []
  selection : Option Selection := none
  deriving DecidableEq

/-- The next available window in a direction, among so many places. -/
def walk (available order : List Nat) (reverse : Bool) : Nat → Nat → Option (Nat × Nat)
  | 0, _ => none
  | fuel + 1, index =>
      let n := order.length
      let index := if reverse then (index + n - 1) % n else (index + 1) % n
      match order[index]? with
      | none => none
      | some id =>
          if available.contains id then some (index, id)
          else walk available order reverse fuel index

namespace WindowCycle

def active (c : WindowCycle) : Bool := c.selection.isSome

/-- A window got the focus. What a cycle stands at does not count. -/
def focus (c : WindowCycle) (id : Nat) : WindowCycle :=
  if c.selection.any fun s => s.chosen = some id then c
  else { recent := id :: c.recent.filter fun old => old ≠ id, selection := none }

def retain (c : WindowCycle) (available : List Nat) : WindowCycle :=
  { c with recent := c.recent.filter fun id => available.contains id }

/-- End the cycle with the window it stands at. -/
def finish (c : WindowCycle) : WindowCycle :=
  match c.selection with
  | none => c
  | some s =>
      match s.chosen with
      | some id => { c with selection := none }.focus id
      | none => { c with selection := none }

/-- Keys were released: the cycle ends when its modifier is no longer held. -/
def release (c : WindowCycle) (alt logo : Bool) : WindowCycle :=
  let ends := c.selection.any fun s =>
    match s.modifier with
    | .alt => !alt
    | .super => !logo
  if ends then c.finish else c

/-- End the cycle; the window to go back to. -/
def cancel (c : WindowCycle) : WindowCycle × Option Nat :=
  ({ c with selection := none }, c.selection.bind Selection.origin)

/-- A new cycle: the recent windows first, then the others. -/
def start (c : WindowCycle) (available : List Nat) (focused : Option Nat) (reverse : Bool)
    (modifier : CycleModifier) : WindowCycle × Selection :=
  let c := match focused.filter fun id => available.contains id with
    | some id => c.focus id
    | none => c
  let order := Stack.pushNew c.recent available
  let index := (focused.bind fun id => order.idxOf? id).getD
    (if reverse then 0 else order.length - 1)
  (c, { order := order, index := index, origin := focused, modifier := modifier })

/-- The cycle that a step goes on with: the one that is held, or a new one. -/
def held (c : WindowCycle) (available : List Nat) (focused : Option Nat) (reverse : Bool)
    (modifier : CycleModifier) : WindowCycle × Selection :=
  let c := c.retain available
  let c := if c.selection.any fun s => s.modifier ≠ modifier then c.finish else c
  match c.selection with
  | some s => (c, s)
  | none => c.start available focused reverse modifier

/-- One step; the window it comes to. -/
def step (c : WindowCycle) (available : List Nat) (focused : Option Nat) (reverse : Bool)
    (modifier : CycleModifier) : WindowCycle × Option Nat :=
  if available = [] then ({ c.retain available with selection := none }, none)
  else
    let (c, s) := c.held available focused reverse modifier
    match walk available s.order reverse s.order.length s.index with
    | some (index, id) => ({ c with selection := some { s with index := index } }, some id)
    | none => ({ c with selection := none }, none)

/-- Forward steps one after the other, told what is focused at each; what they come to. -/
def forwards (c : WindowCycle) (available : List Nat) (modifier : CycleModifier) :
    List (Option Nat) → WindowCycle × List (Option Nat)
  | [] => (c, [])
  | focused :: rest =>
      let (c, id) := c.step available focused false modifier
      let (c, ids) := forwards c available modifier rest
      (c, id :: ids)

end WindowCycle

/-- What happens to the cycle. -/
inductive Op where
  | focus (id : Nat)
  | retain (available : List Nat)
  | finish
  | release (alt logo : Bool)
  | cancel
  | step (available : List Nat) (focused : Option Nat) (reverse : Bool) (modifier : CycleModifier)

namespace WindowCycle

def apply (c : WindowCycle) : Op → WindowCycle
  | .focus id => c.focus id
  | .retain available => c.retain available
  | .finish => c.finish
  | .release alt logo => c.release alt logo
  | .cancel => c.cancel.1
  | .step available focused reverse modifier => (c.step available focused reverse modifier).1

/-- The state after a run. -/
def run (ops : List Op) : WindowCycle := ops.foldl apply {}

/-- What holds in every state of a run. -/
structure Sound (c : WindowCycle) : Prop where
  recent : c.recent.Nodup
  index : ∀ s, c.selection = some s → s.index < s.order.length
  order : ∀ s, c.selection = some s → s.order.Nodup

end WindowCycle

/-! ### The order of a new cycle -/

theorem walk_eq_seek (available order : List Nat) (reverse : Bool) (fuel i : Nat)
    (h : 0 < order.length) : walk available order reverse fuel i =
      Cyclic.seek (fun id => available.contains id) order
        (if reverse then order.length - 1 else 1) fuel i := by
  induction fuel generalizing i with
  | zero => rfl
  | succ fuel ih =>
      have hstride : (if reverse then (i + order.length - 1) % order.length
          else (i + 1) % order.length) =
          (i + if reverse then order.length - 1 else 1) % order.length := by
        cases reverse with
        | true => simp only [if_true]; rw [Nat.add_sub_assoc h]
        | false => rfl
      unfold walk Cyclic.seek
      simp only [hstride, ih]
      cases order[(i + if reverse then order.length - 1 else 1) % order.length]? <;> rfl

namespace WindowCycle

variable {c : WindowCycle} {available : List Nat} {modifier : CycleModifier}

/-! ### The operations keep the invariant -/

theorem Sound.focus (h : c.Sound) (id : Nat) : (c.focus id).Sound := by
  unfold WindowCycle.focus
  split
  · exact h
  · refine ⟨List.nodup_cons.mpr ⟨?_, h.recent.filter _⟩, nofun, nofun⟩
    simp

theorem Sound.drop (h : c.Sound) : Sound { c with selection := none } :=
  ⟨h.recent, nofun, nofun⟩

theorem Sound.retain (h : c.Sound) (available : List Nat) : (c.retain available).Sound :=
  ⟨h.recent.filter _, h.index, h.order⟩

theorem finish_selection (c : WindowCycle) : c.finish.selection = none := by
  unfold WindowCycle.finish
  split
  next hnone => exact hnone
  next => split <;> rfl

theorem Sound.finish (h : c.Sound) : c.finish.Sound := by
  unfold WindowCycle.finish
  split
  · exact h
  · split
    · exact h.drop.focus _
    · exact h.drop

theorem Sound.start (h : c.Sound) (havailable : available ≠ []) (focused : Option Nat)
    (reverse : Bool) (modifier : CycleModifier) :
    (c.start available focused reverse modifier).1.Sound ∧
      (c.start available focused reverse modifier).2.index <
        (c.start available focused reverse modifier).2.order.length ∧
      (c.start available focused reverse modifier).2.order.Nodup ∧
      ∀ id ∈ available, id ∈ (c.start available focused reverse modifier).2.order := by
  have hc : (match focused.filter fun id => available.contains id with
      | some id => c.focus id
      | none => c).Sound := by
    split
    · exact h.focus _
    · exact h
  unfold WindowCycle.start
  simp only
  generalize (match focused.filter fun id => available.contains id with
      | some id => c.focus id
      | none => c) = d at hc
  refine ⟨hc, ?_, Stack.nodup_pushNew hc.recent available, fun id hid =>
    Stack.mem_pushNew.mpr (.inr hid)⟩
  obtain ⟨x, hx⟩ := List.exists_mem_of_ne_nil available havailable
  have hpos : 0 < (Stack.pushNew d.recent available).length :=
    List.length_pos_of_mem (Stack.mem_pushNew.mpr (.inr hx))
  cases hfound : focused.bind fun id => (Stack.pushNew d.recent available).idxOf? id with
  | none =>
      rw [Option.getD_none]
      split
      · exact hpos
      · omega
  | some k =>
      obtain ⟨id, -, hk⟩ := Option.bind_eq_some_iff.mp hfound
      rw [Option.getD_some]
      exact (List.idxOf?_eq_some_iff.mp hk).1

theorem mem_start_order (hrecent : ∀ id ∈ c.recent, id ∈ available) (focused : Option Nat)
    (reverse : Bool) (modifier : CycleModifier) (id : Nat) :
    id ∈ (c.start available focused reverse modifier).2.order ↔ id ∈ available := by
  unfold WindowCycle.start
  simp only
  rw [Stack.mem_pushNew, or_iff_right_iff_imp]
  intro hid
  split at hid
  next x hx =>
    have hxin : x ∈ available := by simpa using (Option.mem_filter_iff.mp hx).2
    unfold WindowCycle.focus at hid
    split at hid
    · exact hrecent id hid
    · rcases List.mem_cons.mp hid with rfl | hid
      · exact hxin
      · exact hrecent id (List.mem_of_mem_filter hid)
  next => exact hrecent id hid

theorem Sound.held (h : c.Sound) (havailable : available ≠ []) (focused : Option Nat)
    (reverse : Bool) (modifier : CycleModifier) :
    (c.held available focused reverse modifier).1.Sound ∧
      (c.held available focused reverse modifier).2.index <
        (c.held available focused reverse modifier).2.order.length ∧
      (c.held available focused reverse modifier).2.order.Nodup ∧
      (c.held available focused reverse modifier).2.modifier = modifier ∧
      ((∃ s, c.selection = some s ∧ s.modifier = modifier ∧
          c.held available focused reverse modifier = (c.retain available, s)) ∨
        (∀ s, c.selection = some s → s.modifier ≠ modifier) ∧
          ∀ id ∈ available, id ∈ (c.held available focused reverse modifier).2.order) := by
  have hc := h.retain available
  unfold WindowCycle.held
  simp only [show (c.retain available).selection = c.selection from rfl]
  cases hother : c.selection.any fun s => s.modifier ≠ modifier with
  | true =>
      have hmodifier : ∀ s, c.selection = some s → s.modifier ≠ modifier := by
        intro s hs
        rw [hs] at hother
        simpa using hother
      simp only [if_true, finish_selection]
      obtain ⟨hsound, hindex, horder, hall⟩ :=
        hc.finish.start havailable focused reverse modifier
      exact ⟨hsound, hindex, horder, rfl, .inr ⟨hmodifier, hall⟩⟩
  | false =>
      simp only [Bool.false_eq_true, if_false]
      cases hs : c.selection with
      | some s =>
          rw [show (c.retain available).selection = some s from hs]
          have hmodifier : s.modifier = modifier := by
            rw [hs] at hother
            simpa using hother
          exact ⟨hc, h.index s hs, h.order s hs, hmodifier, .inl ⟨s, rfl, hmodifier, rfl⟩⟩
      | none =>
          rw [show (c.retain available).selection = none from hs]
          obtain ⟨hsound, hindex, horder, hall⟩ :=
            hc.start havailable focused reverse modifier
          exact ⟨hsound, hindex, horder, rfl, .inr ⟨nofun, hall⟩⟩

theorem step_cases (h : c.Sound) (havailable : available ≠ []) (focused : Option Nat)
    (reverse : Bool) (modifier : CycleModifier) :
    (∃ j id, Cyclic.seek (fun id => available.contains id)
        (c.held available focused reverse modifier).2.order
        (if reverse then (c.held available focused reverse modifier).2.order.length - 1 else 1)
        (c.held available focused reverse modifier).2.order.length
        (c.held available focused reverse modifier).2.index = some (j, id) ∧
      c.step available focused reverse modifier =
        ({ (c.held available focused reverse modifier).1 with
          selection := some { (c.held available focused reverse modifier).2 with index := j } },
          some id)) ∨
    c.step available focused reverse modifier =
        ({ (c.held available focused reverse modifier).1 with selection := none }, none) ∧
      ∀ id ∈ (c.held available focused reverse modifier).2.order, id ∉ available := by
  obtain ⟨-, hindex, -, -, -⟩ := h.held havailable focused reverse modifier
  unfold WindowCycle.step
  rw [if_neg havailable]
  generalize c.held available focused reverse modifier = r at hindex
  obtain ⟨d, s⟩ := r
  simp only at hindex ⊢
  rw [walk_eq_seek available s.order reverse _ _ (by omega)]
  cases hseek : Cyclic.seek (fun id => available.contains id) s.order
      (if reverse then s.order.length - 1 else 1) s.order.length s.index with
  | some r => exact .inl ⟨r.1, r.2, rfl, rfl⟩
  | none =>
      refine .inr ⟨rfl, fun id hid hin => ?_⟩
      have hstride : (if reverse then s.order.length - 1 else 1) = 1 ∨
          (if reverse then s.order.length - 1 else 1) = s.order.length - 1 := by
        cases reverse <;> simp
      obtain ⟨r, hr⟩ := Cyclic.seek_isSome (p := fun id => available.contains id) hstride hindex hid
        (List.contains_iff_mem.mpr hin)
      rw [hr] at hseek
      cases hseek

theorem Sound.step (h : c.Sound) (available : List Nat) (focused : Option Nat) (reverse : Bool)
    (modifier : CycleModifier) : (c.step available focused reverse modifier).1.Sound := by
  by_cases havailable : available = []
  · unfold WindowCycle.step
    rw [if_pos havailable]
    exact (h.retain available).drop
  · obtain ⟨hsound, hindex, horder, -, -⟩ := h.held havailable focused reverse modifier
    obtain ⟨j, id, hseek, heq⟩ | ⟨heq, -⟩ := step_cases h havailable focused reverse modifier
    · rw [heq]
      refine ⟨hsound.recent, ?_, ?_⟩
      · rintro s ⟨⟩
        obtain ⟨d, -, -, -, hj, -, -⟩ := Cyclic.seek_some hseek
        exact (List.getElem?_eq_some_iff.mp hj).1
      · rintro s ⟨⟩
        exact horder
    · rw [heq]
      exact hsound.drop

theorem Sound.apply (h : c.Sound) (op : Op) : (c.apply op).Sound := by
  cases op with
  | focus id => exact h.focus id
  | retain available => exact h.retain available
  | finish => exact h.finish
  | release alt logo =>
      unfold WindowCycle.apply WindowCycle.release
      simp only
      split
      · exact h.finish
      · exact h
  | cancel => exact h.drop
  | step available focused reverse modifier => exact h.step available focused reverse modifier

theorem sound_run (ops : List Op) : (run ops).Sound := by
  unfold run
  suffices hall : ∀ c : WindowCycle, c.Sound → (ops.foldl apply c).Sound from
    hall {} ⟨List.nodup_nil, nofun, nofun⟩
  induction ops with
  | nil => exact fun _ hc => hc
  | cons op ops ih => exact fun c hc => ih (c.apply op) (hc.apply op)

/-! ### Steps one after the other -/

/-- The available windows of a cycle, as forward steps come by them. -/
def ahead (available : List Nat) (s : Selection) : List Nat :=
  Cyclic.ahead (fun id => available.contains id) s.order s.index

theorem ahead_perm (available : List Nat) (s : Selection) :
    (ahead available s).Perm (s.order.filter fun id => available.contains id) :=
  (List.rotate_perm _ _).filter _

theorem held_of_selection {s : Selection} (hs : c.selection = some s) (available : List Nat)
    (focused : Option Nat) (reverse : Bool) :
    c.held available focused reverse s.modifier = (c.retain available, s) := by
  unfold WindowCycle.held
  simp only [show (c.retain available).selection = c.selection from rfl, hs, Option.any_some,
    ne_eq, not_true_eq_false, decide_false, Bool.false_eq_true, if_false]

theorem step_forward (h : c.Sound) (havailable : available ≠ []) (focused : Option Nat)
    (hahead : ahead available (c.held available focused false modifier).2 ≠ []) :
    ∃ j id, c.step available focused false modifier =
        ({ (c.held available focused false modifier).1 with
          selection := some { (c.held available focused false modifier).2 with index := j } },
          some id) ∧
      (ahead available (c.held available focused false modifier).2).head? = some id ∧
      ahead available { (c.held available focused false modifier).2 with index := j } =
        (ahead available (c.held available focused false modifier).2).rotate 1 := by
  obtain ⟨j, id, hseek, heq⟩ | ⟨-, hnone⟩ := step_cases h havailable focused false modifier
  · obtain ⟨hhead, hrotate⟩ := Cyclic.ahead_seek hseek
    exact ⟨j, id, heq, hhead, hrotate⟩
  · have hfilter : ((c.held available focused false modifier).2.order.filter fun id =>
        available.contains id) = [] :=
      List.filter_eq_nil_iff.mpr fun id hid hin => hnone id hid (List.contains_iff_mem.mp hin)
    exact absurd (List.perm_nil.mp (hfilter ▸ ahead_perm available _)) hahead

theorem forwards_held {s : Selection} (h : c.Sound) (hs : c.selection = some s)
    (havailable : available ≠ []) (hahead : ahead available s ≠ []) (rest : List (Option Nat))
    (hrest : rest.length ≤ (ahead available s).length) :
    (c.forwards available s.modifier rest).2 = ((ahead available s).take rest.length).map some ∧
      (c.forwards available s.modifier rest).1.Sound ∧
      ∃ t, (c.forwards available s.modifier rest).1.selection = some t ∧ t.modifier = s.modifier ∧
        ahead available t = (ahead available s).rotate rest.length := by
  induction rest generalizing c s with
  | nil => exact ⟨rfl, h, s, hs, rfl, (List.rotate_zero _).symm⟩
  | cons focused rest ih =>
      have hheld := held_of_selection hs available focused false
      obtain ⟨j, id, hstep, hhead, hrotate⟩ := step_forward h havailable focused
        (by rw [hheld]; exact hahead)
      rw [hheld] at hstep hhead hrotate
      simp only at hstep hhead hrotate
      have hsound := h.step available focused false s.modifier
      rw [hstep] at hsound
      obtain ⟨tail, htail⟩ : ∃ tail, ahead available s = id :: tail := by
        cases hl : ahead available s with
        | nil => exact absurd hl hahead
        | cons x tail =>
            rw [hl] at hhead
            exact ⟨tail, by rw [Option.some.inj hhead]⟩
      rw [htail, List.rotate_cons_succ, List.rotate_zero] at hrotate
      rw [htail, List.length_cons] at hrest
      obtain ⟨hids, hlast, t, ht, hmodifier, htahead⟩ := ih hsound rfl
        (by rw [hrotate]; simp) (by rw [hrotate]; simpa using Nat.le_of_succ_le hrest)
      unfold forwards
      rw [hstep]
      refine ⟨?_, hlast, t, ht, hmodifier, ?_⟩
      · show some id :: _ = _
        rw [hids, hrotate, htail, List.length_cons, List.take_succ_cons, List.map_cons,
          List.take_append_of_le_length (by simpa using hrest)]
      · rw [htahead, hrotate, htail, List.length_cons, List.rotate_cons_succ]

/-- As many forward steps as windows are ahead come to each of them, and the next one to
the first again. -/
theorem forwards_round (h : c.Sound) (havailable : available ≠ []) (focused : Option Nat)
    (rest : List (Option Nat))
    (hrest : rest.length + 1 =
      (ahead available (c.held available focused false modifier).2).length) :
    (c.forwards available modifier (focused :: rest)).2 =
        (ahead available (c.held available focused false modifier).2).map some ∧
      ∀ f, ((c.forwards available modifier (focused :: rest)).1.step available f false modifier).2 =
        (ahead available (c.held available focused false modifier).2).head? := by
  obtain ⟨-, -, -, hmodifier, -⟩ := h.held havailable focused false modifier
  have hsound := h.step available focused false modifier
  generalize hs : (c.held available focused false modifier).2 = s at hrest hmodifier
  subst hmodifier
  obtain ⟨id, tail, htail⟩ : ∃ id tail, ahead available s = id :: tail := by
    cases hl : ahead available s with
    | nil => rw [hl] at hrest; cases hrest
    | cons id tail => exact ⟨id, tail, rfl⟩
  obtain ⟨j, id', hstep, hhead, hrotate⟩ :=
    step_forward h havailable focused (by rw [hs, htail]; exact List.cons_ne_nil _ _)
  rw [hs, htail, List.head?_cons] at hhead
  obtain rfl := Option.some.inj hhead
  rw [hs, htail, List.rotate_cons_succ, List.rotate_zero] at hrotate
  rw [hs] at hstep
  rw [hstep] at hsound
  rw [htail, List.length_cons] at hrest
  obtain ⟨hids, hlast, t, ht, htmodifier, htahead⟩ := forwards_held hsound rfl havailable
    (by rw [hrotate]; simp) rest (by rw [hrotate, List.length_append]; omega)
  have hround : ahead available t = id :: tail := by
    rw [htahead, hrotate, show rest.length = tail.length by omega, List.rotate_append_length_eq]
    rfl
  unfold forwards
  rw [hstep, htail]
  constructor
  · show some id :: _ = _
    rw [hids, hrotate, List.take_left' (by omega)]
    rfl
  · intro f
    have hheld := held_of_selection ht available f false
    rw [htmodifier] at hheld
    obtain ⟨k, next, hnext, hfirst, -⟩ :=
      step_forward hlast havailable f (by rw [hheld, hround]; exact List.cons_ne_nil _ _)
    rw [hheld, hround] at hfirst
    show (WindowCycle.step _ available f false s.modifier).2 = _
    rw [hnext, hfirst]

theorem step_back (h : c.Sound) (havailable : available ≠ []) {focused : Option Nat} {id : Nat}
    (hchosen : (c.held available focused false modifier).2.chosen = some id)
    (hin : id ∈ available) (f : Option Nat) :
    ((c.step available focused false modifier).1.step available f true modifier).2 = some id ∧
      ((c.step available focused false modifier).1.step available f true modifier).1.selection =
        some (c.held available focused false modifier).2 := by
  obtain ⟨-, hindex, -, hmodifier, -⟩ := h.held havailable focused false modifier
  have hsound := h.step available focused false modifier
  have havail : (fun id => available.contains id) id = true := List.contains_iff_mem.mpr hin
  obtain ⟨j, id', hseek, hstep⟩ | ⟨-, hnone⟩ := step_cases h havailable focused false modifier
  · generalize hs : (c.held available focused false modifier).2 = s at *
    subst hmodifier
    have hback := Cyclic.seek_back hseek hchosen havail
    have hselection : (c.step available focused false s.modifier).1.selection =
        some { s with index := j } := by rw [hstep]
    generalize (c.step available focused false s.modifier).1 = d at hsound hselection ⊢
    have hheld := held_of_selection hselection available f true
    obtain ⟨k, back, hseek', hstep'⟩ | ⟨-, hnone⟩ :=
      step_cases hsound havailable f true s.modifier
    · rw [hheld] at hseek' hstep'
      simp only [if_true] at hseek'
      rw [hback] at hseek'
      cases hseek'
      rw [hstep']
      exact ⟨rfl, rfl⟩
    · rw [hheld] at hnone
      exact absurd hin (hnone id (List.mem_of_getElem? hchosen))
  · exact absurd hin (hnone id (List.mem_of_getElem? hchosen))

theorem start_chosen (c : WindowCycle) {id : Nat} (hin : id ∈ available) (reverse : Bool)
    (modifier : CycleModifier) :
    (c.start available (some id) reverse modifier).2.chosen = some id := by
  unfold start Selection.chosen
  simp only [Option.bind_some]
  generalize (match (some id).filter fun id => available.contains id with
    | some id => c.focus id
    | none => c) = d
  cases hk : (Stack.pushNew d.recent available).idxOf? id with
  | none => exact absurd (Stack.mem_pushNew.mpr (.inr hin)) (List.idxOf?_eq_none_iff.mp hk)
  | some k =>
      obtain ⟨hlt, heq, -⟩ := List.idxOf?_eq_some_iff.mp hk
      rw [Option.getD_some, List.getElem?_eq_getElem hlt, heq]

theorem held_chosen {reverse : Bool} {id : Nat} (hin : id ∈ available)
    (hnew : ∀ s, c.selection = some s → s.modifier ≠ modifier) :
    (c.held available (some id) reverse modifier).2.chosen = some id := by
  unfold held
  simp only [show (c.retain available).selection = c.selection from rfl]
  cases hs : c.selection with
  | none =>
      simp only [Option.any_none, Bool.false_eq_true, if_false,
        show (c.retain available).selection = none from hs]
      exact start_chosen _ hin reverse modifier
  | some s =>
      have hother : (some s).any (fun s => decide (s.modifier ≠ modifier)) = true := by
        simpa using hnew s hs
      simp only [hother, if_true, finish_selection]
      exact start_chosen _ hin reverse modifier

/-- The laws of the cycle in one state. -/
structure Laws (c : WindowCycle) : Prop where
  index : ∀ s, c.selection = some s → s.index < s.order.length
  recent : c.recent.Nodup
  /-- A step comes to an available window, or ends a cycle that has none left. -/
  available : ∀ available focused reverse modifier, available ≠ [] →
    (∃ id ∈ available, (c.step available focused reverse modifier).2 = some id) ∨
      (c.step available focused reverse modifier).2 = none ∧
        (c.step available focused reverse modifier).1.selection = none ∧
        ∃ s, c.selection = some s ∧ s.modifier = modifier ∧ ∀ id ∈ s.order, id ∉ available
  /-- What a step comes to is not used by being focused. -/
  preview : ∀ available focused reverse modifier id,
    (c.step available focused reverse modifier).2 = some id →
      (c.step available focused reverse modifier).1.focus id =
        (c.step available focused reverse modifier).1
  /-- A new cycle over `n` windows comes to each in `n` steps, and then to the first. -/
  visits : ∀ available modifier focused rest, available.Nodup →
    (∀ s, c.selection = some s → s.modifier ≠ modifier) →
      rest.length + 1 = available.length → ∃ ids : List Nat, ids.Perm available ∧
        (c.forwards available modifier (focused :: rest)).2 = ids.map some ∧
        ∀ f, ((c.forwards available modifier (focused :: rest)).1.step available f false
          modifier).2 = ids.head?
  /-- So does a held cycle over those of its windows that are available. -/
  visits_held : ∀ available s focused rest, c.selection = some s →
    rest.length + 1 = (s.order.filter fun id => available.contains id).length →
      ∃ ids : List Nat, ids.Perm (s.order.filter fun id => available.contains id) ∧
        (c.forwards available s.modifier (focused :: rest)).2 = ids.map some ∧
        ∀ f, ((c.forwards available s.modifier (focused :: rest)).1.step available f false
          s.modifier).2 = ids.head?
  /-- A step back after the first forward step is at the focused window. -/
  undo : ∀ available modifier f id, id ∈ available →
    (∀ s, c.selection = some s → s.modifier ≠ modifier) →
      ((c.step available (some id) false modifier).1.step available f true modifier).2 = some id
  /-- A step back after a forward step undoes it, if the window before is available. -/
  undo_held : ∀ available s focused f id, c.selection = some s → s.chosen = some id →
    id ∈ available →
      ((c.step available focused false s.modifier).1.step available f true s.modifier).2 =
          some id ∧
        ((c.step available focused false s.modifier).1.step available f true
          s.modifier).1.selection = some s
  /-- Finishing moves the window to the front and keeps the order of the others. -/
  finish : ∀ s, c.selection = some s → ∃ id, s.chosen = some id ∧
    c.finish = { recent := id :: c.recent.filter fun old => old ≠ id, selection := none }

theorem Sound.laws (h : c.Sound) : c.Laws where
  index := h.index
  recent := h.recent
  available available focused reverse modifier havailable := by
    obtain ⟨-, -, -, -, hheld⟩ := h.held havailable focused reverse modifier
    obtain ⟨j, id, hseek, heq⟩ | ⟨heq, hnone⟩ := step_cases h havailable focused reverse modifier
    · obtain ⟨d, -, -, -, -, hin, -⟩ := Cyclic.seek_some hseek
      exact .inl ⟨id, List.contains_iff_mem.mp hin, by rw [heq]⟩
    · refine .inr ⟨by rw [heq], by rw [heq], ?_⟩
      obtain ⟨s, hs, hmodifier, hsame⟩ | ⟨-, hall⟩ := hheld
      · rw [hsame] at hnone
        exact ⟨s, hs, hmodifier, hnone⟩
      · obtain ⟨id, hid⟩ := List.exists_mem_of_ne_nil available havailable
        exact absurd hid (hnone id (hall id hid))
  preview available focused reverse modifier id hid := by
    by_cases havailable : available = []
    · rw [WindowCycle.step, if_pos havailable] at hid
      cases hid
    · obtain ⟨j, id', hseek, heq⟩ | ⟨heq, -⟩ := step_cases h havailable focused reverse modifier
      · rw [heq] at hid ⊢
        obtain rfl := Option.some.inj hid
        obtain ⟨d, -, -, -, hj, -, -⟩ := Cyclic.seek_some hseek
        exact if_pos (decide_eq_true hj)
      · rw [heq] at hid
        cases hid
  visits available modifier focused rest hnodup hnew hrest := by
    have havailable : available ≠ [] := List.ne_nil_of_length_pos (by omega)
    obtain ⟨-, -, horder, -, hheld⟩ := h.held havailable focused false modifier
    have hperm : (ahead available (c.held available focused false modifier).2).Perm available := by
      refine (ahead_perm available _).trans ?_
      refine (List.perm_ext_iff_of_nodup (horder.filter _) hnodup).mpr fun id => ?_
      rw [List.mem_filter, List.contains_iff_mem]
      refine ⟨fun hid => hid.2, fun hid => ⟨?_, hid⟩⟩
      obtain ⟨s, hs, hmodifier, -⟩ | ⟨-, hall⟩ := hheld
      · exact absurd hmodifier (hnew s hs)
      · exact hall id hid
    exact ⟨_, hperm, forwards_round h havailable focused rest (hrest.trans hperm.length_eq.symm)⟩
  visits_held available s focused rest hs hrest := by
    have havailable : available ≠ [] := by
      rintro rfl
      rw [List.filter_eq_nil_iff.mpr (by simp)] at hrest
      cases hrest
    have hheld := held_of_selection hs available focused false
    have hround := forwards_round h havailable focused rest
      (by rw [hheld]; exact hrest.trans (ahead_perm available s).length_eq.symm)
    rw [hheld] at hround
    exact ⟨_, ahead_perm available s, hround⟩
  undo available modifier f id hin hnew :=
    (step_back h (List.ne_nil_of_mem hin) (held_chosen hin hnew) hin f).1
  undo_held available s focused f id hs hchosen hin := by
    have hheld := held_of_selection hs available focused false
    have hback := step_back h (List.ne_nil_of_mem hin) (by rw [hheld]; exact hchosen) hin f
    rw [hheld] at hback
    exact hback
  finish s hs := by
    obtain ⟨id, hchosen⟩ : ∃ id, s.chosen = some id :=
      ⟨_, List.getElem?_eq_getElem (h.index s hs)⟩
    refine ⟨id, hchosen, ?_⟩
    unfold WindowCycle.finish
    rw [hs]
    simp only [hchosen]
    rfl

/-- The laws hold in every state that a run reaches. -/
theorem laws_run (ops : List Op) : (run ops).Laws := (sound_run ops).laws

/-- Three windows, used in this order, and one forward step over those still open. -/
def stepped (available : List Nat) : WindowCycle :=
  run [.focus 1, .focus 2, .focus 3, .step available (some 3) false .alt]

/-- A held cycle comes to nothing when all its windows have closed and others opened, it
does not come to a window that opened since, and it cannot step back to a window that
has closed. -/
theorem held_cycle_is_fixed :
    ((stepped [1, 2, 3]).step [4] none false .alt).2 = none ∧
      some 4 ∉ ((stepped [1, 2, 3]).forwards [1, 2, 3, 4] .alt [none, none, none, none]).2 ∧
      (stepped [1, 2, 3]).selection.bind Selection.chosen = some 2 ∧
      (((stepped [1, 2, 3]).step [1, 3] none false .alt).1.step [1, 3] none true .alt).2 =
        some 3 := by
  decide

end WindowCycle
end MindOS.Cycle
