import Mathlib.Data.Finset.Card
import Mathlib.Order.Interval.Finset.Nat
import MindOS.Bits
import MindOS.Transition

/-!
# The allocator of frames

## The bitmap of frames

A bitmap over the frames of memory, with a bit set for each frame in use. One frame is looked for
from a hint on and then from the beginning, a word at a time; a run of frames is looked for from the
first megabyte on, and the words that are full are passed over. Sums are those of small numbers.
-/

namespace MindOS.Kernel.Mm

open Bits

structure Pmm where
  bitmap : Nat → BitVec 64
  words : Nat
  frames : Nat
  free : Nat
  hint : Nat

namespace Pmm

variable (p : Pmm)

def isUsed (f : Nat) : Bool := p.bitmap (f / 64) &&& bit (f % 64) ≠ 0

def setUsed (f : Nat) : Pmm :=
  { p with bitmap := Function.update p.bitmap (f / 64) (p.bitmap (f / 64) ||| bit (f % 64)) }

def setFree (f : Nat) : Pmm :=
  { p with bitmap := Function.update p.bitmap (f / 64) (p.bitmap (f / 64) &&& ~~~bit (f % 64)) }

/-- The loop over the words of a pass, which is left at a place behind the last frame. -/
def findWord : List Nat → Option Nat
  | [] => none
  | w :: ws =>
      if p.bitmap w ≠ BitVec.allOnes 64 then
        let f := w * 64 + trailingZeros (~~~p.bitmap w)
        if p.frames ≤ f then none else some f
      else findWord ws

/-- The frame that the two passes find. -/
def find : Option Nat :=
  let start := p.hint / 64
  (p.findWord (List.range' start (p.words - start))).or (p.findWord (List.range' 0 start))

def allocOne : Pmm × Option Nat :=
  match p.find with
  | none => (p, none)
  | some f => ({ p.setUsed f with free := p.free - 1, hint := f + 1 }, some f)

/-- Never hand out the first 1 MiB. -/
def firstRun : Nat := 256

/-- The loop at frame `f`, with `run` free frames before it; it goes on at most `fuel` times. -/
def findRun (n : Nat) : Nat → Nat → Nat → Option Nat
  | 0, _, _ => none
  | fuel + 1, f, run =>
      if p.frames ≤ f then none
      else if f % 64 = 0 ∧ p.bitmap (f / 64) = BitVec.allOnes 64 then findRun n fuel (f + 64) 0
      else if p.isUsed f then findRun n fuel (f + 1) 0
      else if run + 1 = n then some (f + 1 - n)
      else findRun n fuel (f + 1) (run + 1)

/-- A frame is passed in each turn, so that no more turns are made than there are frames. -/
def allocMany (n : Nat) : Pmm × Option Nat :=
  if n = 1 then p.allocOne
  else
    match p.findRun n p.frames firstRun 0 with
    | none => (p, none)
    | some start =>
        ({ (List.range' start n).foldl setUsed p with free := p.free - n }, some start)

/-- `free_frame`, of the frame at a physical address. -/
def freeFrame (pa : Nat) : Pmm :=
  let f := pa / 4096
  if f < p.frames ∧ p.isUsed f = true then
    { p.setFree f with free := p.free + 1, hint := if f < p.hint then f else p.hint }
  else p

/-! ### Which frames are in use -/

variable {p} {f g n fuel run : Nat}

theorem isUsed_iff : p.isUsed f = true ↔ Has (p.bitmap (f / 64)) (f % 64) := decide_eq_true_iff

theorem mod_lt (f : Nat) : f % 64 < 64 := Nat.mod_lt f (by decide)

theorem word_ne (h : g ≠ f) (hw : g / 64 = f / 64) : g % 64 ≠ f % 64 := by
  omega

theorem isUsed_setUsed : (p.setUsed f).isUsed g = (decide (g = f) || p.isUsed g) := by
  rw [Bool.eq_iff_iff, Bool.or_eq_true, decide_eq_true_iff, isUsed_iff, isUsed_iff]
  change Has (Function.update p.bitmap _ _ _) _ ↔ _
  by_cases hw : g / 64 = f / 64
  · rw [hw, Function.update_self, has_or, has_bit, iff_true_intro (mod_lt f), and_true, or_comm]
    refine or_congr_left ⟨fun hmod => ?_, fun hg => by rw [hg]⟩
    by_contra hne
    exact word_ne hne hw hmod
  · rw [Function.update_of_ne hw]
    exact ⟨.inr, fun h => h.resolve_left fun hg => hw (by rw [hg])⟩

theorem isUsed_setFree : (p.setFree f).isUsed g = (decide (g ≠ f) && p.isUsed g) := by
  rw [Bool.eq_iff_iff, Bool.and_eq_true, decide_eq_true_iff, isUsed_iff, isUsed_iff]
  change Has (Function.update p.bitmap _ _ _) _ ↔ _
  by_cases hw : g / 64 = f / 64
  · rw [hw, Function.update_self, has_and_not, has_bit, iff_true_intro (mod_lt f), and_true,
      and_comm]
    refine and_congr_left fun _ => not_congr ⟨fun hmod => ?_, fun hg => by rw [hg]⟩
    by_contra hne
    exact word_ne hne hw hmod
  · rw [Function.update_of_ne hw]
    exact ⟨fun h => ⟨fun hg => hw (by rw [hg]), h⟩, fun h => h.2⟩

theorem isUsed_foldl {l : List Nat} :
    (l.foldl setUsed p).isUsed g = true ↔ g ∈ l ∨ p.isUsed g = true := by
  induction l generalizing p with
  | nil => simp
  | cons f l ih =>
      rw [List.foldl_cons, ih, isUsed_setUsed, List.mem_cons, Bool.or_eq_true, decide_eq_true_iff]
      exact or_left_comm.trans or_assoc.symm

theorem fields_foldl {l : List Nat} : (l.foldl setUsed p).words = p.words ∧
    (l.foldl setUsed p).frames = p.frames ∧ (l.foldl setUsed p).hint = p.hint := by
  induction l generalizing p with
  | nil => exact ⟨rfl, rfl, rfl⟩
  | cons f l ih => exact ih

/-- The frames that are not in use. -/
def clear (p : Pmm) : Finset Nat := (Finset.range p.frames).filter fun f => p.isUsed f = false

theorem mem_clear : f ∈ p.clear ↔ f < p.frames ∧ p.isUsed f = false := by
  rw [clear, Finset.mem_filter, Finset.mem_range]

/-- The bitmap is long enough, the bits behind the last frame are set, and the count is right. -/
structure Inv (p : Pmm) : Prop where
  words : p.words = (p.frames + 63) / 64
  above : ∀ f, p.frames ≤ f → f < p.words * 64 → p.isUsed f = true
  free : p.free = p.clear.card
  hint : p.hint ≤ p.frames

/-! ### The searches -/

theorem isUsed_of_full (h : p.bitmap (f / 64) = BitVec.allOnes 64) : p.isUsed f = true := by
  rw [isUsed_iff, h, has_iff, BitVec.getLsbD_allOnes]
  exact decide_eq_true (mod_lt f)

theorem isUsed_lowest {w : Nat} (h : p.bitmap w ≠ BitVec.allOnes 64) :
    (w * 64 + trailingZeros (~~~p.bitmap w)) / 64 = w ∧
      p.isUsed (w * 64 + trailingZeros (~~~p.bitmap w)) = false := by
  have hne : ~~~p.bitmap w ≠ 0 := fun hzero => h (by
    have hflip : ~~~~~~p.bitmap w = ~~~(0#64) := by rw [hzero]; rfl
    rwa [BitVec.not_not, BitVec.not_zero] at hflip)
  have hhas := has_trailingZeros hne
  have hlt := hhas.lt
  have hword : (w * 64 + trailingZeros (~~~p.bitmap w)) / 64 = w := by omega
  have hbit : (w * 64 + trailingZeros (~~~p.bitmap w)) % 64 = trailingZeros (~~~p.bitmap w) := by
    omega
  refine ⟨hword, Bool.eq_false_iff.mpr fun hused => ?_⟩
  rw [isUsed_iff, hword, hbit] at hused
  exact (has_not hlt).mp hhas hused

theorem findWord_some {ws : List Nat} (h : p.findWord ws = some f) :
    f < p.frames ∧ p.isUsed f = false := by
  induction ws with
  | nil => cases h
  | cons w ws ih =>
      rw [findWord] at h
      split at h
      · next hfull =>
          dsimp only at h
          split at h
          · cases h
          · next hlt =>
              obtain rfl := Option.some.inj h
              exact ⟨Nat.lt_of_not_le hlt, (isUsed_lowest hfull).2⟩
      · exact ih h

theorem findWord_none (hp : p.Inv) {ws : List Nat} (hws : ∀ w ∈ ws, w < p.words)
    (h : p.findWord ws = none) : ∀ w ∈ ws, p.bitmap w = BitVec.allOnes 64 := by
  induction ws with
  | nil => simp
  | cons w ws ih =>
      rw [findWord] at h
      split at h
      · next hfull =>
          -- the place that is found would be one of those behind the last frame, which are set
          dsimp only at h
          split at h
          · next hle =>
              obtain ⟨hword, hclear⟩ := isUsed_lowest hfull
              have hw := hws w List.mem_cons_self
              have hused := hp.above _ hle (by omega)
              rw [hclear] at hused
              cases hused
          · cases h
      · next hfull =>
          intro w' hw'
          rcases List.mem_cons.mp hw' with rfl | hw'
          · exact not_not.mp hfull
          · exact ih (fun w hw => hws w (List.mem_cons_of_mem _ hw)) h w' hw'

theorem find_some (h : p.find = some f) : f < p.frames ∧ p.isUsed f = false := by
  rcases Option.or_eq_some_iff.mp h with h | ⟨-, h⟩
  · exact findWord_some h
  · exact findWord_some h

theorem find_none (hp : p.Inv) (h : p.find = none) : ∀ f < p.frames, p.isUsed f = true := by
  obtain ⟨hfirst, hsecond⟩ := Option.or_eq_none_iff.mp h
  have hwords := hp.words
  have hhint := hp.hint
  intro f hf
  refine isUsed_of_full ?_
  have hin : ∀ lo k w, w ∈ List.range' lo k ↔ lo ≤ w ∧ w < lo + k := fun _ _ _ =>
    List.mem_range'_1
  by_cases hlo : p.hint / 64 ≤ f / 64
  · refine findWord_none hp (fun w hw => ?_) hfirst _ ((hin _ _ _).mpr (by omega))
    have := (hin _ _ _).mp hw
    omega
  · refine findWord_none hp (fun w hw => ?_) hsecond _ ((hin _ _ _).mpr (by omega))
    have := (hin _ _ _).mp hw
    omega

/-- The frames from `s` on, `n` of them. -/
def Run (s n g : Nat) : Prop := s ≤ g ∧ g < s + n

theorem findRun_some {s : Nat} (hrun : ∀ g, f - run ≤ g → g < f → p.isUsed g = false)
    (hle : firstRun + run ≤ f) (h : p.findRun n fuel f run = some s) :
    firstRun ≤ s ∧ s + n ≤ p.frames ∧ ∀ g, Run s n g → p.isUsed g = false := by
  induction fuel generalizing f run with
  | zero => cases h
  | succ fuel ih =>
      rw [findRun] at h
      split at h
      · cases h
      next hlt =>
      split at h
      · exact ih (fun g hlo hhi => by omega) (by omega) h
      split at h
      · exact ih (fun g hlo hhi => by omega) (by omega) h
      next hclear =>
      have hnext : ∀ g, f + 1 - (run + 1) ≤ g → g < f + 1 → p.isUsed g = false := by
        intro g hlo hhi
        rcases Nat.lt_succ_iff_lt_or_eq.mp hhi with hg | rfl
        · exact hrun g (by omega) hg
        · exact Bool.eq_false_iff.mpr hclear
      split at h
      · next hn =>
          obtain rfl := Option.some.inj h
          refine ⟨by omega, by omega, fun g hg => hnext g ?_ ?_⟩
          all_goals
            have hlo := hg.1
            have hhi := hg.2
            omega
      · exact ih hnext (by omega) h

theorem findRun_none (hfuel : p.frames ≤ f + fuel) (hlt : run < n) (hle : run ≤ f)
    (h : p.findRun n fuel f run = none) {s : Nat} (hs : f - run ≤ s) (hend : s + n ≤ p.frames) :
    ∃ g, Run s n g ∧ p.isUsed g = true := by
  induction fuel generalizing f run with
  | zero => omega
  | succ fuel ih =>
      rw [findRun] at h
      split at h
      · omega
      next hframes =>
      split at h
      · next hfull =>
          by_cases hpast : f + 64 ≤ s
          · exact ih (by omega) (by omega) (by omega) h (by omega)
          · have hword : ∀ g, f ≤ g → g < f + 64 → p.isUsed g = true := fun g hlo hhi => by
              have hg : g / 64 = f / 64 := by omega
              exact isUsed_of_full (by rw [hg, hfull.2])
            refine ⟨max s f, ⟨le_max_left _ _, ?_⟩, hword _ (le_max_right _ _) ?_⟩ <;> omega
      split at h
      · next hused =>
          by_cases hpast : f + 1 ≤ s
          · exact ih (by omega) (by omega) (by omega) h (by omega)
          · exact ⟨f, ⟨by omega, by omega⟩, hused⟩
      split at h
      · cases h
      · exact ih (by omega) (by omega) (by omega) h (by omega)

end Pmm

/-!
## The allocator of frames

Over any run no frame is handed out while it is in use, the count of the free frames is right, and
a request for one frame fails only if there is none. A run of frames is looked for above the first
megabyte only, and a request for no frames fails.
-/

open Bits Transition

namespace Pmm

inductive Call where
  | allocOne
  | allocMany (n : Nat)
  | freeFrame (pa : Nat)

def call (p : Pmm) : Call → Pmm × Option Nat
  | .allocOne => p.allocOne
  | .allocMany n => p.allocMany n
  | .freeFrame pa => (p.freeFrame pa, none)

def step (p : Pmm) (c : Call) : Option Pmm := some (p.call c).1

/-- What a request for `n` frames answers: frames that were not in use and now are, or none if
every run of that length from frame `lo` on, of `least` frames or more, has one in use. -/
def Handed (p : Pmm) (lo least n : Nat) (t : Pmm × Option Nat) : Prop :=
  (∃ s, t.2 = some s ∧ s + n ≤ p.frames ∧ (∀ g, Run s n g → p.isUsed g = false) ∧
      ∀ g, t.1.isUsed g = true ↔ Run s n g ∨ p.isUsed g = true) ∨
    t = (p, none) ∧ ∀ s, least ≤ n → lo ≤ s → s + n ≤ p.frames →
      ∃ g, Run s n g ∧ p.isUsed g = true

/-- A frame in use becomes free; nothing else changes. -/
def Freed (p : Pmm) (f : Nat) (t : Pmm) : Prop :=
  if f < p.frames ∧ p.isUsed f = true then
    ∀ g, t.isUsed g = true ↔ g ≠ f ∧ p.isUsed g = true
  else t = p

/-- What a call does, and that the count is right after it. -/
def Good (lo least : Nat) (p : Pmm) (c : Call) (t : Pmm) : Prop :=
  t.free = t.clear.card ∧
    match c with
    | .allocOne => p.Handed 0 0 1 (p.call c)
    | .allocMany n => p.Handed (if n = 1 then 0 else lo) least n (p.call c)
    | .freeFrame pa => p.Freed (pa / 4096) t

variable {p : Pmm} {n s f lo least : Nat} {c : Call}

theorem handed_none {lo' least' : Nat} (hlo : lo ≤ lo') (hleast : least ≤ least')
    {t : Pmm × Option Nat} (h : p.Handed lo least n t) : p.Handed lo' least' n t := by
  rcases h with h | ⟨ht, hused⟩
  · exact .inl h
  · exact .inr ⟨ht, fun s hn hs => hused s (hleast.trans hn) (hlo.trans hs)⟩

theorem inv_of_handed (hp : p.Inv) {t : Pmm} (hframes : t.frames = p.frames)
    (hwords : t.words = p.words) (hend : s + n ≤ p.frames)
    (hclear : ∀ g, Run s n g → p.isUsed g = false)
    (hused : ∀ g, t.isUsed g = true ↔ Run s n g ∨ p.isUsed g = true)
    (hfree : t.free = p.free - n) (hhint : t.hint ≤ p.frames) : t.Inv := by
  refine ⟨by rw [hwords, hframes, hp.words], fun f hle hlt => ?_, ?_, by rwa [hframes]⟩
  · rw [hframes] at hle
    rw [hwords] at hlt
    exact (hused f).mpr (.inr (hp.above f hle hlt))
  · have hsub : Finset.Ico s (s + n) ⊆ p.clear := fun g hg => by
      have hg := Finset.mem_Ico.mp hg
      exact mem_clear.mpr ⟨hg.2.trans_le hend, hclear g hg⟩
    have hdiff : t.clear = p.clear \ Finset.Ico s (s + n) := by
      ext g
      rw [Finset.mem_sdiff, mem_clear, mem_clear, hframes, Finset.mem_Ico, ← Bool.not_eq_true,
        ← Bool.not_eq_true, hused, not_or, Run]
      exact ⟨fun h => ⟨⟨h.1, h.2.2⟩, h.2.1⟩, fun h => ⟨h.1.1, h.2, h.1.2⟩⟩
    rw [hfree, hdiff, Finset.card_sdiff_of_subset hsub, Nat.card_Ico, Nat.add_sub_cancel_left,
      hp.free]

theorem allocOne_handed (hp : p.Inv) : p.allocOne.1.Inv ∧ p.Handed 0 0 1 p.allocOne := by
  rw [allocOne]
  cases hfind : p.find with
  | none =>
      refine ⟨hp, .inr ⟨rfl, fun s _ _ hend => ⟨s, ⟨le_rfl, Nat.lt_succ_self s⟩, ?_⟩⟩⟩
      exact find_none hp hfind s hend
  | some f =>
      obtain ⟨hlt, hclear⟩ := find_some hfind
      have hrun : ∀ g, Run f 1 g ↔ g = f := fun g => by
        rw [Run]
        omega
      have hused : ∀ g, (p.setUsed f).isUsed g = true ↔ Run f 1 g ∨ p.isUsed g = true := fun g => by
        rw [isUsed_setUsed, Bool.or_eq_true, decide_eq_true_iff, hrun]
      have hone : ∀ g, Run f 1 g → p.isUsed g = false := fun g hg => by
        rwa [(hrun g).mp hg]
      refine ⟨?_, .inl ⟨f, rfl, hlt, hone, hused⟩⟩
      exact inv_of_handed hp rfl rfl hlt hone hused rfl hlt

theorem allocMany_handed (hp : p.Inv) :
    (p.allocMany n).1.Inv ∧ p.Handed (if n = 1 then 0 else firstRun) 1 n (p.allocMany n) := by
  rw [allocMany]
  split
  · next hn =>
      subst hn
      obtain ⟨hinv, hhanded⟩ := allocOne_handed hp
      exact ⟨hinv, handed_none le_rfl (Nat.zero_le 1) hhanded⟩
  next hn =>
  cases hrun : p.findRun n p.frames firstRun 0 with
  | none =>
      refine ⟨hp, .inr ⟨rfl, fun s hpos hs hend => ?_⟩⟩
      exact findRun_none (Nat.le_add_left _ _) hpos (Nat.zero_le _) hrun hs hend
  | some s =>
      obtain ⟨-, hend, hclear⟩ := @findRun_some p firstRun n p.frames 0 s
        (fun g hlo hhi => by omega) le_rfl hrun
      obtain ⟨hwords, hframes, hhint⟩ := @fields_foldl p (List.range' s n)
      have hused : ∀ g, ((List.range' s n).foldl setUsed p).isUsed g = true ↔
          Run s n g ∨ p.isUsed g = true := fun g => by
        rw [isUsed_foldl, List.mem_range'_1, Run]
      refine ⟨?_, .inl ⟨s, rfl, hend, hclear, hused⟩⟩
      exact inv_of_handed hp hframes hwords hend hclear hused rfl (hhint.trans_le hp.hint)

theorem freeFrame_freed {pa : Nat} (hp : p.Inv) :
    (p.freeFrame pa).Inv ∧ p.Freed (pa / 4096) (p.freeFrame pa) := by
  rw [freeFrame, Freed]
  dsimp only
  by_cases hf : pa / 4096 < p.frames ∧ p.isUsed (pa / 4096) = true
  · rw [if_pos hf, if_pos hf]
    have hused : ∀ g, (p.setFree (pa / 4096)).isUsed g = true ↔
        g ≠ pa / 4096 ∧ p.isUsed g = true := fun g => by
      rw [isUsed_setFree, Bool.and_eq_true, decide_eq_true_iff]
    refine ⟨⟨hp.words, fun g hle hlt => (hused g).mpr ⟨?_, hp.above g hle hlt⟩, ?_, ?_⟩, hused⟩
    · rintro rfl
      exact absurd hf.1 (Nat.not_lt.mpr hle)
    · have hinsert : ({ p.setFree (pa / 4096) with
          free := p.free + 1
          hint := if pa / 4096 < p.hint then pa / 4096 else p.hint } : Pmm).clear =
            insert (pa / 4096) p.clear := by
        ext g
        rw [Finset.mem_insert, mem_clear, mem_clear, ← Bool.not_eq_true, ← Bool.not_eq_true]
        change g < p.frames ∧ ¬(p.setFree (pa / 4096)).isUsed g = true ↔ _
        rw [hused]
        by_cases hg : g = pa / 4096
        · simp [hg, hf.1]
        · simp [hg]
      have hnot : pa / 4096 ∉ p.clear := fun hmem => by
        rw [mem_clear, hf.2] at hmem
        cases hmem.2
      rw [hinsert, Finset.card_insert_of_notMem hnot, hp.free]
    · have := hp.hint
      dsimp only [setFree]
      split <;> omega
  · rw [if_neg hf, if_neg hf]
    exact ⟨hp, rfl⟩

theorem good_of_inv (hp : p.Inv) {t : Pmm} (hstep : step p c = some t) :
    t.Inv ∧ Good firstRun 1 p c t := by
  obtain rfl := Option.some.inj hstep
  cases c with
  | allocOne => exact ⟨(allocOne_handed hp).1, (allocOne_handed hp).1.free, (allocOne_handed hp).2⟩
  | allocMany n =>
      exact ⟨(allocMany_handed hp).1, (allocMany_handed hp).1.free, (allocMany_handed hp).2⟩
  | freeFrame pa =>
      exact ⟨(freeFrame_freed hp).1, (freeFrame_freed hp).1.free, (freeFrame_freed hp).2⟩

/-- Any run of requests, from any bitmap whose count is right. -/
theorem frames_handed_once (p : Pmm) (calls : List Call) (hp : p.Inv) :
    Along step (Good firstRun 1) p calls := by
  refine Along.imp Inv (fun _ _ _ hp hstep _ => (good_of_inv hp hstep).1)
    (fun _ _ _ hp hstep _ => (good_of_inv hp hstep).2) hp
    (along_of_forall (R := fun _ => True) fun _ _ => trivial)

/-- Memory of which every frame is in use. -/
def full (frames : Nat) : Pmm := ⟨fun _ => BitVec.allOnes 64, (frames + 63) / 64, frames, 0, 0⟩

theorem full_inv (frames : Nat) : (full frames).Inv := by
  have hused : ∀ f, (full frames).isUsed f = true := fun f => isUsed_of_full rfl
  refine ⟨rfl, fun f _ _ => hused f, Eq.symm (Finset.card_eq_zero.mpr ?_), Nat.zero_le _⟩
  exact Finset.eq_empty_of_forall_notMem fun f hf => by
    rw [mem_clear, hused] at hf
    cases hf.2

theorem frames_handed_once_full : Along step (Good firstRun 1) (full 320)
    [.freeFrame 0x101000, .freeFrame 0x102000, .allocMany 2, .allocOne] :=
  frames_handed_once (full 320) _ (full_inv 320)

/-- Two frames of the first megabyte are freed, and are not found as a run. -/
theorem not_always_found : ¬∀ (p : Pmm) (calls : List Call), p.Inv →
    Along step (Good 0 0) p calls := by
  intro hall
  have hrun := hall (full 64) [.freeFrame 0, .freeFrame 0x1000, .allocMany 2] (full_inv 64)
  obtain ⟨-, hhanded⟩ := (((hrun _ rfl).2 _ rfl).2 _ rfl).1
  rcases hhanded with ⟨s, hs, -⟩ | ⟨-, hused⟩
  · cases hs
  · obtain ⟨g, hg, hg'⟩ := hused 0 (Nat.zero_le _) (Nat.zero_le _) (by decide)
    obtain rfl | rfl : g = 0 ∨ g = 1 := by
      have := hg.2
      omega
    all_goals
      revert hg'
      decide

end Pmm

end MindOS.Kernel.Mm
