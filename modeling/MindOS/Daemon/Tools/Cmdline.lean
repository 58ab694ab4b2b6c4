import MindOS.Text.Words
import Mathlib.Data.List.Nodup

/-!
# Editing the kernel command line

A line is split into its parameters at whitespace. What is to be added and what is to be
removed is taken for one parameter each, whatever stands in it, and goes by what stands
before its first equals sign.
-/

namespace MindOS.Tools

open Text

/-- What a parameter is known by: the text before its first `=`. -/
def key (p : Text) : Text := p.takeWhile (· != '=')

def editCmdline (cur add remove : Text) : Text :=
  let params := words cur
  let params :=
    if remove = [] then params else params.filter fun p => p ≠ remove ∧ key p ≠ key remove
  let params := if add = [] then params else params.filter (fun p => key p ≠ key add) ++ [add]
  unwords params

/-- The keys of the parameters that stand in a text. -/
def keys (t : Text) : List Text := (words t).map key

/-- What an edit should do to a line. -/
structure Edited (cur add remove : Text) : Prop where
  /-- Once more it does nothing. -/
  again : editCmdline (editCmdline cur add remove) add remove = editCmdline cur add remove
  once : ∀ p ∈ words add, (words (editCmdline cur add remove)).count p = 1
  removed : ∀ p ∈ words (editCmdline cur add remove), key p ∈ keys remove → p ∈ words add
  /-- The other parameters stay, in their order. -/
  others : (words (editCmdline cur add remove)).filter (· ∉ words add) =
    (words cur).filter fun p => key p ∉ keys remove ∧ key p ∉ keys add

/-- The edit drops a parameter. -/
def Drops (add remove p : Text) : Prop :=
  remove ≠ [] ∧ key p = key remove ∨ add ≠ [] ∧ key p = key add

instance (add remove p : Text) : Decidable (Drops add remove p) :=
  inferInstanceAs (Decidable (_ ∨ _))

/-- No parameter is added twice, and the edit drops the parameters it should drop: those of
the line that have the key of one in the two texts, and what it adds itself. -/
structure Separate (cur add remove : Text) : Prop where
  nodup : (words add).Nodup
  added : ∀ p ∈ words add, Drops add remove p
  line : ∀ p ∈ words cur, Drops add remove p ↔ key p ∈ keys remove ∨ key p ∈ keys add

variable {cur add remove : Text}

/-! ### What an edit leaves -/

theorem words_unwords_eq (ts : List Text) : words (unwords ts) = ts.flatMap words := by
  induction ts with
  | nil => simp
  | cons t ts ih =>
      by_cases hts : ts = []
      · subst hts
        simp
      · rw [unwords_cons hts, words_append_blank, ih, List.flatMap_cons]

theorem flatMap_words {ts : List Text} (h : ∀ t ∈ ts, IsWord t) : ts.flatMap words = ts := by
  rw [← words_unwords_eq, words_unwords h]

/-- What an edit leaves of a line. -/
def kept (cur add remove : Text) : List Text := (words cur).filter fun p => ¬Drops add remove p

theorem editCmdline_eq (cur add remove : Text) :
    editCmdline cur add remove =
      unwords (kept cur add remove ++ if add = [] then [] else [add]) := by
  have hkept : ∀ ps : List Text, ps.filter (fun p => ¬Drops add remove p) =
      (ps.filter fun p => remove = [] ∨ key p ≠ key remove).filter
        fun p => add = [] ∨ key p ≠ key add := by
    intro ps
    rw [List.filter_filter]
    refine List.filter_congr fun p _ => ?_
    by_cases hr : remove = [] <;> by_cases ha : add = [] <;> simp [Drops, hr, ha, and_comm]
  have hremove : (fun p => decide (p ≠ remove ∧ key p ≠ key remove)) =
      fun p => decide (key p ≠ key remove) := by
    funext p
    simp only [decide_eq_decide, and_iff_right_iff_imp]
    exact fun hkey heq => hkey (congrArg key heq)
  rw [editCmdline, kept, hkept, hremove]
  by_cases hr : remove = [] <;> by_cases ha : add = [] <;> simp [hr, ha]

theorem words_editCmdline (cur add remove : Text) :
    words (editCmdline cur add remove) = kept cur add remove ++ words add := by
  have hkept : (kept cur add remove).flatMap words = kept cur add remove :=
    flatMap_words fun p hp => isWord_of_mem_words (List.mem_filter.mp hp).1
  rw [editCmdline_eq, words_unwords_eq, List.flatMap_append, hkept]
  by_cases ha : add = []
  · subst ha
    simp
  · simp [ha]

theorem mem_kept {p : Text} :
    p ∈ kept cur add remove ↔ p ∈ words cur ∧ ¬Drops add remove p := by
  simp [kept]

/-- What a second edit keeps: what the first kept, and what the first added without being
able to drop it. -/
theorem kept_editCmdline (cur add remove : Text) :
    kept (editCmdline cur add remove) add remove =
      kept cur add remove ++ (words add).filter fun p => ¬Drops add remove p := by
  rw [kept, words_editCmdline, List.filter_append]
  congr 1
  exact List.filter_eq_self.mpr fun p hp => by simpa using (mem_kept.mp hp).2

theorem again_iff :
    editCmdline (editCmdline cur add remove) add remove = editCmdline cur add remove ↔
      ∀ p ∈ words add, Drops add remove p := by
  constructor
  · intro hagain
    have hwords := congrArg words hagain
    rw [words_editCmdline, words_editCmdline, kept_editCmdline] at hwords
    have hnone := List.append_cancel_right hwords
    rw [List.append_right_eq_self, List.filter_eq_nil_iff] at hnone
    simpa using hnone
  · intro hadded
    have hnone : ((words add).filter fun p => ¬Drops add remove p) = [] :=
      List.filter_eq_nil_iff.mpr fun p hp => by simpa using hadded p hp
    rw [editCmdline_eq (editCmdline cur add remove), kept_editCmdline, hnone, List.append_nil,
      ← editCmdline_eq]

theorem filter_eq_filter_iff {α : Type*} {p q : α → Bool} {l : List α} :
    l.filter p = l.filter q ↔ ∀ a ∈ l, (p a = true ↔ q a = true) := by
  constructor
  · intro heq a ha
    have hmem : a ∈ l.filter p ↔ a ∈ l.filter q := by rw [heq]
    simpa [List.mem_filter, ha] using hmem
  · exact fun h => List.filter_congr fun a ha => Bool.eq_iff_iff.mpr (h a ha)

theorem filter_not_added (hadded : ∀ p ∈ words add, Drops add remove p) :
    (words (editCmdline cur add remove)).filter (· ∉ words add) = kept cur add remove := by
  have hnone : (words add).filter (· ∉ words add) = [] :=
    List.filter_eq_nil_iff.mpr fun p hp => by simpa using hp
  have hall : (kept cur add remove).filter (· ∉ words add) = kept cur add remove :=
    List.filter_eq_self.mpr fun p hp => by
      simpa using fun hin => (mem_kept.mp hp).2 (hadded p hin)
  rw [words_editCmdline, List.filter_append, hnone, hall, List.append_nil]

theorem Edited.separate (h : Edited cur add remove) : Separate cur add remove := by
  have hadded := again_iff.mp h.again
  refine ⟨List.nodup_iff_count_le_one.mpr fun p => ?_, hadded, fun p hp => ?_⟩
  · by_cases hp : p ∈ words add
    · have hone := h.once p hp
      rw [words_editCmdline, List.count_append] at hone
      omega
    · rw [List.count_eq_zero.mpr hp]
      exact Nat.zero_le 1
  · have hsame := filter_eq_filter_iff.mp ((filter_not_added hadded).symm.trans h.others) p hp
    simp only [decide_eq_true_eq] at hsame
    rw [← not_iff_not, hsame, not_or]

theorem Separate.edited (h : Separate cur add remove) : Edited cur add remove := by
  have hout : ∀ p ∈ words add, p ∉ kept cur add remove :=
    fun p hp hkept => (mem_kept.mp hkept).2 (h.added p hp)
  refine ⟨again_iff.mpr h.added, fun p hp => ?_, fun p hp hkey => ?_, ?_⟩
  · rw [words_editCmdline, List.count_append, List.count_eq_zero.mpr (hout p hp),
      List.count_eq_one_of_mem h.nodup hp]
  · rw [words_editCmdline] at hp
    obtain hkept | hadd := List.mem_append.mp hp
    · obtain ⟨hcur, hstays⟩ := mem_kept.mp hkept
      exact absurd ((h.line p hcur).mpr (.inl hkey)) hstays
    · exact hadd
  · rw [filter_not_added h.added, kept, filter_eq_filter_iff]
    intro p hp
    simp only [decide_eq_true_eq]
    rw [h.line p hp, not_or]

/-- An edit does what it should exactly when the two texts are told apart from the line by
their keys. -/
theorem edited_iff (cur add remove : Text) :
    Edited cur add remove ↔ Separate cur add remove :=
  ⟨Edited.separate, Separate.edited⟩

/-- Two words are added again with each edit. -/
theorem not_always_edited : ¬∀ cur add remove, Edited cur add remove := by
  intro h
  have hadded := (h "root=/dev/sda1".toList "quiet splash".toList []).again
  revert hadded
  decide

end MindOS.Tools
