import MindOS.Text.Basic
import Mathlib.Data.List.Sort

/-!
# Notices

What the daemon wants the user to know: a list of notices with distinct ids, the
changes to it, and the event that tells a client of each change. A client keeps a
title, a body and a level for each id; every event says for some ids what to keep.
-/

namespace MindOS.Notices

open Text

/-- A button of a notice, with its argument as JSON text. -/
structure NoticeAction where
  label : Text
  kind : Text
  arg : Text
  deriving DecidableEq

structure Notice where
  id : Text := []
  level : Text := "info"
  title : Text := []
  body : Text := []
  source : Text := "mind"
  time : Nat := 0
  actions : List NoticeAction := []
  deriving DecidableEq

/-- What a client shows of a notice. -/
structure Face where
  title : Text
  body : Text
  level : Text
  deriving DecidableEq

def Notice.face (n : Notice) : Face := ⟨n.title, n.body, n.level⟩

/-- What a list of notices shows under an id. -/
def faceIn (list : List Notice) (id : Text) : Option Face :=
  (list.find? fun n => n.id = id).map Notice.face

/-- The events about notices. -/
inductive Event where
  | notices (list : List Notice)
  | notice (n : Notice)
  | gone (id : Text)
  deriving DecidableEq

/-- What an event tells a client to keep under an id, if it is about that id. -/
def Event.tells (id : Text) : Event → Option (Option Face)
  | .notices list => some (faceIn list id)
  | .notice n => if n.id = id then some (some n.face) else none
  | .gone i => if i = id then some none else none

/-- What a client shows under an id once it has replayed its events. -/
def view (events : List Event) (id : Text) : Option Face :=
  events.foldl (fun face e => (e.tells id).getD face) none

@[simp] theorem view_concat (events : List Event) (e : Event) (id : Text) :
    view (events ++ [e]) id = (e.tells id).getD (view events id) := by
  simp [view]

/-! ### The changes -/

/-- The newest first, notices of one time in the order they had. -/
def sortByTime (list : List Notice) : List Notice :=
  list.insertionSort fun a b => b.time ≤ a.time

/-- The first notice with the id of `n` becomes `n`. -/
def replaceFirst (n : Notice) : List Notice → List Notice
  | [] => []
  | x :: list => if x.id = n.id then n :: list else x :: replaceFirst n list

/-- Add or replace a notice; there is an event if something changed for the user. -/
def post (list : List Notice) (now : Nat) (n : Notice) : List Notice × List Event :=
  let n := if n.time = 0 then { n with time := now } else n
  match list.find? fun x => x.id = n.id with
  | some old =>
      let same := old.face = n.face
      let n := if same then { n with time := old.time } else n
      (if old = n then list else sortByTime (replaceFirst n list),
        if same then [] else [.notice n])
  | none => (sortByTime (list ++ [n]), [.notice n])

/-- The notices that are not removed, and an event for each that is. -/
def remove (list : List Notice) (gone : Notice → Bool) : List Notice × List Event :=
  (list.filter fun n => !gone n, (list.filter gone).map fun n => .gone n.id)

/-- Remove a notice, or all of them. -/
def dismiss (list : List Notice) (id : Text) : List Notice × List Event :=
  remove list fun n => id = "*" || n.id = id

/-- Remove every notice whose id has the beginning and is not to be kept. -/
def retainPrefix (list : List Notice) (start : Text) (keep : List Text) :
    List Notice × List Event :=
  remove list fun n => n.id.startsWith start && !keep.contains n.id

/-! ### What a change does -/

/-- No id is there twice. -/
def Distinct (list : List Notice) : Prop := (list.map Notice.id).Nodup

/-- A change and its events: where the list shows something else under an id than
before, an event tells what. -/
structure Announced (before after : List Notice) (events : List Event) : Prop where
  distinct : Distinct after
  told : ∀ id, faceIn after id = faceIn before id ∨
    ∃ e ∈ events, e.tells id = some (faceIn after id)

theorem faceIn_eq_some {list : List Notice} (hlist : Distinct list) {n : Notice}
    (hn : n ∈ list) : faceIn list n.id = some n.face := by
  induction list with
  | nil => cases hn
  | cons m list ih =>
      obtain ⟨hm, hrest⟩ := List.nodup_cons.mp hlist
      by_cases hid : m.id = n.id
      · obtain rfl | hin := List.mem_cons.mp hn
        · simp [faceIn]
        · exact absurd (List.mem_map_of_mem hin) (hid ▸ hm)
      · obtain rfl | hin := List.mem_cons.mp hn
        · exact absurd rfl hid
        · simpa [faceIn, hid] using ih hrest hin

theorem faceIn_eq_none {list : List Notice} {id : Text} (h : ∀ n ∈ list, n.id ≠ id) :
    faceIn list id = none := by
  have hfind : (list.find? fun n => n.id = id) = none := by simpa using h
  rw [faceIn, hfind, Option.map_none]

theorem faceIn_congr {list list' : List Notice} (hlist : Distinct list) (hlist' : Distinct list')
    {id : Text} (h : ∀ n, n.id = id → (n ∈ list ↔ n ∈ list')) :
    faceIn list id = faceIn list' id := by
  by_cases hex : ∃ n ∈ list, n.id = id
  · obtain ⟨n, hn, rfl⟩ := hex
    rw [faceIn_eq_some hlist hn, faceIn_eq_some hlist' ((h n rfl).mp hn)]
  · have hnone : ∀ n ∈ list, n.id ≠ id := fun n hn hid => hex ⟨n, hn, hid⟩
    rw [faceIn_eq_none hnone, faceIn_eq_none fun n hn hid => hnone n ((h n hid).mpr hn) hid]

theorem mem_sortByTime {list : List Notice} {n : Notice} :
    n ∈ sortByTime list ↔ n ∈ list := List.mem_insertionSort _

theorem Distinct.sortByTime {list : List Notice} (h : Distinct list) :
    Distinct (sortByTime list) :=
  ((List.perm_insertionSort _ list).map Notice.id).nodup_iff.mpr h

theorem faceIn_sortByTime {list : List Notice} (h : Distinct list) (id : Text) :
    faceIn (sortByTime list) id = faceIn list id :=
  faceIn_congr h.sortByTime h fun _ _ => mem_sortByTime

theorem Distinct.concat {list : List Notice} (h : Distinct list) {n : Notice}
    (hn : ∀ x ∈ list, x.id ≠ n.id) : Distinct (list ++ [n]) := by
  rw [Distinct, List.map_append]
  refine List.nodup_append.mpr ⟨h, List.nodup_singleton _, ?_⟩
  intro i hi j hj
  obtain ⟨x, hx, rfl⟩ := List.mem_map.mp hi
  rw [List.map_singleton, List.mem_singleton] at hj
  rw [hj]
  exact hn x hx

theorem map_id_replaceFirst (n : Notice) (list : List Notice) :
    (replaceFirst n list).map Notice.id = list.map Notice.id := by
  induction list with
  | nil => rfl
  | cons x list ih =>
      unfold replaceFirst
      split
      case isTrue hx => rw [List.map_cons, List.map_cons, hx]
      case isFalse => rw [List.map_cons, List.map_cons, ih]

theorem faceIn_replaceFirst {list : List Notice} {n : Notice} (h : ∃ x ∈ list, x.id = n.id)
    (id : Text) :
    faceIn (replaceFirst n list) id = if n.id = id then some n.face else faceIn list id := by
  induction list with
  | nil =>
      obtain ⟨x, hx, -⟩ := h
      cases hx
  | cons y list ih =>
      unfold replaceFirst
      split
      case isTrue hy =>
        by_cases hid : n.id = id
        · simp [faceIn, hid]
        · simp [faceIn, hid, hy]
      case isFalse hy =>
        have hrest : ∃ x ∈ list, x.id = n.id := by
          obtain ⟨x, hx, hxn⟩ := h
          obtain rfl | hx := List.mem_cons.mp hx
          · exact absurd hxn hy
          · exact ⟨x, hx, hxn⟩
        have hface : ∀ l, faceIn (y :: l) id = if y.id = id then some y.face else faceIn l id := by
          intro l
          by_cases hyid : y.id = id
          · simp [faceIn, hyid]
          · simp [faceIn, hyid]
        rw [hface, hface, ih hrest]
        by_cases hyid : y.id = id
        · rw [if_pos hyid, if_pos hyid, if_neg fun hn => hy (hyid.trans hn.symm)]
        · rw [if_neg hyid, if_neg hyid]

theorem faceIn_concat {list : List Notice} {n : Notice} (h : ∀ x ∈ list, x.id ≠ n.id)
    (id : Text) :
    faceIn (list ++ [n]) id = if n.id = id then some n.face else faceIn list id := by
  by_cases hid : n.id = id
  · subst hid
    have hnone : (list.find? fun x => x.id = n.id) = none := by simpa using h
    rw [if_pos rfl, faceIn, List.find?_append, hnone]
    simp
  · rw [if_neg hid, faceIn, List.find?_append]
    simp [faceIn, hid]

theorem post_announced {list : List Notice} (h : Distinct list) (now : Nat) (n : Notice) :
    Announced list (post list now n).1 (post list now n).2 := by
  unfold post
  generalize (if n.time = 0 then { n with time := now } else n) = n
  simp only
  split
  case h_2 hnone =>
    have hnew : ∀ x ∈ list, x.id ≠ n.id := by simpa using hnone
    have hdistinct := h.concat hnew
    refine ⟨hdistinct.sortByTime, fun id => ?_⟩
    rw [faceIn_sortByTime hdistinct, faceIn_concat hnew]
    by_cases hid : n.id = id
    · exact .inr ⟨_, List.mem_singleton_self _, by simp [Event.tells, hid]⟩
    · exact .inl (if_neg hid)
  case h_1 old hold =>
    have hfirst : faceIn list n.id = some old.face := by rw [faceIn, hold, Option.map_some]
    have hmem : ∃ x ∈ list, x.id = n.id :=
      ⟨old, List.mem_of_find?_eq_some hold, by simpa using List.find?_some hold⟩
    obtain ⟨n', hid', hface', hn'⟩ : ∃ n', n'.id = n.id ∧ n'.face = n.face ∧
        n' = if old.face = n.face then { n with time := old.time } else n := by
      by_cases hsame : old.face = n.face
      · exact ⟨{ n with time := old.time }, rfl, rfl, (if_pos hsame).symm⟩
      · exact ⟨n, rfl, rfl, (if_neg hsame).symm⟩
    rw [← hn']
    have hreplace : Distinct (replaceFirst n' list) := by
      rw [Distinct, map_id_replaceFirst]
      exact h
    have hafter : ∀ id, faceIn (if old = n' then list else sortByTime (replaceFirst n' list)) id =
        if n.id = id then some n.face else faceIn list id := by
      intro id
      split
      case isTrue heq =>
        by_cases hid : n.id = id
        · rw [if_pos hid, ← hid, hfirst, heq, hface']
        · rw [if_neg hid]
      case isFalse =>
        rw [faceIn_sortByTime hreplace, faceIn_replaceFirst (hid' ▸ hmem), hid', hface']
    refine ⟨?_, fun id => ?_⟩
    · split
      · exact h
      · exact hreplace.sortByTime
    · rw [hafter]
      by_cases hid : n.id = id
      · by_cases hsame : old.face = n.face
        · exact .inl (by rw [if_pos hid, ← hid, hfirst, hsame])
        · refine .inr ⟨.notice n', ?_, ?_⟩
          · rw [if_neg hsame]
            exact List.mem_singleton_self _
          · rw [if_pos hid, Event.tells, if_pos (hid'.trans hid), hface']
      · exact .inl (if_neg hid)

theorem remove_announced {list : List Notice} (h : Distinct list) (gone : Notice → Bool) :
    Announced list (remove list gone).1 (remove list gone).2 := by
  have hdistinct : Distinct (list.filter fun n => !gone n) :=
    (List.filter_sublist.map Notice.id).nodup h
  refine ⟨hdistinct, fun id => ?_⟩
  by_cases hgone : ∃ n ∈ list, n.id = id ∧ gone n = true
  · obtain ⟨n, hn, rfl, hg⟩ := hgone
    refine .inr ⟨.gone n.id, List.mem_map_of_mem (List.mem_filter.mpr ⟨hn, hg⟩), ?_⟩
    rw [Event.tells, if_pos rfl]
    -- No other notice has the id.
    refine congrArg some (faceIn_eq_none fun m hm hid => ?_).symm
    obtain ⟨hin, hkeep⟩ := List.mem_filter.mp hm
    rw [List.inj_on_of_nodup_map h hin hn hid, hg] at hkeep
    cases hkeep
  · refine .inl (faceIn_congr hdistinct h fun n hid => ?_)
    rw [List.mem_filter]
    constructor
    · exact fun hn => hn.1
    · intro hn
      refine ⟨hn, ?_⟩
      cases hg : gone n with
      | false => rfl
      | true => exact absurd ⟨n, hn, hid, hg⟩ hgone

end MindOS.Notices
