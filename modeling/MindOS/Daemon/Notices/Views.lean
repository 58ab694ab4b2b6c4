import MindOS.Daemon.Notices.Basic
import MindOS.Transition
import Mathlib.Logic.Function.Basic

/-!
# What the clients show

Tasks change the store and tell the subscribers, and connections subscribe and ask
for the list. A step is one lock section or one send to one client; the lock on the
subscribers is held through all sends of a broadcast, the lock on the list is not.
So the events of two changes may cross. The views converge in every run in which no
event overtakes a newer one about the same id.
-/

namespace MindOS.Notices

open Text Transition

/-- A change of the store. -/
inductive Change where
  | post (now : Nat) (n : Notice)
  | dismiss (id : Text)
  | retainPrefix (start : Text) (keep : List Text)

/-- The lock section of a change: the list it leaves, and the events it will send. -/
def Change.apply (list : List Notice) : Change → List Notice × List Event
  | .post now n => Notices.post list now n
  | .dismiss id => Notices.dismiss list id
  | .retainPrefix start keep => Notices.retainPrefix list start keep

theorem Change.announced {list : List Notice} (h : Distinct list) (change : Change) :
    Announced list (change.apply list).1 (change.apply list).2 := by
  cases change with
  | post now n => exact post_announced h now n
  | dismiss id => exact remove_announced h _
  | retainPrefix start keep => exact remove_announced h _

/-- The list behind its lock. -/
structure Store where
  list : List Notice := []
  distinct : Distinct list := by exact List.nodup_nil

namespace Store

def change (s : Store) (c : Change) : Store where
  list := (c.apply s.list).1
  distinct := (c.announced s.distinct).distinct

def events (s : Store) (c : Change) : List Event := (c.apply s.list).2

/-- What a client should show under an id. -/
def shows (s : Store) (id : Text) : Option Face := faceIn s.list id

theorem change_shows (s : Store) (c : Change) (id : Text) :
    (s.change c).shows id = s.shows id ∨
      ∃ e ∈ s.events c, e.tells id = some ((s.change c).shows id) :=
  (c.announced s.distinct).told id

end Store

/-- Where a task stands. -/
inductive Task where
  | idle
  /-- It has changed the store and has these events to send. -/
  | announcing (events : List Event)
  /-- It holds the lock on the subscribers: those it has still to send `e` to, those
  that took it, and the events after it. -/
  | sending (e : Event) (todo kept : List Nat) (rest : List Event)
  /-- It has subscribed a client. -/
  | subscribed (c : Nat)
  /-- It has a copy of the list for a client. -/
  | listed (c : Nat) (list : List Notice)

/-- A task with events to send, if there are any. -/
def Task.announce : List Event → Task
  | [] => .idle
  | e :: events => .announcing (e :: events)

structure System where
  store : Store := {}
  subscribers : List Nat := []
  /-- The task that holds the lock on the subscribers. -/
  holder : Option Nat := none
  /-- The clients that have not hung up. -/
  alive : Nat → Bool := fun _ => true
  /-- What each client has received. -/
  inbox : Nat → List Event := fun _ => []
  tasks : Nat → Task := fun _ => .idle

/-- What a task does next. -/
inductive Action where
  | change (c : Change)
  | lock
  | send
  | unlock
  | subscribe (c : Nat)
  | list
  | request (c : Nat)

/-- One step of a run. -/
inductive Label where
  | act (t : Nat) (a : Action)
  | hangUp (c : Nat)

namespace System

/-- The task goes on to `next`. -/
def goto (σ : System) (t : Nat) (next : Task) : System :=
  { σ with tasks := Function.update σ.tasks t next }

/-- An event reaches a client that is still there. -/
def deliver (σ : System) (c : Nat) (e : Event) : System :=
  if σ.alive c then { σ with inbox := Function.update σ.inbox c (σ.inbox c ++ [e]) } else σ

/-- What a task in a given place does on an action; `none` where it does not do it. -/
def act (σ : System) (t : Nat) : Task → Action → Option System
  | .idle, .change c =>
      some ({ σ with store := σ.store.change c }.goto t (.announce (σ.store.events c)))
  | .announcing (e :: rest), .lock =>
      if σ.holder = none then
        some ({ σ with holder := some t }.goto t (.sending e σ.subscribers [] rest))
      else none
  | .sending e (c :: todo) kept rest, .send =>
      let kept := if σ.alive c then kept ++ [c] else kept
      some ((σ.deliver c e).goto t (.sending e todo kept rest))
  | .sending _ [] kept rest, .unlock =>
      some ({ σ with subscribers := kept, holder := none }.goto t (.announce rest))
  | .idle, .subscribe c =>
      if σ.holder = none then
        some ({ σ with subscribers := σ.subscribers ++ [c] }.goto t (.subscribed c))
      else none
  | .subscribed c, .list => some (σ.goto t (.listed c σ.store.list))
  | .idle, .request c => some (σ.goto t (.listed c σ.store.list))
  | .listed c list, .send => some ((σ.deliver c (.notices list)).goto t .idle)
  | _, _ => none

def step (σ : System) : Label → Option System
  | .act t a => σ.act t (σ.tasks t) a
  | .hangUp c => some { σ with alive := Function.update σ.alive c false }

/-- No operation is in progress. -/
def Quiet (σ : System) : Prop := ∀ t, σ.tasks t = .idle

/-- Every subscriber that is still there shows the notices of the store. -/
def Converged (σ : System) : Prop :=
  ∀ c ∈ σ.subscribers, σ.alive c → ∀ id, view (σ.inbox c) id = σ.store.shows id

end System

/-- The event a task sends next, and to which client. -/
def Task.next : Task → Option (Nat × Event)
  | .sending e (c :: _) _ _ => some (c, e)
  | .listed c list => some (c, .notices list)
  | _ => none

/-- The task will yet tell a subscriber to show `face` under an id, or will yet take
the list for it. -/
def Task.willTell (c : Nat) (id : Text) (face : Option Face) : Task → Prop
  | .idle => False
  | .announcing events => ∃ e ∈ events, e.tells id = some face
  | .sending e todo _ rest =>
      (c ∈ todo ∧ e.tells id = some face) ∨ ∃ e ∈ rest, e.tells id = some face
  | .subscribed d => d = c
  | .listed d list => d = c ∧ faceIn list id = face

@[simp] theorem Task.willTell_announce (c : Nat) (id : Text) (face : Option Face)
    (events : List Event) :
    (Task.announce events).willTell c id face ↔ ∃ e ∈ events, e.tells id = some face := by
  cases events with
  | nil => simp [Task.announce, Task.willTell]
  | cons e events => rfl

/-- Where a step sends a subscriber something about an id that is not what the store
holds now, another task will yet tell it what the store holds. -/
def NoOvertaking (σ : System) : Label → System → Prop
  | .act t .send, _ => ∀ c e, (σ.tasks t).next = some (c, e) → c ∈ σ.subscribers →
      ∀ id face, e.tells id = some face → face = σ.store.shows id ∨
        ∃ u ≠ t, (σ.tasks u).willTell c id (σ.store.shows id)
  | _, _ => True

namespace System

/-- A task in a broadcast holds the lock, and has the subscribers in hand. -/
structure Holds (σ : System) (t : Nat) (todo kept : List Nat) : Prop where
  holder : σ.holder = some t
  subscribed : ∀ c, c ∈ kept ∨ c ∈ todo → c ∈ σ.subscribers
  keeps : ∀ c ∈ σ.subscribers, σ.alive c → c ∈ kept ∨ c ∈ todo

/-- Every subscriber shows what the store holds under an id, or will yet be told. -/
def Covered (σ : System) : Prop :=
  ∀ c ∈ σ.subscribers, σ.alive c → ∀ id, view (σ.inbox c) id = σ.store.shows id ∨
    ∃ t, (σ.tasks t).willTell c id (σ.store.shows id)

/-- What holds between the steps of a run without overtaking. -/
structure Sound (σ : System) : Prop where
  holds : ∀ t e todo kept rest, σ.tasks t = .sending e todo kept rest → σ.Holds t todo kept
  covered : σ.Covered

theorem Sound.start : Sound {} where
  holds t e todo kept rest h := by cases h
  covered c hc := by cases hc

theorem goto_self (σ : System) (t : Nat) (p : Task) : (σ.goto t p).tasks t = p :=
  Function.update_self ..

theorem goto_of_ne (σ : System) {t u : Nat} (h : u ≠ t) (p : Task) :
    (σ.goto t p).tasks u = σ.tasks u := Function.update_of_ne h ..

/-- `Covered` with the task `t` standing at `p`. -/
def CoveredWith (σ : System) (t : Nat) (p : Task) : Prop :=
  ∀ c ∈ σ.subscribers, σ.alive c → ∀ id, view (σ.inbox c) id = σ.store.shows id ∨
    p.willTell c id (σ.store.shows id) ∨
      ∃ u ≠ t, (σ.tasks u).willTell c id (σ.store.shows id)

theorem Covered.coveredWith {σ : System} (h : σ.Covered) (t : Nat) :
    σ.CoveredWith t (σ.tasks t) := by
  intro c hc halive id
  obtain hview | ⟨u, hu⟩ := h c hc halive id
  · exact .inl hview
  · by_cases hut : u = t
    · exact .inr (.inl (hut ▸ hu))
    · exact .inr (.inr ⟨u, hut, hu⟩)

theorem covered_goto {σ : System} {t : Nat} {p : Task} (h : σ.CoveredWith t p) :
    (σ.goto t p).Covered := by
  intro c hc halive id
  obtain hview | hp | ⟨u, hut, hu⟩ := h c hc halive id
  · exact .inl hview
  · refine .inr ⟨t, ?_⟩
    rw [goto_self]
    exact hp
  · refine .inr ⟨u, ?_⟩
    rw [goto_of_ne σ hut]
    exact hu

/-- A step of the task `t` keeps the lock in order if it does so for `t`, and for the
others before it moves. -/
theorem holds_goto {σ : System} {t : Nat} {p : Task}
    (hothers : ∀ u ≠ t, ∀ e todo kept rest, σ.tasks u = .sending e todo kept rest →
      σ.Holds u todo kept)
    (hp : ∀ e todo kept rest, p = .sending e todo kept rest → σ.Holds t todo kept) :
    ∀ u e todo kept rest, (σ.goto t p).tasks u = .sending e todo kept rest →
      (σ.goto t p).Holds u todo kept := by
  intro u e todo kept rest hu
  by_cases hut : u = t
  · rw [hut, goto_self] at hu
    obtain ⟨hholder, hsubscribed, hkeeps⟩ := hp e todo kept rest hu
    exact ⟨hut ▸ hholder, hsubscribed, hkeeps⟩
  · rw [goto_of_ne σ hut] at hu
    obtain ⟨hholder, hsubscribed, hkeeps⟩ := hothers u hut e todo kept rest hu
    exact ⟨hholder, hsubscribed, hkeeps⟩

theorem announce_ne_sending (events : List Event) (e : Event) (todo kept : List Nat)
    (rest : List Event) : Task.announce events ≠ .sending e todo kept rest := by
  cases events <;> exact nofun

@[simp] theorem deliver_store (σ : System) (c : Nat) (e : Event) :
    (σ.deliver c e).store = σ.store := by
  unfold deliver
  split <;> rfl

@[simp] theorem deliver_subscribers (σ : System) (c : Nat) (e : Event) :
    (σ.deliver c e).subscribers = σ.subscribers := by
  unfold deliver
  split <;> rfl

@[simp] theorem deliver_holder (σ : System) (c : Nat) (e : Event) :
    (σ.deliver c e).holder = σ.holder := by
  unfold deliver
  split <;> rfl

@[simp] theorem deliver_alive (σ : System) (c : Nat) (e : Event) :
    (σ.deliver c e).alive = σ.alive := by
  unfold deliver
  split <;> rfl

@[simp] theorem deliver_tasks (σ : System) (c : Nat) (e : Event) :
    (σ.deliver c e).tasks = σ.tasks := by
  unfold deliver
  split <;> rfl

theorem view_deliver {σ : System} {d : Nat} (halive : σ.alive d) (c : Nat) (e : Event) (id : Text) :
    view ((σ.deliver c e).inbox d) id =
      if d = c then (e.tells id).getD (view (σ.inbox d) id) else view (σ.inbox d) id := by
  by_cases hdc : d = c
  · subst hdc
    rw [deliver, if_pos halive, if_pos rfl]
    simp only [Function.update_self, view_concat]
  · rw [if_neg hdc, deliver]
    split
    · simp only [Function.update_of_ne hdc]
    · rfl

theorem CoveredWith.deliver {σ : System} {t c : Nat} {e : Event} {p : Task}
    (h : σ.CoveredWith t (σ.tasks t)) (hnext : (σ.tasks t).next = some (c, e))
    (hP : ∀ c e, (σ.tasks t).next = some (c, e) → c ∈ σ.subscribers →
      ∀ id face, e.tells id = some face → face = σ.store.shows id ∨
        ∃ u ≠ t, (σ.tasks u).willTell c id (σ.store.shows id))
    (hp : ∀ d id, (σ.tasks t).willTell d id (σ.store.shows id) →
      p.willTell d id (σ.store.shows id) ∨ d = c ∧ e.tells id = some (σ.store.shows id)) :
    (σ.deliver c e).CoveredWith t p := by
  intro d hd halive id
  rw [deliver_subscribers] at hd
  rw [deliver_alive] at halive
  rw [deliver_store, deliver_tasks, view_deliver halive]
  by_cases htells : d = c ∧ ∃ face, e.tells id = some face
  · -- What the client is told is what the store holds, or it will be told that.
    obtain ⟨rfl, face, hface⟩ := htells
    rw [if_pos rfl, hface, Option.getD_some]
    obtain hnow | hlater := hP d e hnext hd id face hface
    · exact .inl hnow
    · exact .inr (.inr hlater)
  · have hsame : (if d = c then (e.tells id).getD (view (σ.inbox d) id) else
        view (σ.inbox d) id) = view (σ.inbox d) id := by
      split
      case isTrue hdc =>
        cases hface : e.tells id with
        | none => rfl
        | some face => exact absurd ⟨hdc, face, hface⟩ htells
      case isFalse => rfl
    rw [hsame]
    obtain hview | ht | hothers := h d hd halive id
    · exact .inl hview
    · obtain hleft | ⟨hdc, hnow⟩ := hp d id ht
      · exact .inr (.inl hleft)
      · exact absurd ⟨hdc, _, hnow⟩ htells
    · exact .inr (.inr hothers)

theorem Holds.deliver {σ : System} {u : Nat} {todo kept : List Nat} (h : σ.Holds u todo kept)
    (c : Nat) (e : Event) : (σ.deliver c e).Holds u todo kept where
  holder := (deliver_holder σ c e).trans h.holder
  subscribed := by
    rw [deliver_subscribers]
    exact h.subscribed
  keeps := by
    rw [deliver_subscribers, deliver_alive]
    exact h.keeps

section Act

variable {σ : System} {t : Nat} (h : σ.Sound)

include h

theorem Sound.not_sending (hfree : σ.holder = none) {u : Nat} {e : Event} {todo kept : List Nat}
    {rest : List Event} : σ.tasks u ≠ .sending e todo kept rest := by
  intro hsend
  have hholder := (h.holds u e todo kept rest hsend).holder
  rw [hfree] at hholder
  cases hholder

theorem Sound.change (hp : σ.tasks t = .idle) (c : Change) :
    ({ σ with store := σ.store.change c }.goto t (.announce (σ.store.events c))).Sound := by
  have hcovered := h.covered.coveredWith t
  rw [hp] at hcovered
  refine ⟨holds_goto (fun u _ e todo kept rest hsend => ?_) fun e todo kept rest hsend =>
    absurd hsend (announce_ne_sending _ e todo kept rest), covered_goto ?_⟩
  · obtain ⟨hholder, hsubscribed, hkeeps⟩ := h.holds u e todo kept rest hsend
    exact ⟨hholder, hsubscribed, hkeeps⟩
  · intro d hd halive id
    obtain hsame | htold := σ.store.change_shows c id
    · obtain hview | htell | hother := hcovered d hd halive id
      · exact .inl (hview.trans hsame.symm)
      · exact htell.elim
      · exact .inr (.inr (hsame ▸ hother))
    · exact .inr (.inl ((Task.willTell_announce d id _ _).mpr htold))

theorem Sound.lock {e : Event} {rest : List Event} (hp : σ.tasks t = .announcing (e :: rest))
    (hfree : σ.holder = none) :
    ({ σ with holder := some t }.goto t (.sending e σ.subscribers [] rest)).Sound := by
  have hcovered := h.covered.coveredWith t
  rw [hp] at hcovered
  refine ⟨holds_goto (fun u _ e todo kept rest hsend => absurd hsend (h.not_sending hfree))
    fun e todo kept rest hsend => ?_, covered_goto ?_⟩
  · cases hsend
    exact ⟨rfl, fun c hc => hc.resolve_left List.not_mem_nil, fun c hc _ => .inr hc⟩
  · intro d hd halive id
    obtain hview | ⟨e', he', htell⟩ | hother := hcovered d hd halive id
    · exact .inl hview
    · obtain rfl | he' := List.mem_cons.mp he'
      · exact .inr (.inl (.inl ⟨hd, htell⟩))
      · exact .inr (.inl (.inr ⟨e', he', htell⟩))
    · exact .inr (.inr hother)

theorem Sound.holds_send {e : Event} {c : Nat} {todo kept : List Nat} {rest : List Event}
    (hp : σ.tasks t = .sending e (c :: todo) kept rest) :
    σ.Holds t todo (if σ.alive c then kept ++ [c] else kept) := by
  obtain ⟨hholder, hsubscribed, hkeeps⟩ := h.holds t e (c :: todo) kept rest hp
  refine ⟨hholder, fun d hd => hsubscribed d ?_, fun d hd halive => ?_⟩
  · obtain hkept | htodo := hd
    · split at hkept
      · obtain hkept | hc := List.mem_append.mp hkept
        · exact .inl hkept
        · exact .inr (List.mem_singleton.mp hc ▸ List.mem_cons_self)
      · exact .inl hkept
    · exact .inr (List.mem_cons_of_mem c htodo)
  · obtain hkept | htodo := hkeeps d hd halive
    · refine .inl ?_
      split
      · exact List.mem_append_left _ hkept
      · exact hkept
    · obtain rfl | htodo := List.mem_cons.mp htodo
      · exact .inl (by rw [if_pos halive]; exact List.mem_append_right _ List.mem_cons_self)
      · exact .inr htodo

theorem Sound.send {e : Event} {c : Nat} {todo kept : List Nat} {rest : List Event} {τ : System}
    (hp : σ.tasks t = .sending e (c :: todo) kept rest) (hP : NoOvertaking σ (.act t .send) τ) :
    ((σ.deliver c e).goto t
      (.sending e todo (if σ.alive c then kept ++ [c] else kept) rest)).Sound := by
  refine ⟨holds_goto (fun u _ e' todo' kept' rest' hsend => ?_)
      (fun e' todo' kept' rest' hsend => ?_),
    covered_goto ((h.covered.coveredWith t).deliver (hp ▸ rfl) hP fun d id htell => ?_)⟩
  · rw [deliver_tasks] at hsend
    exact (h.holds u e' todo' kept' rest' hsend).deliver c e
  · cases hsend
    exact (h.holds_send hp).deliver c e
  · rw [hp] at htell
    obtain ⟨hd, htell⟩ | hrest := htell
    · obtain rfl | hd := List.mem_cons.mp hd
      · exact .inr ⟨rfl, htell⟩
      · exact .inl (.inl ⟨hd, htell⟩)
    · exact .inl (.inr hrest)

theorem Sound.unlock {e : Event} {kept : List Nat} {rest : List Event}
    (hp : σ.tasks t = .sending e [] kept rest) :
    ({ σ with subscribers := kept, holder := none }.goto t (.announce rest)).Sound ∧
      ∀ c ∈ σ.subscribers, σ.alive c → c ∈ kept := by
  have hcovered := h.covered.coveredWith t
  rw [hp] at hcovered
  obtain ⟨hholder, hsubscribed, hkeeps⟩ := h.holds t e [] kept rest hp
  refine ⟨⟨holds_goto (fun u hu e todo kept rest hsend => ?_) fun e todo kept rest hsend =>
    absurd hsend (announce_ne_sending _ e todo kept rest), covered_goto ?_⟩,
    fun c hc halive => (hkeeps c hc halive).resolve_right List.not_mem_nil⟩
  · have hother := (h.holds u e todo kept rest hsend).holder
    rw [hholder] at hother
    exact absurd (Option.some.inj hother).symm hu
  · intro d hd halive id
    obtain hview | (⟨hnil, -⟩ | hrest) | hother := hcovered d (hsubscribed d (.inl hd)) halive id
    · exact .inl hview
    · cases hnil
    · exact .inr (.inl ((Task.willTell_announce d id _ _).mpr hrest))
    · exact .inr (.inr hother)

theorem Sound.subscribe (hp : σ.tasks t = .idle) (hfree : σ.holder = none) (c : Nat) :
    ({ σ with subscribers := σ.subscribers ++ [c] }.goto t (.subscribed c)).Sound := by
  have hcovered := h.covered.coveredWith t
  rw [hp] at hcovered
  refine ⟨holds_goto (fun u _ e todo kept rest hsend => absurd hsend (h.not_sending hfree)) nofun,
    covered_goto ?_⟩
  intro d hd halive id
  obtain hd | hd := List.mem_append.mp hd
  · obtain hview | htell | hother := hcovered d hd halive id
    · exact .inl hview
    · exact htell.elim
    · exact .inr (.inr hother)
  · exact .inr (.inl (List.mem_singleton.mp hd).symm)

theorem Sound.list {c : Nat} (hp : ∀ d id face, (σ.tasks t).willTell d id face → c = d) :
    (σ.goto t (.listed c σ.store.list)).Sound := by
  refine ⟨holds_goto (fun u _ => h.holds u) nofun, covered_goto ?_⟩
  intro d hd halive id
  obtain hview | htell | hother := h.covered.coveredWith t d hd halive id
  · exact .inl hview
  · exact .inr (.inl ⟨hp d id _ htell, rfl⟩)
  · exact .inr (.inr hother)

theorem Sound.sendList {c : Nat} {list : List Notice} {τ : System}
    (hp : σ.tasks t = .listed c list) (hP : NoOvertaking σ (.act t .send) τ) :
    ((σ.deliver c (.notices list)).goto t .idle).Sound := by
  refine ⟨holds_goto (fun u _ e todo kept rest hsend => ?_) nofun,
    covered_goto ((h.covered.coveredWith t).deliver (hp ▸ rfl) hP fun d id htell => ?_)⟩
  · rw [deliver_tasks] at hsend
    exact (h.holds u e todo kept rest hsend).deliver c _
  · rw [hp] at htell
    obtain ⟨rfl, hface⟩ := htell
    exact .inr ⟨rfl, congrArg some hface⟩

end Act

theorem Sound.act {σ τ : System} {t : Nat} {a : Action} (h : σ.Sound)
    (hact : σ.act t (σ.tasks t) a = some τ) (hP : NoOvertaking σ (.act t a) τ) :
    τ.Sound ∧ ∀ c ∈ σ.subscribers, τ.alive c → c ∈ τ.subscribers := by
  generalize hp : σ.tasks t = p at hact
  unfold System.act at hact
  split at hact
  case h_1 c =>
    obtain rfl := Option.some.inj hact
    exact ⟨h.change hp c, fun c hc _ => hc⟩
  case h_2 e rest =>
    obtain ⟨hfree, hact⟩ := Option.ite_none_right_eq_some.mp hact
    obtain rfl := Option.some.inj hact
    exact ⟨h.lock hp hfree, fun c hc _ => hc⟩
  case h_3 e c todo kept rest =>
    obtain rfl := Option.some.inj hact
    exact ⟨h.send hp hP, fun d hd _ => by simpa [goto] using hd⟩
  case h_4 e kept rest =>
    obtain rfl := Option.some.inj hact
    exact h.unlock hp
  case h_5 c =>
    obtain ⟨hfree, hact⟩ := Option.ite_none_right_eq_some.mp hact
    obtain rfl := Option.some.inj hact
    exact ⟨h.subscribe hp hfree c, fun d hd _ => List.mem_append_left _ hd⟩
  case h_6 c =>
    obtain rfl := Option.some.inj hact
    exact ⟨h.list fun d id face htell => by rwa [hp] at htell, fun d hd _ => hd⟩
  case h_7 c =>
    obtain rfl := Option.some.inj hact
    exact ⟨h.list fun d id face htell => by rw [hp] at htell; exact htell.elim, fun d hd _ => hd⟩
  case h_8 c list =>
    obtain rfl := Option.some.inj hact
    exact ⟨h.sendList hp hP, fun d hd _ => by simpa [goto] using hd⟩
  case h_9 => cases hact

theorem Sound.step {σ τ : System} {l : Label} (h : σ.Sound) (hstep : σ.step l = some τ)
    (hP : NoOvertaking σ l τ) :
    τ.Sound ∧ ∀ c ∈ σ.subscribers, τ.alive c → c ∈ τ.subscribers := by
  cases l with
  | act t a => exact h.act hstep hP
  | hangUp c =>
      obtain rfl := Option.some.inj hstep
      have hbefore : ∀ d, Function.update σ.alive c false d = true → σ.alive d = true := by
        intro d hd
        by_cases hdc : d = c
        · rw [hdc, Function.update_self] at hd
          cases hd
        · rwa [Function.update_of_ne hdc] at hd
      refine ⟨⟨fun t e todo kept rest hsend => ?_, fun d hd halive => ?_⟩, fun d hd _ => hd⟩
      · obtain ⟨hholder, hsubscribed, hkeeps⟩ := h.holds t e todo kept rest hsend
        exact ⟨hholder, hsubscribed, fun d hd halive => hkeeps d hd (hbefore d halive)⟩
      · exact h.covered d hd (hbefore d halive)

theorem Sound.converged {σ : System} (h : σ.Sound) (hquiet : σ.Quiet) : σ.Converged := by
  intro c hc halive id
  obtain hview | ⟨t, ht⟩ := h.covered c hc halive id
  · exact hview
  · rw [hquiet t] at ht
    exact ht.elim

/-- In every run in which no event overtakes a newer one, no subscriber that is still
there is lost, and whenever no operation is in progress all show what the store holds. -/
theorem converged_of_noOvertaking (as : List Label) (h : Along System.step NoOvertaking {} as) :
    Along System.step (fun σ _ τ => (∀ c ∈ σ.subscribers, τ.alive c → c ∈ τ.subscribers) ∧
      (τ.Quiet → τ.Converged)) {} as :=
  h.imp Sound (fun _ _ _ hs hstep hP => (hs.step hstep hP).1)
    (fun _ _ _ hs hstep hP =>
      ⟨(hs.step hstep hP).2, fun hquiet => (hs.step hstep hP).1.converged hquiet⟩) .start

/-- A client subscribes, and a notice is posted. -/
def posting : List Label :=
  [.act 0 (.subscribe 7), .act 0 .list, .act 0 .send,
    .act 1 (.change (.post 100 { id := "updates:done", title := "Update installed" })),
    .act 1 .lock, .act 1 .send, .act 1 .unlock]

theorem converged_of_noOvertaking_posting :
    Along System.step (fun σ _ τ => (∀ c ∈ σ.subscribers, τ.alive c → c ∈ τ.subscribers) ∧
      (τ.Quiet → τ.Converged)) {} posting := by
  refine converged_of_noOvertaking posting ?_
  refine .cons rfl trivial (.cons rfl trivial (.cons rfl ?_ (.cons rfl trivial
    (.cons rfl trivial (.cons rfl ?_ (.cons rfl trivial trivial))))))
  · intro c e hnext _ id face htells
    cases hnext
    cases htells
    exact .inl rfl
  · intro c e hnext _ id face htells
    cases hnext
    by_cases hid : "updates:done" = id
    · subst hid
      cases htells
      exact .inl rfl
    · exact absurd (htells.symm.trans (if_neg hid)) nofun

/-- A client subscribes; then a notice is posted and dismissed, and the event that it
is gone is sent first. -/
def crossing : List Label :=
  [.act 0 (.subscribe 7), .act 0 .list, .act 0 .send,
    .act 1 (.change (.post 100 { id := "updates:done", title := "Update installed" })),
    .act 2 (.change (.dismiss "updates:done")),
    .act 2 .lock, .act 2 .send, .act 2 .unlock, .act 1 .lock, .act 1 .send, .act 1 .unlock]

/-- The client then shows a notice that is not in the store. -/
theorem crossing_diverges : ∃ σ, exec System.step {} crossing = some σ ∧ σ.Quiet ∧
    ¬σ.Converged := by
  refine ⟨_, rfl, ?_, ?_⟩
  · rintro (_ | _ | _ | t)
    · rfl
    · rfl
    · rfl
    · rfl
  · intro h
    exact absurd (h 7 (by decide) rfl "updates:done") (by decide)

end System
end MindOS.Notices
