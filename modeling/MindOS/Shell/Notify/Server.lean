import Mathlib.Logic.Function.Basic
import MindOS.Shell.Pixmaps.Basic
import MindOS.Shell.Scheme.Urls
import MindOS.Transition

/-!
# Notifications

## Notifications

The server on the bus takes notifications and draws their ids; the main loop takes what the server
has sent, in order, and keeps what is shown. A call is answered before the main loop hears of it.
-/

namespace MindOS.Shell

open Text Wm.Markdown

/-! ### The server -/

/-- The arguments of `Notify`, and the time of the call. -/
structure NotifyCall where
  appName : Text := []
  replacesId : UInt32 := 0
  appIcon : Text := []
  summary : Text := []
  body : Text := []
  actions : List Text := []
  hints : List (Text × BusValue) := []
  expireTimeout : Int32 := -1
  time : Nat := 0

structure Notification where
  id : UInt32
  app : Text
  desktop : Text
  icon : Text
  summary : Text
  body : Text
  /-- Keys and labels. -/
  actions : List (Text × Text)
  urgency : UInt8
  resident : Bool
  transient : Bool
  category : Text
  timeout : Int32
  time : Nat
  replaced : Bool
  quiet : Bool := false

def hintStr (hints : List (Text × BusValue)) (key : Text) : Option Text :=
  match hints.lookup key with
  | some (.str s) => some s
  | _ => none

def hintU8 (hints : List (Text × BusValue)) (key : Text) : Option UInt8 :=
  match hints.lookup key with
  | some (.u8 n) => some n
  | some (.i32 n) => some (UInt8.ofNat (max 0 (min n.toInt 2)).toNat)
  | _ => none

def hintBool (hints : List (Text × BusValue)) (key : Text) : Bool :=
  match hints.lookup key with
  | some (.bool b) => b
  | _ => false

/-- Keys with their labels; a last key without one is its own. -/
def labelled : List Text → List (Text × Text)
  | key :: label :: rest => (key, label) :: labelled rest
  | [key] => [(key, key)]
  | [] => []

/-- An icon name or a file as what the views can load. -/
def iconRef (s : Text) : Text :=
  let s := (stripPrefix s "file://").getD s
  if s.startsWith ['/'] then "mindos://shell/file/" ++ percentEncode s
  else "mindos://shell/icon/" ++ percentEncode s ++ "?size=48"

/-- What has been sent to the main loop. -/
inductive HostEvent where
  | notify (n : Notification)
  | notifyClosed (id reason : UInt32)

/-- The server and what is shown. -/
structure Center where
  nextId : UInt32 := 1
  /-- The pictures of notifications, by their ids. -/
  pixmaps : UInt32 → Option Png := fun _ => none
  events : List HostEvent := []
  dnd : Bool := false
  notifications : List Notification := []

namespace Center

/-- The id that a call is answered with. -/
def answer (s : Center) (c : NotifyCall) : UInt32 :=
  if c.replacesId > 0 then c.replacesId else s.nextId

/-- The notification that a call is for. -/
def notification (c : NotifyCall) (id : UInt32) (image : Option Png) : Notification where
  id := id
  app := c.appName
  desktop := (hintStr c.hints "desktop-entry").getD []
  icon :=
    if image.isSome then "mindos://shell/notify/" ++ Nat.toDigits 10 id.toNat
    else match ((hintStr c.hints "image-path").or (hintStr c.hints "image_path")).filter
        (!·.isEmpty) with
      | some path => iconRef path
      | none => if c.appIcon.isEmpty then [] else iconRef c.appIcon
  summary := c.summary
  body := c.body
  actions := labelled c.actions
  urgency := (hintU8 c.hints "urgency").getD 1
  resident := hintBool c.hints "resident"
  transient := hintBool c.hints "transient"
  category := (hintStr c.hints "category").getD []
  timeout := c.expireTimeout
  time := c.time
  replaced := decide (c.replacesId > 0)

/-- `notify` -/
def notify (s : Center) (c : NotifyCall) : Center :=
  let id := s.answer c
  let image := (hintImage c.hints).value
  { s with
    nextId := if c.replacesId > 0 then s.nextId else s.nextId + 1
    pixmaps := if image.isSome then Function.update s.pixmaps id image else s.pixmaps
    events := s.events ++ [.notify (notification c id image)] }

/-! ### The main loop -/

/-- `NOTIFICATION_LIMIT` -/
def limit : Nat := 60

/-- The notification list with a new one; the oldest ones beyond the limit go. -/
def push (shown : List Notification) (n : Notification) : List Notification :=
  let all := shown.filter (fun x => decide (x.id ≠ n.id)) ++ [n]
  all.drop (all.length - limit)

/-- `close_notification` -/
def closeNotification (s : Center) (id : UInt32) : Center :=
  { s with
    pixmaps := Function.update s.pixmaps id none
    notifications := s.notifications.filter fun n => decide (n.id ≠ id) }

/-- `HostEvent::Notify` and `HostEvent::NotifyClosed` -/
def handle (s : Center) : HostEvent → Center
  | .notify n =>
      let quiet := s.dnd && decide (n.urgency < 2)
      { s with notifications := push s.notifications { n with quiet } }
  | .notifyClosed id _ => s.closeNotification id

/-- What a notification of an id says about staying. -/
def isResident (s : Center) (id : UInt32) : Bool :=
  ((s.notifications.find? fun n => decide (n.id = id)).map Notification.resident).getD false

inductive Action where
  /-- `Notify` on the bus. -/
  | call (c : NotifyCall)
  /-- `CloseNotification` on the bus. -/
  | closeCall (id : UInt32)
  /-- The main loop takes the next event. -/
  | event
  /-- What the views ask for. -/
  | close (id : UInt32)
  | act (id : UInt32)
  | clear
  | setDnd (enabled : Bool)

def step (s : Center) : Action → Option Center
  | .call c => some (s.notify c)
  | .closeCall id => some { s with events := s.events ++ [.notifyClosed id 3] }
  | .event =>
      match s.events with
      | [] => none
      | event :: events => some ({ s with events }.handle event)
  | .close id => some (s.closeNotification id)
  | .act id => some (if s.isResident id then s else s.closeNotification id)
  | .clear => some ((s.notifications.map Notification.id).foldl closeNotification s)
  | .setDnd enabled => some { s with dnd := enabled }

end Center

end MindOS.Shell

/-!
## Ids of notifications

The server draws ids from a counter, and clients choose which notification they replace. The ids
keep apart in every run in which clients replace only what they were given.
-/

namespace MindOS.Shell.Center

open Transition

/-- The ids that are shown or on their way. -/
def ids (s : Center) : List UInt32 :=
  s.notifications.map Notification.id ++ s.events.filterMap fun event => match event with
    | .notify n => some n.id
    | .notifyClosed _ _ => none

/-- An id has been drawn from the counter; all have when it has wrapped. -/
def Given (s : Center) (id : UInt32) : Prop := id ≠ 0 ∧ (s.nextId = 0 ∨ id < s.nextId)

/-- A call for a new notification comes before the counter wraps, and any other replaces an id that
has been given. -/
def Known (s : Center) (a : Action) (_ : Center) : Prop :=
  match a with
  | .call c => if c.replacesId > 0 then s.Given c.replacesId else s.nextId ≠ 0
  | _ => True

/-- What ids are to be. A call is answered with an id, which is new for a new notification, and
changes no picture of another id; what arrives replaces only what has its id, beside the oldest one
where there is no room for it. -/
def Apart (s : Center) (a : Action) (t : Center) : Prop :=
  match a with
  | .call c => s.answer c ≠ 0 ∧ (c.replacesId = 0 → s.answer c ∉ s.ids) ∧
      (c.replacesId ≠ 0 → s.answer c = c.replacesId) ∧
        (∀ id, id ≠ s.answer c → t.pixmaps id = s.pixmaps id) ∧ t.notifications = s.notifications
  | .event => ∀ n events, s.events = .notify n :: events → ∀ x ∈ s.notifications, x.id ≠ n.id →
      x ∈ t.notifications ∨
        s.notifications.length = limit ∧ n.id ∉ s.notifications.map Notification.id ∧
          s.notifications.head? = some x
  | _ => True

/-- All ids have been given, and there are not more than there is room for. -/
structure Inv (s : Center) : Prop where
  given : ∀ id ∈ s.ids, s.Given id
  room : s.notifications.length ≤ limit

variable {s t : Center} {id : UInt32}

theorem not_mem_ids (h : Inv s) (hnext : s.nextId ≠ 0) : s.nextId ∉ s.ids := by
  intro hmem
  obtain ⟨-, hwrapped | hlt⟩ := h.given _ hmem
  · exact hnext hwrapped
  · exact UInt32.lt_irrefl _ hlt

theorem eq_zero_or_lt_succ {n : UInt32} (h : id ≤ n) : n + 1 = 0 ∨ id < n + 1 := by
  have hle := UInt32.le_iff_toNat_le.mp h
  have hn : n.toNat < 2 ^ 32 := n.toNat_lt
  rcases Nat.lt_or_ge (n.toNat + 1) (2 ^ 32) with hlt | hge
  · right
    rw [UInt32.lt_iff_toNat_lt, UInt32.toNat_add, UInt32.toNat_one, Nat.mod_eq_of_lt hlt]
    exact Nat.lt_succ_of_le hle
  · left
    have heq : n.toNat + 1 = 2 ^ 32 := Nat.le_antisymm hn hge
    rw [← UInt32.toNat_inj, UInt32.toNat_add, UInt32.toNat_one, heq, Nat.mod_self]
    rfl

theorem Given.drawn (h : s.Given id) (hnext : s.nextId ≠ 0) (ht : t.nextId = s.nextId + 1) :
    t.Given id := by
  obtain ⟨hne, hgiven⟩ := h
  refine ⟨hne, ?_⟩
  rw [ht]
  exact eq_zero_or_lt_succ (UInt32.le_of_lt (hgiven.resolve_left hnext))

/-! ### The list -/

theorem length_push_le (shown : List Notification) (n : Notification) :
    (push shown n).length ≤ limit := by
  simp only [push, List.length_drop]
  omega

theorem mem_push {shown : List Notification} {n x : Notification} (h : x ∈ push shown n) :
    x ∈ shown ∨ x = n := by
  have hmem := List.mem_of_mem_drop h
  rw [List.mem_append, List.mem_singleton] at hmem
  exact hmem.imp List.mem_of_mem_filter id

theorem mem_push_of_ne {shown : List Notification} {n x : Notification}
    (hroom : shown.length ≤ limit) (hx : x ∈ shown) (hne : x.id ≠ n.id) :
    x ∈ push shown n ∨ shown.length = limit ∧ n.id ∉ shown.map Notification.id ∧
      shown.head? = some x := by
  have hkept : x ∈ shown.filter fun x => decide (x.id ≠ n.id) := by
    simpa [hx] using hne
  by_cases hnew : n.id ∈ shown.map Notification.id
  · -- One goes for the one that comes.
    obtain ⟨y, hy, hid⟩ := List.mem_map.mp hnew
    have hlt : (shown.filter fun x => decide (x.id ≠ n.id)).length < shown.length :=
      List.length_filter_lt_length_iff_exists.mpr ⟨y, hy, by simp [hid]⟩
    left
    have hdrop : (shown.filter fun x => decide (x.id ≠ n.id)).length + 1 - limit = 0 := by omega
    simp only [push, List.length_append, List.length_singleton, hdrop, List.drop_zero]
    exact List.mem_append_left _ hkept
  · have hall : shown.filter (fun x => decide (x.id ≠ n.id)) = shown := by
      rw [List.filter_eq_self]
      intro y hy
      rw [decide_eq_true_eq]
      intro hid
      exact hnew (List.mem_map.mpr ⟨y, hy, hid⟩)
    rw [push, hall, List.length_append, List.length_singleton]
    rcases Nat.lt_or_ge shown.length limit with hlt | hge
    · left
      rw [Nat.sub_eq_zero_of_le hlt, List.drop_zero]
      exact List.mem_append_left _ hx
    · have heq : shown.length = limit := Nat.le_antisymm hroom hge
      cases shown with
      | nil => cases hx
      | cons y rest =>
          rcases List.mem_cons.mp hx with rfl | hrest
          · exact .inr ⟨heq, hnew, rfl⟩
          · left
            rw [heq, Nat.add_sub_cancel_left, List.cons_append, List.drop_succ_cons, List.drop_zero]
            exact List.mem_append_left _ hrest

/-! ### Steps -/

theorem notify_events (s : Center) (c : NotifyCall) :
    ∃ n, n.id = s.answer c ∧ (s.notify c).events = s.events ++ [.notify n] :=
  ⟨_, rfl, rfl⟩

theorem ids_notify (s : Center) (c : NotifyCall) : (s.notify c).ids = s.ids ++ [s.answer c] := by
  obtain ⟨n, hid, hevents⟩ := s.notify_events c
  have hshown : (s.notify c).notifications = s.notifications := rfl
  simp only [ids, hevents, hshown, List.filterMap_append, List.filterMap_cons, hid,
    List.filterMap_nil, List.append_assoc]

theorem ids_closeNotification (s : Center) (id : UInt32) :
    (s.closeNotification id).ids ⊆ s.ids := by
  intro i hi
  rcases List.mem_append.mp hi with hshown | hqueued
  · obtain ⟨n, hn, rfl⟩ := List.mem_map.mp hshown
    exact List.mem_append_left _ (List.mem_map_of_mem (List.mem_of_mem_filter hn))
  · exact List.mem_append_right _ hqueued

theorem Inv.of_subset (h : Inv s) (hnext : t.nextId = s.nextId) (hids : t.ids ⊆ s.ids)
    (hroom : t.notifications.length ≤ limit) : Inv t where
  given i hi := by
    obtain ⟨hne, hgiven⟩ := h.given i (hids hi)
    refine ⟨hne, ?_⟩
    rw [hnext]
    exact hgiven
  room := hroom

theorem Inv.closeNotification (h : Inv s) (id : UInt32) : Inv (s.closeNotification id) :=
  h.of_subset rfl (ids_closeNotification s id) (Nat.le_trans (List.length_filter_le _ _) h.room)

theorem Inv.notify {c : NotifyCall} (h : Inv s) (hknown : Known s (.call c) t) :
    Inv (s.notify c) where
  given i hi := by
    rw [ids_notify, List.mem_append, List.mem_singleton] at hi
    by_cases hreplaces : c.replacesId > 0
    · have hnext : (s.notify c).nextId = s.nextId := if_pos hreplaces
      have hgiven : s.Given i := by
        rcases hi with hi | rfl
        · exact h.given i hi
        · rw [answer, if_pos hreplaces]
          exact (if_pos hreplaces : _ = s.Given c.replacesId) ▸ hknown
      exact ⟨hgiven.1, hnext ▸ hgiven.2⟩
    · have hnext : (s.notify c).nextId = s.nextId + 1 := if_neg hreplaces
      have hzero : s.nextId ≠ 0 := (if_neg hreplaces : _ = (s.nextId ≠ 0)) ▸ hknown
      rcases hi with hi | rfl
      · exact (h.given i hi).drawn hzero hnext
      · rw [answer, if_neg hreplaces]
        exact ⟨hzero, hnext ▸ eq_zero_or_lt_succ (UInt32.le_refl _)⟩
  room := h.room

theorem Inv.handle {event : HostEvent} {events : List HostEvent} (h : Inv s)
    (hevents : s.events = event :: events) : Inv ({ s with events }.handle event) := by
  have hrest : Inv { s with events } := by
    refine h.of_subset rfl ?_ h.room
    intro i hi
    simp only [ids, List.mem_append] at hi ⊢
    rw [hevents]
    exact hi.imp_right fun hqueued =>
      ((List.sublist_cons_self event events).filterMap _).subset hqueued
  cases event with
  | notifyClosed id reason => exact hrest.closeNotification id
  | notify n =>
      refine h.of_subset rfl ?_ (length_push_le _ _)
      intro i hi
      simp only [ids, List.mem_append] at hi ⊢
      rw [hevents, List.filterMap_cons]
      rcases hi with hshown | hqueued
      · obtain ⟨x, hx, rfl⟩ := List.mem_map.mp hshown
        rcases mem_push hx with hold | rfl
        · exact .inl (List.mem_map_of_mem hold)
        · exact .inr List.mem_cons_self
      · exact .inr (List.mem_cons_of_mem _ hqueued)

theorem Inv.closeAll (ids : List UInt32) (h : Inv s) :
    Inv (ids.foldl Center.closeNotification s) := by
  induction ids generalizing s with
  | nil => exact h
  | cons id ids ih => exact ih (h.closeNotification id)

theorem Inv.step {a : Action} (h : Inv s) (hstep : Center.step s a = some t)
    (hknown : Known s a t) : Inv t := by
  cases a with
  | call c =>
      obtain rfl := Option.some.inj hstep
      exact h.notify hknown
  | closeCall id =>
      obtain rfl := Option.some.inj hstep
      refine h.of_subset rfl ?_ h.room
      simp [ids]
  | event =>
      cases hevents : s.events with
      | nil => simp [Center.step, hevents] at hstep
      | cons event events =>
          simp only [Center.step, hevents, Option.some.injEq] at hstep
          subst hstep
          exact h.handle hevents
  | close id =>
      obtain rfl := Option.some.inj hstep
      exact h.closeNotification id
  | act id =>
      obtain rfl := Option.some.inj hstep
      split
      · exact h
      · exact h.closeNotification id
  | clear =>
      obtain rfl := Option.some.inj hstep
      exact h.closeAll _
  | setDnd enabled =>
      obtain rfl := Option.some.inj hstep
      exact h.of_subset rfl (List.Subset.refl _) h.room

theorem apart_step {a : Action} (h : Inv s) (hstep : Center.step s a = some t)
    (hknown : Known s a t) : Apart s a t := by
  cases a with
  | call c =>
      obtain rfl := Option.some.inj hstep
      refine ⟨?_, ?_, ?_, ?_, rfl⟩
      · by_cases hreplaces : c.replacesId > 0
        · rw [answer, if_pos hreplaces]
          exact Ne.symm (UInt32.ne_of_lt hreplaces)
        · rw [answer, if_neg hreplaces]
          exact (if_neg hreplaces : _ = (s.nextId ≠ 0)) ▸ hknown
      · intro hzero
        have hreplaces : ¬c.replacesId > 0 := by simp [hzero]
        rw [answer, if_neg hreplaces]
        exact not_mem_ids h ((if_neg hreplaces : _ = (s.nextId ≠ 0)) ▸ hknown)
      · intro hne
        exact if_pos (UInt32.pos_iff_ne_zero.mpr hne)
      · intro id hid
        simp only [notify]
        split
        · exact Function.update_of_ne hid _ _
        · rfl
  | event =>
      intro n events hevents x hx hne
      simp only [Center.step, hevents, Option.some.injEq] at hstep
      subst hstep
      exact mem_push_of_ne h.room hx hne
  | _ => trivial

theorem inv_empty : Inv {} where
  given _ h := nomatch h
  room := Nat.zero_le _

/-- The ids of notifications keep apart in every run in which clients replace only what has been
given to them, and that ends before the counter does. -/
theorem ids_apart (actions : List Action) (h : Along step Known {} actions) :
    Along step Apart {} actions :=
  Along.imp Inv (fun _ _ _ hs hstep hknown => hs.step hstep hknown)
    (fun _ _ _ hs hstep hknown => apart_step hs hstep hknown) inv_empty h

/-- A notification is shown, replaced and followed by another. -/
theorem ids_apart_of_three :
    Along step Apart {} [.call {}, .event, .call { replacesId := 1 }, .event, .call {}] := by
  refine ids_apart _ ?_
  rintro _ ⟨⟩
  refine ⟨(by decide : (1 : UInt32) ≠ 0), ?_⟩
  rintro _ ⟨⟩
  refine ⟨trivial, ?_⟩
  rintro _ ⟨⟩
  refine ⟨⟨by decide, .inr (by decide)⟩, ?_⟩
  rintro _ ⟨⟩
  refine ⟨trivial, ?_⟩
  rintro _ ⟨⟩
  exact ⟨(by decide : (2 : UInt32) ≠ 0), trivial⟩

/-- A client names an id before the counter comes to it: the next new notification has the id of
one that is shown, and replaces it. -/
theorem ids_collide : ¬Along step Apart {} [.call { replacesId := 1 }, .event, .call {}] := by
  intro h
  obtain ⟨-, h⟩ := h _ rfl
  obtain ⟨-, h⟩ := h _ rfl
  obtain ⟨⟨-, hnew, -⟩, -⟩ := h _ rfl
  exact hnew rfl List.mem_cons_self

end MindOS.Shell.Center
