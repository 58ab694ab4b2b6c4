import MindOS.Transition
import MindOS.Wm.Desk.Partition

/-!
# Spaces and desks

The desktop keeps the compositor on the desk of the active space, and follows when the
compositor goes to another desk by itself. Both sides can start a switch, and each tells
the other: the compositor by its replies and its `desk` events, which the page may handle
in either order.

An event is stamped with how many requests the compositor had answered when it sent it.
-/

namespace MindOS.Shell.Spaces

open Text Transition Wm

structure Space where
  id : Text
  layoutMode : Option LayoutMode := none

structure Workspace where
  space : Text
  spaces : List Space
  sticky : List Text := []
  nonempty : spaces ≠ [] := by simp
  named : ∀ s ∈ spaces, s.id ≠ [] := by simp

namespace Workspace

def activeSpace (w : Workspace) : Space :=
  (w.spaces.find? fun s => decide (s.id = w.space)).getD (w.spaces.head w.nonempty)

/-- Some space has this id. -/
def has (w : Workspace) (id : Text) : Bool := w.spaces.any fun s => decide (s.id = id)

end Workspace

/-- A `set_desk` request. -/
structure Request where
  desk : Text
  sticky : Option (List Text)
  mode : Option LayoutMode
  /-- The page still waits for the reply. -/
  awaited : Bool := true

structure Event where
  desk : Text
  stamp : Nat
  deriving DecidableEq

/-- What `followSpaces` goes by. -/
structure Page where
  /-- The workspace of the page's layout. -/
  workspace : Workspace
  /-- The desk the store has. -/
  storeDesk : Text := []
  /-- The desk that was last asked for. -/
  desk : Text := []
  sticky : Option (List Text) := none
  layoutMode : Option LayoutMode := none
  inFlight : Nat := 0

namespace Page

def active (p : Page) : Space := p.workspace.activeSpace

def first (p : Page) : Bool := p.desk.isEmpty

def switched (p : Page) : Bool := !p.first && p.active.id != p.desk

/-- The sticky list, when it is to be sent. -/
def stickyParam (p : Page) : Option (List Text) :=
  if p.switched || p.sticky != some p.workspace.sticky || p.first then some p.workspace.sticky
  else none

/-- The layout mode, when it is to be sent. -/
def modeParam (p : Page) : Option LayoutMode :=
  if !p.first && (p.switched || decide (p.active.layoutMode ≠ p.layoutMode)) then
    p.active.layoutMode
  else none

/-- What `sync` sends, if anything. -/
def params (p : Page) : Option Request :=
  if p.stickyParam.isSome || p.modeParam.isSome then
    some { desk := p.active.id, sticky := p.stickyParam, mode := p.modeParam }
  else none

/-- What `sync` keeps for the next time. -/
def noted (p : Page) : Page :=
  { p with
    desk := p.active.id
    sticky := some p.workspace.sticky
    layoutMode := p.active.layoutMode }

end Page

structure System where
  page : Page
  /-- The compositor's desk, empty until the shell first sets one. -/
  current : Text
  /-- The compositor's sticky list. -/
  sticky : List Text
  requests : List Request := []
  /-- What was answered: the desk, or an error. -/
  replies : List (Option Text) := []
  events : List Event := []
  /-- The host's `layout` events: the page's own saves, and those of others. -/
  layouts : List Workspace := []
  answered : Nat := 0

inductive Step where
  /-- The user switches on this page. -/
  | switchSpace (id : Text)
  /-- Any other change of the workspace on this page. -/
  | edit (mutate : Workspace → Workspace)
  /-- The host has a layout from elsewhere. -/
  | saved (w : Workspace)
  /-- The compositor goes to the desk of a window. -/
  | shows (desk : Text)
  /-- The compositor takes the next request. -/
  | take
  /-- The page handles one of the replies. -/
  | reply (k : Nat)
  /-- The page handles the next `desk` event. -/
  | event
  /-- The page handles the next `layout` event. -/
  | layout
  /-- A request does not get to the compositor. -/
  | failSend (k : Nat)
  /-- A request has waited for too long, as sent or with its reply on the way. -/
  | failRequest (k : Nat)
  | failReply (k : Nat)

/-- Neither the user, another page, a window nor the clock is behind the step. -/
def Step.isAnswer : Step → Bool
  | .switchSpace _ | .edit _ | .saved _ | .shows _ | .failRequest _ | .failReply _ => false
  | .take | .reply _ | .event | .layout | .failSend _ => true

namespace System

def setDesk (s : System) (r : Request) : System :=
  { s with
    page := { s.page with inFlight := s.page.inFlight + 1 }
    requests := s.requests ++ [r] }

def send (s : System) : Option Request → System
  | some r => s.setDesk r
  | none => s

def note (s : System) : System := { s with page := s.page.noted }

/-- Keep the machine on the active space. -/
def sync (s : System) : System := (s.send s.page.params).note

def updateWorkspace (s : System) (mutate : Workspace → Workspace) : System :=
  sync { s with
    page := { s.page with workspace := mutate s.page.workspace }
    layouts := s.layouts ++ [mutate s.page.workspace] }

def switchSpace (s : System) (id : Text) : System :=
  if id = s.page.workspace.space ∨ s.page.workspace.has id = false then s
  else s.updateWorkspace fun w => { w with space := id }

/-- The compositor moved to another space by itself. A desk no space has: back to ours. -/
def followDesk (s : System) : System :=
  if s.page.inFlight ≠ 0 ∨ s.page.storeDesk = [] ∨ s.page.storeDesk = s.page.active.id then s
  else if s.page.workspace.has s.page.storeDesk then
    s.updateWorkspace fun w => { w with space := s.page.storeDesk }
  else s.setDesk { desk := s.page.active.id, sticky := some s.page.workspace.sticky, mode := none }

def changed (s : System) (desk : Text) (sticky : Option (List Text)) : Bool :=
  s.current != desk || sticky.any fun l => cleanSticky l != s.sticky

/-- The compositor's `set_desk`. An event tells of a change. -/
def goTo (s : System) (desk : Text) (sticky : Option (List Text)) : System :=
  { s with
    current := desk
    sticky := (sticky.map cleanSticky).getD s.sticky
    events := s.events ++ if s.changed desk sticky then [⟨desk, s.answered⟩] else [] }

/-- A reply that nobody waits for is dropped. -/
def answer (s : System) (r : Request) (reply : Option Text) : System :=
  { s with
    replies := s.replies ++ if r.awaited then [reply] else []
    answered := s.answered + 1 }

/-- The compositor answers a request. -/
def handle (s : System) (r : Request) : System :=
  if trim r.desk = [] then s.answer r none
  else (s.goTo (trim r.desk) r.sticky).answer r (some (trim r.desk))

def take (s : System) : Option System :=
  match s.requests with
  | r :: rest => some ({ s with requests := rest }.handle r)
  | [] => none

/-- The last reply says where the compositor ended up. -/
def settled (p : Page) (reply : Option Text) : Page :=
  { p with
    storeDesk := if p.inFlight = 1 then (reply.filter (· ≠ [])).getD p.storeDesk else p.storeDesk
    inFlight := p.inFlight - 1 }

def reply (s : System) (k : Nat) : Option System :=
  s.replies[k]?.map fun r =>
    { s with page := settled s.page r, replies := s.replies.eraseIdx k }

def event (s : System) : Option System :=
  match s.events with
  | e :: rest =>
      some (followDesk { s with page := { s.page with storeDesk := e.desk }, events := rest })
  | [] => none

def layout (s : System) : Option System :=
  match s.layouts with
  | w :: rest => some (sync { s with page := { s.page with workspace := w }, layouts := rest })
  | [] => none

/-- A window is put away only for a desk that has a name and is not shown. -/
def shows (s : System) (desk : Text) : Option System :=
  if desk ≠ [] ∧ desk ≠ s.current then some (s.goTo desk none) else none

/-- The request at this place, which the page waits for. -/
def awaited (s : System) (k : Nat) : Option Request := s.requests[k]?.filter Request.awaited

/-- What fails the page only logs. -/
def failSend (s : System) (k : Nat) : Option System :=
  (s.awaited k).map fun _ =>
    { s with requests := s.requests.eraseIdx k, replies := s.replies ++ [none] }

/-- The compositor takes the request later all the same. -/
def failRequest (s : System) (k : Nat) : Option System :=
  (s.awaited k).map fun r =>
    { s with
      requests := s.requests.set k { r with awaited := false }
      replies := s.replies ++ [none] }

def failReply (s : System) (k : Nat) : Option System :=
  s.replies[k]?.map fun _ => { s with replies := s.replies.set k none }

def step (s : System) : Step → Option System
  | .switchSpace id => some (s.switchSpace id)
  | .edit mutate => some (s.updateWorkspace mutate)
  | .saved w => some { s with layouts := s.layouts ++ [w] }
  | .shows desk => s.shows desk
  | .take => s.take
  | .reply k => s.reply k
  | .event => s.event
  | .layout => s.layout
  | .failSend k => s.failSend k
  | .failRequest k => s.failRequest k
  | .failReply k => s.failReply k

/-- The desktop comes up, and the event that told the desk when the shell connected is to
be handled yet, or has been. -/
def start (w : Workspace) (current : Text) (sticky : List Text) (told : Bool) : System :=
  sync
    { page := { workspace := w, storeDesk := if told then current else [] }
      current := current
      sticky := sticky
      events := if told then [] else [⟨current, 0⟩] }

/-! ## What is to hold -/

/-- With no request and no event pending, the active space is the current desk. -/
def Agree (s : System) : Prop :=
  s.requests = [] → s.replies = [] → s.events = [] → s.layouts = [] →
    s.page.active.id = s.current

/-- The page and the compositor do not keep answering each other for ever, if all their
answers are as `P` says. -/
def Settles (P : System → Step → Prop) (s : System) : Prop :=
  ∃ bound, ∀ answers t, exec step s answers = some t →
    Along step (fun s e _ => e.isAnswer = true ∧ P s e) s answers → answers.length ≤ bound

/-- The ids of the spaces are such as the compositor leaves alone. -/
def Plain (w : Workspace) : Prop := ∀ s ∈ w.spaces, trim s.id = s.id

/-- Without the request at this place the page comes to what it asked for last: the last of
the others asks for it, or there is no other and the compositor is there, or an event says
where it is. -/
def Spare (s : System) (k : Nat) : Prop :=
  match (s.requests.eraseIdx k).getLast? with
  | some r => r.desk = s.page.desk
  | none => s.current = s.page.desk ∨ s.current ≠ [] ∧ s.events ≠ []

/-- The ids that come in are plain. The last event is not ignored, with nothing to come
from the compositor, unless it tells of the active space; the last reply overtakes no event of
another; and no request gets lost that is needed. -/
def InOrder (s : System) : Step → Prop
  | .edit mutate => Plain (mutate s.page.workspace)
  | .saved w => Plain w
  | .event =>
      ∀ e, s.events = [e] → s.requests = [] → s.page.inFlight ≠ 0 → e.desk = s.page.active.id
  | .reply _ =>
      s.page.inFlight = 1 → ∀ e ∈ s.events, e.stamp < s.answered →
        e.desk = [] ∨ e.desk = s.page.active.id
  | .failSend k => s.Spare k
  | _ => True

/-! ## The active space -/

theorem activeSpace_mem (w : Workspace) : w.activeSpace ∈ w.spaces := by
  unfold Workspace.activeSpace
  cases hfind : w.spaces.find? fun s => decide (s.id = w.space) with
  | none => exact List.head_mem w.nonempty
  | some s => exact List.mem_of_find?_eq_some hfind

theorem active_ne_nil (p : Page) : p.active.id ≠ [] :=
  p.workspace.named _ (activeSpace_mem p.workspace)

theorem Plain.trim_active {p : Page} (h : Plain p.workspace) : trim p.active.id = p.active.id :=
  h _ (activeSpace_mem p.workspace)

theorem activeSpace_of_has {w : Workspace} {id : Text} (h : w.has id = true) :
    ({ w with space := id } : Workspace).activeSpace.id = id := by
  unfold Workspace.activeSpace
  cases hfind : w.spaces.find? fun s => decide (s.id = id) with
  | none =>
      obtain ⟨s, hs, hid⟩ := List.any_eq_true.mp h
      exact absurd hid (List.find?_eq_none.mp hfind s hs)
  | some s =>
      have hid := List.find?_some hfind
      exact of_decide_eq_true hid

theorem params_cases (p : Page) :
    (∃ r, p.params = some r ∧ r.desk = p.active.id ∧ r.awaited = true) ∨
      p.params = none ∧ p.desk = p.active.id := by
  unfold Page.params
  by_cases hsend : (p.stickyParam.isSome || p.modeParam.isSome) = true
  · exact .inl ⟨_, if_pos hsend, rfl, rfl⟩
  · refine .inr ⟨if_neg hsend, ?_⟩
    have hsticky : p.stickyParam = none := by
      simpa using (Bool.or_eq_false_iff.mp (Bool.eq_false_iff.mpr hsend)).1
    have hquiet : ¬ (p.switched || p.sticky != some p.workspace.sticky || p.first) = true := by
      intro hnews
      rw [Page.stickyParam, if_pos hnews] at hsticky
      cases hsticky
    have hswitched : ¬ p.switched = true := fun h => hquiet (by simp [h])
    have hfirst : ¬ p.first = true := fun h => hquiet (by simp [h])
    by_contra hne
    exact hswitched (by simp [Page.switched, hfirst, Ne.symm hne])

theorem sync_cases (s : System) :
    (∃ r, (r.desk = s.page.active.id ∧ r.awaited = true) ∧ s.sync = (s.setDesk r).note) ∨
      s.page.desk = s.page.active.id ∧ s.sync = s.note := by
  unfold sync
  obtain ⟨r, hparams, hr⟩ | ⟨hparams, hdesk⟩ := params_cases s.page
  · exact .inl ⟨r, hr, by rw [hparams]; rfl⟩
  · exact .inr ⟨hdesk, by rw [hparams]; rfl⟩

theorem followDesk_cases (s : System) :
    (s.page.inFlight ≠ 0 ∨ s.page.storeDesk = [] ∨ s.page.storeDesk = s.page.active.id) ∧
        s.followDesk = s ∨
      (s.page.inFlight = 0 ∧ s.page.storeDesk ≠ [] ∧ s.page.storeDesk ≠ s.page.active.id) ∧
        (s.page.workspace.has s.page.storeDesk = true ∧
            s.followDesk = s.updateWorkspace (fun w => { w with space := s.page.storeDesk }) ∨
          s.followDesk = s.setDesk
            { desk := s.page.active.id, sticky := some s.page.workspace.sticky,
              mode := none }) := by
  unfold followDesk
  split
  next h => exact .inl ⟨h, rfl⟩
  next h =>
    simp only [not_or, not_not] at h
    refine .inr ⟨h, ?_⟩
    split
    next hhas => exact .inl ⟨hhas, rfl⟩
    next => exact .inr rfl

/-! ## The invariant -/

section Invariant

variable {s t : System}

/-- What holds whichever space is active. -/
structure Core (s : System) : Prop where
  plain : Plain s.page.workspace
  layouts : ∀ w ∈ s.layouts, Plain w
  inFlight : s.page.inFlight = s.requests.countP Request.awaited + s.replies.length
  requests : ∀ r ∈ s.requests, r.desk ≠ [] ∧ trim r.desk = r.desk
  last : ∀ r ∈ s.requests.getLast?, r.desk = s.page.desk
  current : s.requests = [] → s.page.desk ≠ [] → s.current ≠ []
  events : ∀ e ∈ s.events.getLast?, e.desk = s.current
  stamps : ∀ e ∈ s.events, e.stamp ≤ s.answered

/-- The compositor is on the desk that was last asked for, or an event says where it is. -/
def Follows (s : System) : Prop :=
  s.requests = [] → s.events = [] → s.page.desk = s.current

structure Inv (s : System) : Prop extends Core s where
  desk : s.page.desk = s.page.active.id
  follows : Follows s

theorem Inv.agree (h : Inv s) : s.Agree := fun hrequests _ hevents _ =>
  h.desk.symm.trans (h.follows hrequests hevents)

theorem Core.send (h : Core s) {r : Request} {p : Page} (hawaited : r.awaited = true)
    (hne : r.desk ≠ []) (htrim : trim r.desk = r.desk) (hworkspace : Plain p.workspace)
    (hdesk : r.desk = p.desk) (hinFlight : p.inFlight = s.page.inFlight + 1) :
    Core { s with page := p, requests := s.requests ++ [r] } where
  plain := hworkspace
  layouts := h.layouts
  inFlight := by
    have hlength := h.inFlight
    simp only [hinFlight, List.countP_append, List.countP_singleton, hawaited, if_true]
    omega
  requests q hq := by
    obtain hq | hq := List.mem_append.mp hq
    · exact h.requests q hq
    · rw [List.mem_singleton.mp hq]
      exact ⟨hne, htrim⟩
  last q hq := by
    rw [List.getLast?_concat] at hq
    rw [← Option.some.inj hq]
    exact hdesk
  current hnil := absurd hnil (List.append_ne_nil_of_right_ne_nil _ (List.cons_ne_nil _ _))
  events := h.events
  stamps := h.stamps

theorem Core.sync (h : Core s) (hfollows : s.page.desk = s.page.active.id → Follows s) :
    Inv s.sync := by
  obtain ⟨r, ⟨hr, hawaited⟩, heq⟩ | ⟨hdesk, heq⟩ := sync_cases s
  · rw [heq]
    have hne : r.desk ≠ [] := hr ▸ active_ne_nil s.page
    have htrim : trim r.desk = r.desk := hr ▸ h.plain.trim_active
    refine ⟨h.send hawaited hne htrim h.plain hr rfl, rfl, fun hnil => ?_⟩
    exact absurd hnil (List.append_ne_nil_of_right_ne_nil _ (List.cons_ne_nil _ _))
  · rw [heq]
    have hlast : ∀ r ∈ s.requests.getLast?, r.desk = s.page.active.id := fun r hr =>
      (h.last r hr).trans hdesk
    have hcurrent : s.requests = [] → s.page.active.id ≠ [] → s.current ≠ [] := fun hnil hne =>
      h.current hnil (hdesk ▸ hne)
    refine ⟨⟨h.plain, h.layouts, h.inFlight, h.requests, hlast, hcurrent, h.events, h.stamps⟩,
      rfl, fun hrequests hevents => ?_⟩
    exact hdesk.symm.trans (hfollows hdesk hrequests hevents)

theorem Core.workspace (h : Core s) {w : Workspace} {layouts : List Workspace} (hw : Plain w)
    (hlayouts : ∀ v ∈ layouts, Plain v) :
    Core { s with page := { s.page with workspace := w }, layouts := layouts } :=
  ⟨hw, hlayouts, h.inFlight, h.requests, h.last, h.current, h.events, h.stamps⟩

theorem Core.updateWorkspace (h : Core s) {mutate : Workspace → Workspace}
    (hw : Plain (mutate s.page.workspace))
    (hfollows : s.page.desk = (mutate s.page.workspace).activeSpace.id → Follows s) :
    Inv (s.updateWorkspace mutate) := by
  refine (h.workspace hw fun v hv => ?_).sync hfollows
  obtain hv | hv := List.mem_append.mp hv
  · exact h.layouts v hv
  · rw [List.mem_singleton.mp hv]
    exact hw

theorem Inv.switchSpace (h : Inv s) (id : Text) : Inv (s.switchSpace id) := by
  unfold System.switchSpace
  split
  · exact h
  · exact h.toCore.updateWorkspace h.plain fun _ => h.follows

theorem Inv.saved (h : Inv s) {w : Workspace} (hw : Plain w) :
    Inv { s with layouts := s.layouts ++ [w] } := by
  refine ⟨⟨h.plain, fun v hv => ?_, h.inFlight, h.requests, h.last, h.current, h.events,
    h.stamps⟩, h.desk, h.follows⟩
  obtain hv | hv := List.mem_append.mp hv
  · exact h.layouts v hv
  · rw [List.mem_singleton.mp hv]
    exact hw

/-- Where the compositor goes the last event says, and no event is from later. -/
theorem Core.goTo (h : Core s) {desk : Text} (sticky : Option (List Text)) (hne : desk ≠ []) :
    Core (s.goTo desk sticky) := by
  refine ⟨h.plain, h.layouts, h.inFlight, h.requests, h.last, fun _ _ => hne, fun e he => ?_,
    fun e he => ?_⟩
  · by_cases hchanged : s.changed desk sticky = true
    · simp only [System.goTo, if_pos hchanged, List.getLast?_concat, Option.mem_some_iff] at he
      rw [← he]
      rfl
    · simp only [System.goTo, if_neg hchanged, List.append_nil] at he
      have hsame : s.current = desk := by
        by_contra hother
        exact hchanged (by simp [System.changed, hother])
      exact (h.events e he).trans hsame
  · obtain he | he := List.mem_append.mp he
    · exact h.stamps e he
    · split at he
      · rw [List.mem_singleton.mp he]
        exact Nat.le_refl s.answered
      · cases he

theorem Inv.shows (h : Inv s) {desk : Text} (ht : s.shows desk = some t) : Inv t := by
  obtain ⟨⟨hne, hother⟩, ht⟩ := Option.ite_none_right_eq_some.mp ht
  obtain rfl := Option.some.inj ht
  refine ⟨h.toCore.goTo none hne, h.desk, fun _ hevents => ?_⟩
  have hchanged : s.changed desk none = true := by simp [System.changed, Ne.symm hother]
  simp [System.goTo, hchanged] at hevents

theorem Core.answer (h : Core s) {r : Request} {rest : List Request} (hs : s.requests = r :: rest)
    (reply : Option Text) (hcurrent : rest = [] → s.current ≠ []) :
    Core ({ s with requests := rest }.answer r reply) where
  plain := h.plain
  layouts := h.layouts
  inFlight := by
    have hlength := h.inFlight
    simp only [hs, List.countP_cons] at hlength
    simp only [System.answer, List.length_append]
    split at hlength
    next hawaited =>
      rw [if_pos hawaited, List.length_singleton]
      omega
    next hawaited =>
      rw [if_neg hawaited, List.length_nil]
      omega
  requests q hq := h.requests q (hs ▸ List.mem_cons_of_mem r hq)
  last q hq := by
    replace hq : rest.getLast? = some q := hq
    refine h.last q ?_
    rw [hs, List.getLast?_cons, hq]
    rfl
  current hnil _ := hcurrent hnil
  events := h.events
  stamps e he := (h.stamps e he).trans (Nat.le_succ _)

theorem Core.take_eq (h : Core s) (ht : s.take = some t) :
    ∃ r rest, s.requests = r :: rest ∧ r.desk ≠ [] ∧
      t = ({ s with requests := rest }.goTo r.desk r.sticky).answer r (some r.desk) := by
  unfold System.take at ht
  split at ht
  case h_1 r rest hs =>
    obtain ⟨hne, htrim⟩ := h.requests r (hs ▸ List.mem_cons_self)
    refine ⟨r, rest, hs, hne, ?_⟩
    rw [System.handle, htrim, if_neg hne] at ht
    exact (Option.some.inj ht).symm
  case h_2 => cases ht

theorem Inv.take (h : Inv s) (ht : s.take = some t) : Inv t := by
  obtain ⟨r, rest, hs, hne, rfl⟩ := h.take_eq ht
  have hcore := (h.toCore.goTo r.sticky hne).answer hs (some r.desk) fun _ => hne
  refine ⟨hcore, h.desk, fun hnil _ => ?_⟩
  replace hnil : rest = [] := hnil
  have hlast := h.last r (by rw [hs, hnil]; rfl)
  exact hlast.symm

theorem Inv.reply (h : Inv s) {k : Nat} (ht : s.reply k = some t) : Inv t := by
  obtain ⟨r, hr, rfl⟩ := Option.map_eq_some_iff.mp ht
  obtain ⟨hk, -⟩ := List.getElem?_eq_some_iff.mp hr
  refine ⟨⟨h.plain, h.layouts, ?_, h.requests, h.last, h.current, h.events, h.stamps⟩, h.desk,
    h.follows⟩
  have hlength := h.inFlight
  simp only [System.settled, List.length_eraseIdx_of_lt hk]
  omega

theorem Inv.layout (h : Inv s) (ht : s.layout = some t) : Inv t := by
  unfold System.layout at ht
  split at ht
  case h_1 w rest hs =>
    obtain rfl := Option.some.inj ht
    have hw : ∀ v ∈ w :: rest, Plain v := fun v hv => h.layouts v (hs ▸ hv)
    exact (h.toCore.workspace (hw w List.mem_cons_self) fun v hv =>
      hw v (List.mem_cons_of_mem w hv)).sync fun _ => h.follows
  case h_2 => cases ht

theorem Core.ignored (h : Core s) {e : Event} {rest : List Event} (hs : s.events = e :: rest) :
    Core { s with page := { s.page with storeDesk := e.desk }, events := rest } := by
  refine ⟨h.plain, h.layouts, h.inFlight, h.requests, h.last, h.current, fun v hv => ?_,
    fun v hv => h.stamps v (hs ▸ List.mem_cons_of_mem e hv)⟩
  replace hv : rest.getLast? = some v := hv
  refine h.events v ?_
  rw [hs, List.getLast?_cons, hv]
  rfl

theorem Inv.event (h : Inv s) (ht : s.event = some t) (hstep : InOrder s .event) : Inv t := by
  unfold System.event at ht
  split at ht
  case h_1 e rest hs =>
    obtain rfl := Option.some.inj ht
    have hcore := h.toCore.ignored hs
    let s₁ : System := { s with page := { s.page with storeDesk := e.desk }, events := rest }
    obtain ⟨hwhy, heq⟩ | ⟨⟨-, -, hother⟩, ⟨hhas, heq⟩ | heq⟩ := followDesk_cases s₁
    · rw [show s₁.followDesk = s₁ from heq]
      refine ⟨hcore, h.desk, fun hrequests hevents => ?_⟩
      replace hevents : s.events = [e] := hs.trans (congrArg (e :: ·) hevents)
      have hcurrent : e.desk = s.current := h.events e (by rw [hevents]; rfl)
      have hne : s.current ≠ [] := h.current hrequests (h.desk ▸ active_ne_nil s.page)
      show s.page.desk = s.current
      rw [h.desk, ← hcurrent]
      obtain hflight | hnil | hactive := hwhy
      · exact (hstep e hevents hrequests hflight).symm
      · exact absurd (hcurrent.symm.trans hnil) hne
      · exact hactive.symm
    · rw [show s₁.followDesk = _ from heq]
      refine hcore.updateWorkspace h.plain fun hdesk => ?_
      have hactive := activeSpace_of_has hhas
      exact absurd (hactive.symm.trans (hdesk.symm.trans h.desk)) hother
    · rw [show s₁.followDesk = _ from heq]
      refine ⟨hcore.send rfl (active_ne_nil s.page) h.plain.trim_active h.plain h.desk.symm rfl,
        h.desk, fun hnil => ?_⟩
      exact absurd hnil (List.append_ne_nil_of_right_ne_nil _ (List.cons_ne_nil _ _))
  case h_2 => cases ht

theorem awaited_eq {k : Nat} {r : Request} (h : s.awaited k = some r) :
    ∃ hk : k < s.requests.length, s.requests[k] = r ∧ r.awaited = true := by
  obtain ⟨hget, hawaited⟩ := Option.filter_eq_some_iff.mp h
  obtain ⟨hk, hget⟩ := List.getElem?_eq_some_iff.mp hget
  exact ⟨hk, hget, hawaited⟩

theorem perm_awaited {k : Nat} {r : Request} (h : s.awaited k = some r) :
    (r :: s.requests.eraseIdx k).Perm s.requests := by
  obtain ⟨hk, rfl, -⟩ := awaited_eq h
  rw [List.eraseIdx_eq_take_drop_succ]
  conv_rhs => rw [← List.take_append_drop k s.requests, List.drop_eq_getElem_cons hk]
  exact List.perm_middle.symm

theorem Inv.failSend {k : Nat} (h : Inv s) (ht : s.failSend k = some t) (hspare : s.Spare k) :
    Inv t := by
  obtain ⟨r, hr, rfl⟩ := Option.map_eq_some_iff.mp ht
  have hlast : ∀ q, (s.requests.eraseIdx k).getLast? = some q → q.desk = s.page.desk := by
    intro q hq
    rw [Spare, hq] at hspare
    exact hspare
  have hnone : s.requests.eraseIdx k = [] →
      s.current = s.page.desk ∨ s.current ≠ [] ∧ s.events ≠ [] := by
    intro hnil
    rw [Spare, hnil] at hspare
    exact hspare
  refine ⟨⟨h.plain, h.layouts, ?_, fun q hq => h.requests q (List.mem_of_mem_eraseIdx hq), hlast,
    fun hnil hne => (hnone hnil).elim (fun heq => heq ▸ hne) And.left, h.events, h.stamps⟩,
    h.desk, fun hnil hevents => ?_⟩
  · have hlength := h.inFlight
    rw [← (perm_awaited hr).countP_eq, List.countP_cons_of_pos (awaited_eq hr).2.2] at hlength
    simp only [List.length_append, List.length_singleton]
    omega
  · exact ((hnone hnil).resolve_right fun hsays => hsays.2 hevents).symm

theorem Inv.failRequest {k : Nat} (h : Inv s) (ht : s.failRequest k = some t) : Inv t := by
  obtain ⟨r, hr, rfl⟩ := Option.map_eq_some_iff.mp ht
  obtain ⟨hk, hget, hawaited⟩ := awaited_eq hr
  have hdesks : (s.requests.set k { r with awaited := false }).map Request.desk =
      s.requests.map Request.desk := by
    rw [List.map_set, ← hget, ← List.getElem_map Request.desk (h := by simpa using hk)]
    exact List.set_getElem_self _
  refine ⟨⟨h.plain, h.layouts, ?_, fun q hq => ?_, fun q hq => ?_, fun hnil => ?_, h.events,
    h.stamps⟩, h.desk, fun hnil => ?_⟩
  · have hlength := h.inFlight
    have hpos : 0 < s.requests.countP Request.awaited :=
      List.countP_pos_iff.mpr ⟨r, hget ▸ List.getElem_mem hk, hawaited⟩
    simp only [List.countP_set hk, hget, hawaited, List.length_append, List.length_singleton]
    simp only [if_true, Bool.false_eq_true, if_false]
    omega
  · obtain hq | rfl := List.mem_or_eq_of_mem_set hq
    · exact h.requests q hq
    · exact h.requests r (hget ▸ List.getElem_mem hk)
  · have hmap := congrArg List.getLast? hdesks
    rw [List.getLast?_map, List.getLast?_map, Option.mem_def.mp hq] at hmap
    obtain ⟨v, hv, hdesk⟩ := Option.map_eq_some_iff.mp hmap.symm
    exact hdesk.symm.trans (h.last v hv)
  · exact absurd ((List.set_eq_nil_iff k _).mp hnil)
      (List.ne_nil_of_length_pos (Nat.zero_lt_of_lt hk))
  · exact absurd ((List.set_eq_nil_iff k _).mp hnil)
      (List.ne_nil_of_length_pos (Nat.zero_lt_of_lt hk))

theorem Inv.failReply {k : Nat} (h : Inv s) (ht : s.failReply k = some t) : Inv t := by
  obtain ⟨r, -, rfl⟩ := Option.map_eq_some_iff.mp ht
  refine ⟨⟨h.plain, h.layouts, ?_, h.requests, h.last, h.current, h.events, h.stamps⟩, h.desk,
    h.follows⟩
  simp only [List.length_set]
  exact h.inFlight

theorem Inv.step {e : Step} (h : Inv s) (ht : s.step e = some t) (hstep : InOrder s e) :
    Inv t := by
  cases e with
  | switchSpace id => exact Option.some.inj ht ▸ h.switchSpace id
  | edit mutate => exact Option.some.inj ht ▸ h.toCore.updateWorkspace hstep fun _ => h.follows
  | saved w => exact Option.some.inj ht ▸ h.saved hstep
  | shows desk => exact h.shows ht
  | take => exact h.take ht
  | reply k => exact h.reply ht
  | event => exact h.event ht hstep
  | layout => exact h.layout ht
  | failSend k => exact h.failSend ht hstep
  | failRequest k => exact h.failRequest ht
  | failReply k => exact h.failReply ht

theorem Inv.start {w : Workspace} (hw : Plain w) (current : Text) (sticky : List Text)
    (told : Bool) : Inv (start w current sticky told) := by
  refine Core.sync ⟨hw, fun _ hv => (nomatch hv), rfl, fun _ hr => (nomatch hr),
    fun _ hr => (nomatch hr), fun _ hne => absurd rfl hne, fun e he => ?_, fun e he => ?_⟩
    fun hdesk => absurd hdesk.symm (active_ne_nil _)
  · cases told with
    | false =>
        rw [← Option.some.inj he]
        rfl
    | true => cases he
  · cases told with
    | false => rw [List.mem_singleton.mp he]
    | true => cases he

/-! ## The measure -/

/-- The event may still be followed. -/
def mayFollow (s : System) (e : Event) : Bool :=
  decide (e.stamp = s.answered ∨
    s.page.inFlight = 0 ∧ e.desk ≠ [] ∧ e.desk ≠ s.page.active.id)

/-- A request costs its event and its reply. With no reply the event may be followed. -/
def cost (r : Request) : Nat := if r.awaited then 3 else 9

/-- To follow an event costs a request and a layout. -/
def measure (s : System) : Nat :=
  7 * s.events.countP s.mayFollow + 4 * s.layouts.length + (s.requests.map cost).sum +
    s.events.length + s.replies.length

theorem mayFollow_of_sent {e : Event} (hanswered : t.answered = s.answered)
    (hflight : t.page.inFlight ≠ 0) (h : t.mayFollow e = true) : s.mayFollow e = true := by
  refine decide_eq_true (.inl ?_)
  obtain hlate | hquiet := of_decide_eq_true h
  · exact hlate.trans hanswered
  · exact absurd hquiet.1 hflight

theorem sum_cost_concat {r : Request} (hr : r.awaited = true) (rs : List Request) :
    ((rs ++ [r]).map cost).sum = (rs.map cost).sum + 3 := by
  rw [List.map_append, List.sum_append, List.map_singleton, List.sum_singleton, cost, if_pos hr]

/-- What is told of a request that is taken may be followed if no reply is on its way. -/
theorem countP_taken (h : Core s) {r : Request} {rest : List Request}
    (hs : s.requests = r :: rest) (hne : r.desk ≠ []) :
    let t := ({ s with requests := rest }.goTo r.desk r.sticky).answer r (some r.desk)
    7 * t.events.countP t.mayFollow + t.events.length + t.replies.length <
      7 * s.events.countP s.mayFollow + cost r + s.events.length + s.replies.length := by
  intro t
  have hnews : t.events = s.events ∨ t.events = s.events ++ [⟨r.desk, s.answered⟩] := by
    by_cases hchanged : ({ s with requests := rest } : System).changed r.desk r.sticky = true
    · exact .inr (congrArg (s.events ++ ·) (if_pos hchanged))
    · exact .inl ((congrArg (s.events ++ ·) (if_neg hchanged)).trans (List.append_nil _))
  have hlate : ∀ e ∈ t.events, e.stamp ≠ t.answered := by
    intro e he
    exact Nat.ne_of_lt (Nat.lt_succ_of_le ((h.goTo r.sticky hne).stamps e he))
  cases hawaited : r.awaited with
  | true =>
      -- its reply is on its way
      have hflight : s.page.inFlight ≠ 0 := by
        have hlength := h.inFlight
        rw [hs, List.countP_cons_of_pos hawaited] at hlength
        omega
      have hzero : t.events.countP t.mayFollow = 0 :=
        List.countP_eq_zero.mpr fun e he hfollow =>
          (of_decide_eq_true hfollow).elim (hlate e he) fun hquiet => hflight hquiet.1
      have hreplies : t.replies.length = s.replies.length + 1 := by
        simp [t, answer, hawaited, System.goTo]
      rw [hzero, hreplies, cost, if_pos hawaited]
      obtain hnews | hnews := hnews <;> rw [hnews]
      · omega
      · rw [List.length_append, List.length_singleton]
        omega
  | false =>
      have hcount : s.events.countP t.mayFollow ≤ s.events.countP s.mayFollow :=
        List.countP_mono_left fun e he hfollow =>
          decide_eq_true ((of_decide_eq_true hfollow).imp_left fun hlast =>
            absurd hlast (Nat.ne_of_lt (Nat.lt_succ_of_le (h.stamps e he))))
      have hreplies : t.replies.length = s.replies.length := by
        simp [t, answer, hawaited, System.goTo]
      rw [hreplies, cost, hawaited]
      obtain hnews | hnews := hnews <;> rw [hnews]
      · simp only [Bool.false_eq_true, if_false]
        omega
      · have hone := List.countP_le_length (p := t.mayFollow) (l := [⟨r.desk, s.answered⟩])
        simp only [List.countP_append, List.length_append, List.length_singleton,
          Bool.false_eq_true, if_false] at hone ⊢
        omega

theorem measure_take (h : Inv s) (ht : s.take = some t) : t.measure < s.measure := by
  obtain ⟨r, rest, hs, hne, rfl⟩ := h.take_eq ht
  have hcount := countP_taken h.toCore hs hne
  unfold measure
  rw [hs, List.map_cons, List.sum_cons]
  dsimp only [System.goTo, System.answer] at hcount ⊢
  omega

theorem measure_reply (h : Inv s) {k : Nat} (ht : s.reply k = some t)
    (hstep : InOrder s (.reply k)) : t.measure < s.measure := by
  obtain ⟨r, hr, rfl⟩ := Option.map_eq_some_iff.mp ht
  obtain ⟨hk, -⟩ := List.getElem?_eq_some_iff.mp hr
  have hcount : s.events.countP
      (mayFollow { s with page := settled s.page r, replies := s.replies.eraseIdx k }) ≤
        s.events.countP s.mayFollow := by
    refine List.countP_mono_left fun e he hfollow => ?_
    obtain hlate | ⟨hflight, hne, hother⟩ := of_decide_eq_true hfollow
    · exact decide_eq_true (.inl hlate)
    -- no event from before the last reply is one to follow
    have hlength := h.inFlight
    replace hflight : s.page.inFlight - 1 = 0 := hflight
    have hone : s.page.inFlight = 1 := by omega
    refine decide_eq_true (.inl ?_)
    by_contra hearly
    have hstamp := lt_of_le_of_ne (h.stamps e he) hearly
    exact (hstep hone e he hstamp).elim hne hother
  unfold measure
  simp only [List.length_eraseIdx_of_lt hk]
  omega

theorem measure_layout (h : Inv s) (ht : s.layout = some t) : t.measure < s.measure := by
  unfold System.layout at ht
  split at ht
  case h_1 w rest hs =>
    obtain rfl := Option.some.inj ht
    let s₁ : System := { s with page := { s.page with workspace := w }, layouts := rest }
    obtain ⟨r, ⟨-, hawaited⟩, heq⟩ | ⟨hdesk, heq⟩ := sync_cases s₁
    · have hcount : s.events.countP (mayFollow (s₁.setDesk r).note) ≤
          s.events.countP s.mayFollow :=
        List.countP_mono_left fun e _ he =>
          @mayFollow_of_sent s (s₁.setDesk r).note e rfl (Nat.succ_ne_zero _) he
      have hcost := sum_cost_concat hawaited s.requests
      rw [show s₁.sync = _ from heq]
      unfold measure
      simp only [s₁, System.note, System.setDesk, hs, List.length_cons] at hcount hcost ⊢
      omega
    · -- the active space is the one it was
      have hcount : s.events.countP (mayFollow s₁.note) ≤ s.events.countP s.mayFollow := by
        refine List.countP_mono_left fun e _ he => decide_eq_true ?_
        refine (of_decide_eq_true he).imp id (And.imp id (And.imp id fun hother => ?_))
        rw [← h.desk]
        exact fun hsame => hother (hsame.trans hdesk)
      rw [show s₁.sync = _ from heq]
      unfold measure
      simp only [s₁, System.note, hs, List.length_cons] at hcount ⊢
      omega
  case h_2 => cases ht

theorem measure_event (h : Inv s) (ht : s.event = some t) : t.measure < s.measure := by
  unfold System.event at ht
  split at ht
  case h_1 e rest hs =>
    obtain rfl := Option.some.inj ht
    let s₁ : System := { s with page := { s.page with storeDesk := e.desk }, events := rest }
    obtain ⟨-, heq⟩ | ⟨⟨hflight, hne, hother⟩, hfollow⟩ := followDesk_cases s₁
    · have hcount : rest.countP s₁.mayFollow ≤ (e :: rest).countP s.mayFollow :=
        (List.sublist_cons_self e rest).countP_le
      rw [show s₁.followDesk = s₁ from heq]
      unfold measure
      simp only [s₁, hs, List.length_cons] at hcount ⊢
      omega
    · have hself : s.mayFollow e = true := decide_eq_true (.inr ⟨hflight, hne, hother⟩)
      have hcount (t : System) (hanswered : t.answered = s.answered)
          (hsent : t.page.inFlight ≠ 0) :
          rest.countP t.mayFollow + 1 ≤ (e :: rest).countP s.mayFollow := by
        rw [List.countP_cons_of_pos hself]
        exact Nat.succ_le_succ
          (List.countP_mono_left fun v _ hv => mayFollow_of_sent hanswered hsent hv)
      obtain ⟨hhas, heq⟩ | heq := hfollow
      · -- the space of the desk was not the active one, so it is asked for
        let s₂ : System :=
          { s₁ with
            page := { s₁.page with workspace := { s.page.workspace with space := e.desk } }
            layouts := s.layouts ++ [{ s.page.workspace with space := e.desk }] }
        obtain ⟨r, ⟨-, hawaited⟩, heq₂⟩ | ⟨hdesk, -⟩ := sync_cases s₂
        · have hcount := hcount (s₂.setDesk r).note rfl (Nat.succ_ne_zero _)
          have hcost := sum_cost_concat hawaited s.requests
          rw [show s₁.followDesk = _ from heq.trans heq₂]
          unfold measure
          simp only [s₂, s₁, System.note, System.setDesk, hs, List.length_append,
            List.length_cons, List.length_nil] at hcount hcost ⊢
          omega
        · have hactive := activeSpace_of_has hhas
          exact absurd (hactive.symm.trans (hdesk.symm.trans h.desk)) hother
      · let r : Request :=
          { desk := s.page.active.id, sticky := some s.page.workspace.sticky, mode := none }
        have hcount := hcount (s₁.setDesk r) rfl (Nat.succ_ne_zero _)
        have hcost := sum_cost_concat (r := r) rfl s.requests
        rw [show s₁.followDesk = s₁.setDesk r from heq]
        unfold measure
        simp only [s₁, System.setDesk, hs, List.length_cons] at hcount hcost ⊢
        omega
  case h_2 => cases ht

theorem measure_failSend {k : Nat} (ht : s.failSend k = some t) : t.measure < s.measure := by
  obtain ⟨r, hr, rfl⟩ := Option.map_eq_some_iff.mp ht
  have hcost := List.Perm.sum_nat ((perm_awaited hr).map cost)
  rw [List.map_cons, List.sum_cons, cost, if_pos (awaited_eq hr).2.2] at hcost
  have hcount : s.events.countP (mayFollow
      { s with requests := s.requests.eraseIdx k, replies := s.replies ++ [none] }) =
        s.events.countP s.mayFollow := rfl
  unfold measure
  rw [hcount]
  simp only [List.length_append, List.length_singleton]
  omega

theorem measure_step {e : Step} (h : Inv s) (ht : s.step e = some t) (hanswer : e.isAnswer = true)
    (hstep : InOrder s e) : t.measure < s.measure := by
  cases e with
  | take => exact measure_take h ht
  | reply k => exact measure_reply h ht hstep
  | event => exact measure_event h ht
  | layout => exact measure_layout h ht
  | failSend k => exact measure_failSend ht
  | switchSpace _ => cases hanswer
  | edit _ => cases hanswer
  | saved _ => cases hanswer
  | shows _ => cases hanswer
  | failRequest _ => cases hanswer
  | failReply _ => cases hanswer

theorem Inv.settles (h : Inv s) : s.Settles InOrder :=
  ⟨s.measure, fun _ _ hrun halong =>
    length_le_of_lt Inv measure (fun _ _ _ hs ht hP => hs.step ht hP.2)
      (fun _ _ _ hs ht hP => measure_step hs ht hP.1 hP.2) h halong hrun⟩

/-- In a run that is in order the active space is the compositor's desk whenever nothing is
pending, and the two come to an end with their answers. -/
theorem agree_along {w : Workspace} (hw : Plain w) (current : Text) (sticky : List Text)
    (told : Bool) (steps : List Step)
    (h : Along step (fun s e _ => InOrder s e) (start w current sticky told) steps) :
    Along step (fun _ _ t => t.Agree ∧ t.Settles InOrder) (start w current sticky told) steps :=
  h.imp Inv (fun _ _ _ hs ht hstep => hs.step ht hstep)
    (fun _ _ _ hs ht hstep => ⟨(hs.step ht hstep).agree, (hs.step ht hstep).settles⟩)
    (Inv.start hw current sticky told)

end Invariant

/-! ## Answers without end -/

/-- The compositor is on the active space, and two events that were echoes, of it and of
another space before it, are taken for news. -/
structure Crossed (s : System) (a b : Text) : Prop where
  plain : Plain s.page.workspace
  other : s.page.workspace.has a = true
  own : s.page.workspace.has b = true
  ne : a ≠ b
  requests : s.requests = []
  replies : s.replies = []
  inFlight : s.page.inFlight = 0
  active : s.page.active.id = b
  current : s.current = b
  desk : s.page.desk = b
  events : ∃ m n, s.events = [⟨a, m⟩, ⟨b, n⟩]

theorem plain_of_has {w : Workspace} {id : Text} (h : Plain w) (hid : w.has id = true) :
    id ≠ [] ∧ trim id = id := by
  obtain ⟨s, hs, hs'⟩ := List.any_eq_true.mp hid
  obtain rfl := of_decide_eq_true hs'
  exact ⟨w.named s hs, h s hs⟩

theorem Crossed.round {s : System} {a b : Text} (h : Crossed s a b) :
    ∃ t, exec step s [.event, .take, .reply 0] = some t ∧ Crossed t b a := by
  obtain ⟨m, n, hevents⟩ := h.events
  obtain ⟨hne, htrim⟩ := plain_of_has h.plain h.other
  let w : Workspace := { s.page.workspace with space := a }
  let s₁ : System := { s with page := { s.page with storeDesk := a }, events := [⟨b, n⟩] }
  let s₂ : System :=
    { s₁ with page := { s₁.page with workspace := w }, layouts := s.layouts ++ [w] }
  have hw : w.activeSpace.id = a := activeSpace_of_has h.other
  have hfollow : s₁.followDesk = s₂.sync := by
    have hactive : s₁.page.storeDesk ≠ s₁.page.active.id := fun heq => h.ne (heq.trans h.active)
    have hnews : ¬ (s₁.page.inFlight ≠ 0 ∨ s₁.page.storeDesk = [] ∨
        s₁.page.storeDesk = s₁.page.active.id) :=
      not_or.mpr ⟨not_not.mpr h.inFlight, not_or.mpr ⟨hne, hactive⟩⟩
    rw [followDesk, if_neg hnews]
    exact if_pos h.other
  obtain ⟨r, ⟨hr, hawaited⟩, hsync⟩ | ⟨hdesk, -⟩ := sync_cases s₂
  · replace hr : r.desk = a := hr.trans hw
    have hevent : s.event = some (s₂.setDesk r).note := by
      rw [event, hevents]
      exact congrArg some (hfollow.trans hsync)
    let s₃ : System := (s₂.setDesk r).note
    have hchanged : ({ s₃ with requests := [] } : System).changed a r.sticky = true := by
      have hcurrent : s.current ≠ a := fun heq => h.ne (heq.symm.trans h.current)
      exact Bool.or_eq_true_iff.mpr (.inl (bne_iff_ne.mpr hcurrent))
    have hrequests : s₃.requests = [r] := by
      show s.requests ++ [r] = [r]
      rw [h.requests, List.nil_append]
    have htake :
        s₃.take = some (({ s₃ with requests := [] }.goTo a r.sticky).answer r (some a)) := by
      rw [take, hrequests]
      show some (handle _ r) = _
      rw [handle, hr, htrim, if_neg hne]
    let s₄ : System := ({ s₃ with requests := [] }.goTo a r.sticky).answer r (some a)
    have hreplies : s₄.replies = [some a] := by
      show s.replies ++ (if r.awaited then [some a] else []) = [some a]
      rw [h.replies, if_pos hawaited, List.nil_append]
    have hreply : s₄.reply 0 =
        some { s₄ with page := settled s₄.page (some a), replies := [] } := by
      rw [reply, hreplies]
      rfl
    refine ⟨{ s₄ with page := settled s₄.page (some a), replies := [] }, ?_, ?_⟩
    · rw [exec_cons, show step s .event = some s₃ from hevent, Option.bind_some, exec_cons,
        show step s₃ .take = some s₄ from htake, Option.bind_some, exec_cons,
        show step s₄ (.reply 0) = _ from hreply]
      rfl
    · refine ⟨h.plain, h.own, h.other, h.ne.symm, rfl, rfl, ?_, hw, rfl, hw, n, s.answered, ?_⟩
      · show s.page.inFlight + 1 - 1 = 0
        rw [h.inFlight]
      · show [(⟨b, n⟩ : Event)] ++ (if ({ s₃ with requests := [] } : System).changed a r.sticky then
          [(⟨a, s.answered⟩ : Event)] else []) = _
        rw [if_pos hchanged]
        rfl
  · exact absurd (hw.symm.trans (hdesk.symm.trans h.desk)) h.ne

theorem Crossed.answers {s : System} {a b : Text} (h : Crossed s a b) (n : Nat) :
    ∃ answers t, exec step s answers = some t ∧ (∀ e ∈ answers, e.isAnswer = true) ∧
      n ≤ answers.length := by
  induction n generalizing s a b with
  | zero => exact ⟨[], s, rfl, fun _ he => (nomatch he), Nat.zero_le _⟩
  | succ n ih =>
      obtain ⟨t, ht, hcrossed⟩ := h.round
      obtain ⟨answers, u, hu, hanswers, hlength⟩ := ih hcrossed
      refine ⟨[.event, .take, .reply 0] ++ answers, u, ?_, fun e he => ?_, ?_⟩
      · rw [exec_append, ht]
        exact hu
      · obtain he | he := List.mem_append.mp he
        · simp only [List.mem_cons, List.not_mem_nil, or_false] at he
          obtain rfl | rfl | rfl := he <;> rfl
        · exact hanswers e he
      · rw [List.length_append]
        exact Nat.add_comm n 1 ▸ Nat.add_le_add (by decide) hlength

/-- Two requests that have crossed can follow each other for as long as one likes. -/
theorem Crossed.not_settles {s : System} {a b : Text} (h : Crossed s a b) :
    ¬ s.Settles fun _ _ => True := by
  rintro ⟨bound, hbound⟩
  obtain ⟨answers, t, ht, hanswers, hlength⟩ := h.answers (bound + 1)
  have hshort := hbound answers t ht (along_of_forall fun e he => ⟨hanswers e he, trivial⟩)
  exact absurd (hlength.trans hshort) (Nat.not_succ_le_self bound)

/-- Two spaces, at work. -/
def twoSpaces : Workspace where
  space := "work".toList
  spaces := [⟨"gaming".toList, none⟩, ⟨"work".toList, none⟩]

theorem plain_twoSpaces : Plain twoSpaces := by
  unfold Plain
  decide

/-- A switch on the page, then one by the compositor, each with its event before its reply; and
there and back, where the first request gets lost. -/
theorem agree_along_ordered :
    Along step (fun _ _ t => t.Agree ∧ t.Settles InOrder) (start twoSpaces [] [] true)
      [.take, .event, .reply 0, .switchSpace "gaming".toList, .take, .event, .reply 0,
        .shows "work".toList, .event, .take, .reply 0, .layout, .switchSpace "gaming".toList,
        .switchSpace "work".toList, .failSend 0, .take, .reply 0, .reply 0] := by
  refine agree_along plain_twoSpaces [] [] true _ ?_
  refine .cons rfl trivial (.cons rfl ?_ (.cons rfl ?_ (.cons rfl trivial (.cons rfl trivial
    (.cons rfl ?_ (.cons rfl ?_ (.cons rfl trivial (.cons rfl ?_ (.cons rfl trivial
      (.cons rfl ?_ (.cons rfl trivial (.cons rfl trivial (.cons rfl trivial (.cons rfl rfl
        (.cons rfl trivial (.cons rfl ?_ (.cons rfl ?_ trivial)))))))))))))))))
  · rintro e he - -
    exact (List.cons.inj he).1 ▸ rfl
  · rintro - e he
    cases he
  · rintro e he - -
    exact (List.cons.inj he).1 ▸ rfl
  · rintro - e he
    cases he
  · rintro e he - hflight
    exact absurd rfl hflight
  · rintro - e he
    cases he
  · rintro - e he
    cases he
  · rintro - e he
    cases he

/-- The compositor goes elsewhere when it has taken the page's request, and the page hears
of it before the reply. -/
theorem window_on_other_desk_ignored :
    ¬ ∀ (w : Workspace), Plain w → ∀ (current : Text) (sticky : List Text) (told : Bool)
      (steps : List Step),
      Along step (fun _ _ t => t.Agree ∧ t.Settles fun _ _ => True)
        (start w current sticky told) steps := by
  intro hall
  have hrun := hall twoSpaces plain_twoSpaces [] [] true [.take, .event, .reply 0,
    .switchSpace "gaming".toList, .take, .shows "work".toList, .event, .event, .reply 0, .layout]
  have hstart : (start twoSpaces [] [] true).Agree := nofun
  have hend := hrun.exec (R := Agree) (fun _ _ _ h => h.1) hstart rfl
  exact absurd (hend rfl rfl rfl rfl) (by decide)

/-- The user switches there and back, and both replies overtake the events. -/
theorem switches_answered_for_ever :
    ∃ t, exec step (start twoSpaces [] [] true) [.take, .event, .reply 0,
      .switchSpace "gaming".toList, .switchSpace "work".toList, .take, .take, .reply 0, .reply 0] =
        some t ∧ ¬ t.Settles fun _ _ => True := by
  refine ⟨_, rfl, Crossed.not_settles (a := "gaming".toList) (b := "work".toList) ?_⟩
  exact ⟨plain_twoSpaces, rfl, rfl, by decide, rfl, rfl, rfl, rfl, rfl, rfl, 1, 2, rfl⟩

/-! ## The compositor's side -/

/-- The compositor's own state is as the system has it. -/
structure On (s : System) (wm : State) : Prop where
  current : wm.desks.current = s.current
  sticky : wm.desks.sticky = s.sticky

theorem On.goTo {s : System} {wm : State} (h : On s wm) (g : Placement) (desk : Text)
    (sticky : Option (List Text)) (mode : Option LayoutMode) :
    On (s.goTo desk sticky) (wm.setDesk g desk sticky mode) := by
  obtain ⟨hcurrent, hsticky⟩ := setDesk_desks wm g desk sticky mode
  refine ⟨hcurrent, hsticky.trans ?_⟩
  rw [h.sticky]
  rfl

/-- To show the desk of a window is to go to it if it is not shown. -/
theorem On.showDeskOf {s : System} {wm : State} (h : On s wm) (g : Placement) (w : Window) :
    On s (wm.showDeskOf g w) ∨
      wm.windowDesk w ≠ s.current ∧ On (s.goTo (wm.windowDesk w) none) (wm.showDeskOf g w) := by
  obtain hsame | ⟨hother, hgone⟩ := showDeskOf_desks wm g w
  · exact .inl ⟨hsame.current.trans h.current, hsame.sticky.trans h.sticky⟩
  · have hgo := h.goTo g (wm.windowDesk w) none none
    exact .inr ⟨h.current ▸ hother, hgone.current.trans hgo.current,
      hgone.sticky.trans hgo.sticky⟩

end System

end MindOS.Shell.Spaces
