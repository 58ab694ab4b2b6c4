import MindOS.Shell.Layout.Basic
import Mathlib.Data.List.InsertIdx

/-!
# What the migrations do

The migrations keep the widgets of every panel in their order, but those that the tray takes away,
and put new ones among them. A layout of the present version is left as it is.
-/

namespace MindOS.Shell

open Text

/-! ## Widgets that are kept -/

/-- The widgets that a migration from a version keeps. -/
def Panel.kept (version : UInt32) (p : Panel) : List Widget :=
  if version < 4 ∧ p.has "tray" then
    p.widgets.filter fun w => decide (w.kind ≠ "network" ∧ w.kind ≠ "vpn")
  else p.widgets

/-- The widgets that have been added since the first version. -/
def added : List Widget :=
  [.new "view" "desktop-view", .new "updates" "updates", .new "perf" "perf",
    .new "notify" "notifications"]

/-- New widgets are put among others. -/
structure PutAmong (news old widgets : List Widget) : Prop where
  keeps : old.Sublist widgets
  all : widgets.Perm (news ++ old)

/-- A widget is the same but for its id and what cannot be used of it. -/
structure Widget.Same (w w' : Widget) : Prop where
  kind : w'.kind = if w.kind = [] then "unknown".toList else w.kind
  config : w.kind ≠ "taskbar" → isObject w.config = true → w'.config = w.config
  extra : w'.extra = w.extra

/-- A panel keeps its widgets in their order, and new ones are put among them. -/
def Panel.Keeps (version : UInt32) (p p' : Panel) : Prop :=
  ∃ news widgets, news.Sublist added ∧ (∀ w ∈ news, p.has w.kind = false) ∧
    (¬version < 5 → news = []) ∧ PutAmong news (p.kept version) widgets ∧
      List.Forall₂ Widget.Same widgets p'.widgets

/-- All widgets of a layout are kept in their order. -/
structure Layout.Keeps (l l' : Layout) : Prop where
  panels : List.Forall₂ (Panel.Keeps l.version) l.panels l'.panels
  desktop : List.Forall₂ Widget.Same l.desktop.widgets l'.desktop.widgets

variable {floats : Floats} {l : Layout} {p : Panel} {w : Widget} {id : Text}

/-! ## Versions -/

theorem Layout.before_version {version : UInt32} {migrate : Layout → Layout}
    (h : ∀ l, ¬(migrate l).version < version) (l : Layout) :
    ¬(l.before version migrate).version < version := by
  rw [before]
  split
  · exact h l
  · assumption

theorem migrated_version (l : Layout) : ¬l.migrated.version < 5 := by
  rw [Layout.migrated]
  exact Layout.before_version (fun _ => (by decide : ¬(5 : UInt32) < 5)) _

theorem Layout.migrated_of_version (h : ¬l.version < 5) : l.migrated = l := by
  have hnat : 5 ≤ l.version.toNat := by
    rw [UInt32.lt_iff_toNat_lt] at h
    exact Nat.le_of_not_lt h
  have hbefore : ∀ (n : UInt32) (migrate : Layout → Layout), n.toNat ≤ 5 →
      l.before n migrate = l := by
    intro n migrate hn
    refine if_neg fun hlt => ?_
    rw [UInt32.lt_iff_toNat_lt] at hlt
    omega
  have hzero : l.version ≠ 0 := by
    intro hzero
    rw [hzero] at hnat
    exact absurd hnat (by decide)
  rw [migrated, if_neg hzero]
  simp only [hbefore 2 _ (by decide), hbefore 3 _ (by decide), hbefore 4 _ (by decide),
    hbefore 5 _ (by decide)]

/-! ## New widgets -/

variable {news old mid widgets : List Widget}

theorem PutAmong.refl (widgets : List Widget) : PutAmong [] widgets widgets :=
  ⟨.refl _, .refl _⟩

theorem PutAmong.trans {more : List Widget} (h : PutAmong news old mid)
    (hmore : PutAmong more mid widgets) : PutAmong (more ++ news) old widgets where
  keeps := h.keeps.trans hmore.keeps
  all := by
    rw [List.append_assoc]
    exact hmore.all.trans (h.all.append_left more)

theorem putAmong_insertIdx {i : Nat} (hi : i ≤ old.length) (w : Widget) :
    PutAmong [w] old (old.insertIdx i w) where
  keeps := List.sublist_insertIdx old i w
  all := List.perm_insertIdx w old hi

theorem PutAmong.filter (h : PutAmong news old widgets) {keep : Widget → Bool}
    (hnews : ∀ w ∈ news, keep w = true) :
    PutAmong news (old.filter keep) (widgets.filter keep) where
  keeps := h.keeps.filter keep
  all := by
    have hfilter := h.all.filter keep
    rwa [List.filter_append, List.filter_eq_self.mpr hnews] at hfilter

/-- A panel gains some of the offered widgets, none of a kind that it had. -/
def Panel.Gains (offered : List Widget) (p q : Panel) (old : List Widget) : Prop :=
  ∃ news, news.Sublist offered ∧ (∀ w ∈ news, p.has w.kind = false) ∧ PutAmong news old q.widgets

variable {offered offered' : List Widget} {q r : Panel}

theorem Panel.Gains.refl (offered : List Widget) (p : Panel) : p.Gains offered p p.widgets :=
  ⟨[], List.nil_sublist _, fun _ h => absurd h List.not_mem_nil, .refl _⟩

theorem Panel.has_iff {kind : Text} : p.has kind = true ↔ ∃ w ∈ p.widgets, w.kind = kind := by
  simp [has]

theorem Panel.has_eq_false {kind : Text} : p.has kind = false ↔ ∀ w ∈ p.widgets, w.kind ≠ kind := by
  simp [has]

theorem Panel.Gains.trans (h : p.Gains offered q old) (hmore : q.Gains offered' r q.widgets)
    (hold : ∀ w ∈ p.widgets, w.kind ∈ offered'.map Widget.kind → w ∈ old) :
    p.Gains (offered' ++ offered) r old := by
  obtain ⟨news, hnews, hhas, hput⟩ := h
  obtain ⟨more, hmore, hhas', hput'⟩ := hmore
  refine ⟨more ++ news, hmore.append hnews, fun w hw => ?_, hput.trans hput'⟩
  obtain hw | hw := List.mem_append.mp hw
  · refine Panel.has_eq_false.mpr fun w' hw' hkind => ?_
    have hmem : w' ∈ old :=
      hold w' hw' (hkind ▸ List.mem_map_of_mem (hmore.subset hw))
    exact Panel.has_eq_false.mp (hhas' w hw) w' (hput.keeps.subset hmem) hkind
  · exact hhas w hw

theorem Panel.position_lt {kind : Text} {i : Nat} (h : p.position kind = some i) :
    i < p.widgets.length :=
  (List.findIdx?_eq_some_iff_getElem.mp h).1

theorem gains_insert {i : Nat} (hi : i ≤ p.widgets.length) (w : Widget)
    (hw : p.has w.kind = false) : p.Gains [w] (p.insert i w) p.widgets :=
  ⟨[w], .refl _, by simpa using hw, putAmong_insertIdx hi w⟩

theorem gains_migrateV2 (p : Panel) :
    p.Gains [.new "perf" "perf", .new "notify" "notifications"] p.migrateV2 p.widgets := by
  rw [Panel.migrateV2]
  split
  case h_1 => exact .refl _ p
  case h_2 mind hmind =>
    have hlt := Panel.position_lt hmind
    -- The bell comes first, then the performance mode in front of Mind.
    let belled := if p.has "notifications" then p
      else p.insert (mind + 1) (.new "notify" "notifications")
    have hbell : p.Gains [.new "notify" "notifications"] belled p.widgets ∧
        mind ≤ belled.widgets.length ∧
          (p.has "perf" = false → belled.has "perf" = false) := by
      by_cases hhas : p.has "notifications" = true
      · have hbelled : belled = p := if_pos hhas
        rw [hbelled]
        exact ⟨.refl _ p, hlt.le, id⟩
      · have hbelled : belled = p.insert (mind + 1) (.new "notify" "notifications") := if_neg hhas
        rw [hbelled]
        refine ⟨gains_insert hlt _ (Bool.not_eq_true _ ▸ hhas), ?_, fun hperf => ?_⟩
        · exact hlt.le.trans (List.sublist_insertIdx p.widgets _ _).length_le
        · refine Panel.has_eq_false.mpr fun w hw => ?_
          obtain rfl | hw := (List.mem_insertIdx hlt).mp hw
          · decide
          · exact Panel.has_eq_false.mp hperf w hw
    obtain ⟨hgains, hle, hperf⟩ := hbell
    by_cases hhas : p.has "perf" = true
    · rw [if_pos hhas]
      exact hgains.trans (.refl [.new "perf" "perf"] belled) fun _ hw _ => hw
    · rw [if_neg hhas]
      exact hgains.trans (gains_insert hle (.new "perf" "perf")
        (hperf (Bool.not_eq_true _ ▸ hhas))) fun _ hw _ => hw

theorem gains_migrateV3 (p : Panel) :
    p.Gains [.new "updates" "updates"] p.migrateV3 p.widgets := by
  rw [Panel.migrateV3]
  split
  case isTrue => exact .refl _ p
  case isFalse hhas =>
    split
    case h_1 at' hat =>
      refine gains_insert ?_ (.new "updates" "updates") (Bool.not_eq_true _ ▸ hhas)
      obtain hbell | ⟨-, hbeside⟩ := Option.or_eq_some_iff.mp hat
      · exact (Panel.position_lt hbell).le
      · obtain ⟨mind, hmind, rfl⟩ := Option.map_eq_some_iff.mp hbeside
        exact Panel.position_lt hmind
    case h_2 => exact .refl _ p

theorem gains_migrateV5 (l : Layout) :
    List.Forall₂ (fun p q => p.Gains [.new "view" "desktop-view"] q p.widgets) l.panels
      l.migrateV5.panels := by
  have hrefl : ∀ ps : List Panel, List.Forall₂
      (fun p q => p.Gains [.new "view" "desktop-view"] q p.widgets) ps ps := fun ps =>
    List.forall₂_same.mpr fun p _ => .refl _ p
  rw [Layout.migrateV5]
  split
  case isTrue => exact hrefl _
  case isFalse hnone =>
    cases hpanels : l.panels with
    | nil =>
        dsimp only
        rw [hpanels]
        exact .nil
    | cons p ps =>
        have hhas : p.has "desktop-view" = false := by
          simp only [hpanels, List.any_cons, Bool.or_eq_true, not_or, Bool.not_eq_true] at hnone
          exact hnone.1
        exact .cons (gains_insert (Nat.zero_le _) (.new "view" "desktop-view") hhas) (hrefl ps)

theorem gains_migrateV4 {version : UInt32} (h : p.Gains offered q p.widgets)
    (hoffered : ∀ w ∈ offered, w.kind ≠ "network" ∧ w.kind ≠ "vpn" ∧ w.kind ≠ "tray") :
    p.Gains offered (if version < 4 then q.migrateV4 else q) (p.kept version) := by
  obtain ⟨news, hnews, hhas, hput⟩ := h
  have htray : q.has "tray" = p.has "tray" := by
    rw [Bool.eq_iff_iff, Panel.has_iff, Panel.has_iff]
    constructor
    · rintro ⟨w, hw, hkind⟩
      obtain hw | hw := List.mem_append.mp (hput.all.subset hw)
      · exact absurd hkind (hoffered w (hnews.subset hw)).2.2
      · exact ⟨w, hw, hkind⟩
    · rintro ⟨w, hw, hkind⟩
      exact ⟨w, hput.keeps.subset hw, hkind⟩
  refine ⟨news, hnews, hhas, ?_⟩
  by_cases hversion : version < 4
  · rw [if_pos hversion, Panel.migrateV4, htray, Panel.kept]
    by_cases hhas : p.has "tray" = true
    · rw [if_pos hhas, if_pos ⟨hversion, hhas⟩]
      refine hput.filter fun w hw => decide_eq_true ?_
      exact ⟨(hoffered w (hnews.subset hw)).1, (hoffered w (hnews.subset hw)).2.1⟩
    · rw [if_neg hhas, if_neg fun h => hhas h.2]
      exact hput
  · rw [if_neg hversion, Panel.kept, if_neg fun h => hversion h.1]
    exact hput

theorem forall₂_trans {α β γ : Type} {R : α → β → Prop} {S : β → γ → Prop} {T : α → γ → Prop}
    {as : List α} {bs : List β} {cs : List γ} (h : List.Forall₂ R as bs)
    (h' : List.Forall₂ S bs cs) (htrans : ∀ a b c, R a b → S b c → T a c) :
    List.Forall₂ T as cs := by
  induction h generalizing cs with
  | nil =>
      cases h'
      exact .nil
  | cons hR _ ih =>
      cases h' with
      | cons hS h' => exact .cons (htrans _ _ _ hR hS) (ih h')

/-- What a migration of every panel does, it does if the layout is that old. -/
theorem before_panels {version : UInt32} {migrate : Layout → Layout} {R : Panel → Panel → Prop}
    (h : ∀ l, List.Forall₂ R l.panels (migrate l).panels) (hrefl : ∀ p, R p p) (l : Layout) :
    List.Forall₂ R l.panels (l.before version migrate).panels := by
  rw [Layout.before]
  split
  · exact h l
  · exact List.forall₂_same.mpr fun p _ => hrefl p

theorem before_lt {n k : UInt32} (hn : n < k) {migrate : Layout → Layout}
    (hmigrate : ∀ l, (migrate l).version = n) (l : Layout) :
    (l.before n migrate).version < k ↔ l.version < k := by
  rw [Layout.before]
  split
  case isTrue h =>
    rw [hmigrate]
    exact ⟨fun _ => UInt32.lt_trans h hn, fun _ => hn⟩
  case isFalse => rfl

theorem before_desktop {n : UInt32} (migrate : Layout → Layout)
    (hmigrate : ∀ l, (migrate l).desktop = l.desktop) (l : Layout) :
    (l.before n migrate).desktop = l.desktop := by
  rw [Layout.before]
  split
  · exact hmigrate l
  · rfl

theorem forall₂_map {R : Panel → Panel → Prop} {f : Panel → Panel} (h : ∀ p, R p (f p))
    (panels : List Panel) : List.Forall₂ R panels (panels.map f) :=
  List.forall₂_map_right_iff.mpr (List.forall₂_same.mpr fun p _ => h p)

theorem Panel.mem_kept {version : UInt32} (hw : w ∈ p.widgets)
    (hkind : w.kind ≠ "network" ∧ w.kind ≠ "vpn") : w ∈ p.kept version := by
  rw [kept]
  split
  · exact List.mem_filter.mpr ⟨hw, decide_eq_true hkind⟩
  · exact hw

theorem gains_before_two (l : Layout) :
    List.Forall₂ (fun p q =>
      p.Gains [.new "perf" "perf", .new "notify" "notifications"] q p.widgets)
      l.panels (l.before 2 Layout.migrateV2).panels :=
  before_panels (fun l => forall₂_map gains_migrateV2 l.panels) (fun p => .refl _ p) l

theorem gains_before_three (l : Layout) :
    List.Forall₂ (fun p q => p.Gains [.new "updates" "updates"] q p.widgets) l.panels
      (l.before 3 Layout.migrateV3).panels :=
  before_panels (fun l => forall₂_map gains_migrateV3 l.panels) (fun p => .refl _ p) l

theorem before_four (l : Layout) :
    List.Forall₂ (fun q r => r = if l.version < 4 then q.migrateV4 else q) l.panels
      (l.before 4 Layout.migrateV4).panels := by
  rw [Layout.before]
  split
  · exact forall₂_map (R := fun q r => r = q.migrateV4) (fun _ => rfl) l.panels
  · exact List.forall₂_same.mpr fun _ _ => rfl

theorem gains_before_five (l : Layout) :
    List.Forall₂ (fun p q => p.Gains [.new "view" "desktop-view"] q p.widgets) l.panels
      (l.before 5 fun l => { l.migrateV5 with version := 5 }).panels := by
  rw [Layout.before]
  split
  · exact gains_migrateV5 l
  · exact List.forall₂_same.mpr fun p _ => .refl _ p

/-- The panels after the migrations: each has its widgets but those that the tray takes away, in
their order, and some new ones of kinds that it did not have. -/
theorem gains_migrated (l : Layout) :
    List.Forall₂ (fun p q => p.Gains added q (p.kept l.version)) l.panels l.migrated.panels := by
  have hfirst : (if l.version = 0 then { l with version := 1 } else l).panels = l.panels ∧
      ((if l.version = 0 then { l with version := 1 } else l).version < 4 ↔ l.version < 4) := by
    split
    case isTrue hzero =>
      rw [hzero]
      exact ⟨rfl, (by decide : (1 : UInt32) < 4 ↔ (0 : UInt32) < 4)⟩
    case isFalse => exact ⟨rfl, Iff.rfl⟩
  rw [Layout.migrated]
  generalize (if l.version = 0 then { l with version := 1 } else l) = first at hfirst ⊢
  have h2 := gains_before_two first
  have hlt2 := before_lt (by decide : (2 : UInt32) < 4)
    (fun l => (rfl : l.migrateV2.version = 2)) first
  generalize first.before 2 Layout.migrateV2 = second at h2 hlt2 ⊢
  have h3 := gains_before_three second
  have hlt3 := before_lt (by decide : (3 : UInt32) < 4)
    (fun l => (rfl : l.migrateV3.version = 3)) second
  generalize second.before 3 Layout.migrateV3 = third at h3 hlt3 ⊢
  have h4 := before_four third
  simp only [hlt3, hlt2, hfirst.2] at h4
  have h5 := gains_before_five (third.before 4 Layout.migrateV4)
  rw [hfirst.1] at h2
  have h23 := forall₂_trans h2 h3 fun p q r h h' => h.trans h' fun _ hw _ => hw
  have h234 : List.Forall₂ (fun p r => p.Gains [.new "updates" "updates", .new "perf" "perf",
      .new "notify" "notifications"] r (p.kept l.version)) l.panels
        (third.before 4 Layout.migrateV4).panels := by
    refine forall₂_trans h23 h4 ?_
    rintro p q _ h rfl
    exact gains_migrateV4 h (by decide)
  refine forall₂_trans h234 h5 fun p q r h h' => h.trans h' fun w hw hkind => ?_
  refine Panel.mem_kept hw ?_
  rw [List.mem_singleton.mp hkind]
  decide

theorem migrated_desktop (l : Layout) : l.migrated.desktop = l.desktop := by
  rw [Layout.migrated, before_desktop, before_desktop Layout.migrateV4 fun _ => rfl,
    before_desktop Layout.migrateV3 fun _ => rfl, before_desktop Layout.migrateV2 fun _ => rfl]
  · exact apply_ite Layout.desktop _ _ _ |>.trans (ite_self _)
  · intro l
    rw [Layout.migrateV5]
    split
    · rfl
    · split <;> rfl

end MindOS.Shell
