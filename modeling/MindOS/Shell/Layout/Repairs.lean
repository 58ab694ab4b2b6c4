import MindOS.Shell.Layout.Migrations

/-!
# Repaired layouts

## What a repaired layout is

Every value of a repaired layout is in its range and every id is there. The ids are distinct, and
then another repair changes nothing, exactly if no id is made up that stands in the file before.
-/

namespace MindOS.Shell

open Text

/-! ### Ranges -/

structure Widget.InRange (w : Widget) : Prop where
  id : w.id ≠ []
  kind : w.kind ≠ []
  config : isObject w.config = true

structure Panel.InRange (floats : Floats) (p : Panel) : Prop where
  id : p.id ≠ []
  output : p.output ≠ []
  edge : p.edge ∈ (["top", "bottom", "left", "right"] : List Text)
  size : 16 ≤ p.size ∧ p.size ≤ 400
  length : p.length = 0 ∨ 10 ≤ p.length ∧ p.length ≤ 100
  align : p.align ∈ (["start", "center", "end"] : List Text)
  margin : 0 ≤ p.margin ∧ p.margin ≤ 200
  layer : p.layer ∈ (["top", "bottom"] : List Text)
  opacity : floats.unit p.opacity = true
  widgets : ∀ w ∈ p.widgets, w.InRange

structure Layout.InRange (floats : Floats) (l : Layout) : Prop where
  panels : ∀ p ∈ l.panels, p.InRange floats
  desktop : ∀ w ∈ l.desktop.widgets, w.InRange

/-- The ids are distinct: those of the panels, and those of the widgets where they are. -/
structure Layout.Distinct (l : Layout) : Prop where
  panels : (l.panels.map Panel.id).Nodup
  widgets : ∀ p ∈ l.panels, (p.widgets.map Widget.id).Nodup
  desktop : (l.desktop.widgets.map Widget.id).Nodup

/-! ### Names -/

/-- No id is made up for a widget that an earlier one came with. -/
structure WidgetsNamed (owner : Text) (widgets : List Widget) : Prop where
  free : Naming.Free (widgetNames owner) Widget.id (fun _ _ => True) 0 0 [] [] widgets

/-- No id is made up for a panel that an earlier one came with, nor for a widget on a panel under
its id or on the desktop. -/
structure Layout.Named (l : Layout) : Prop where
  panels : Naming.Free panelNames Panel.id (fun id p => WidgetsNamed id p.widgets) 0 0 [] []
    l.panels
  desktop : WidgetsNamed "desktop" l.desktop.widgets

variable {floats : Floats} {l : Layout} {p : Panel} {w : Widget} {id : Text}

/-! ### One widget -/

@[simp] theorem Widget.repinned_id (w : Widget) : w.repinned.id = w.id := by
  rw [repinned]
  split <;> rfl

@[simp] theorem Widget.repinned_kind (w : Widget) : w.repinned.kind = w.kind := by
  rw [repinned]
  split <;> rfl

@[simp] theorem Widget.repinned_extra (w : Widget) : w.repinned.extra = w.extra := by
  rw [repinned]
  split <;> rfl

theorem isObject_repinConfig (v : Json) : isObject (repinConfig v) = isObject v := by
  cases v <;> rfl

theorem Widget.isObject_repinned (w : Widget) :
    isObject w.repinned.config = isObject w.config := by
  rw [repinned]
  split
  · exact isObject_repinConfig w.config
  · rfl

theorem renamePin_renamePin (v : Json) : renamePin (renamePin v) = renamePin v := by
  cases v with
  | str s =>
      by_cases h : s = "mindos-files.desktop".toList
      · rw [renamePin, if_pos h]
        rfl
      · rw [renamePin, if_neg h, renamePin, if_neg h]
  | _ => rfl

theorem renamePins_renamePins (v : Json) : renamePins (renamePins v) = renamePins v := by
  cases v with
  | arr items =>
      simp only [renamePins, List.map_map]
      exact congrArg Json.arr (List.map_congr_left fun pin _ => renamePin_renamePin pin)
  | _ => rfl

theorem repinConfig_repinConfig (v : Json) : repinConfig (repinConfig v) = repinConfig v := by
  cases v with
  | obj fields =>
      simp only [repinConfig, List.map_map]
      refine congrArg Json.obj (List.map_congr_left fun (key, v) _ => ?_)
      simp only [Function.comp_apply]
      split
      · rw [renamePins_renamePins]
      · rfl
  | _ => rfl

theorem Widget.repinned_repinned (w : Widget) : w.repinned.repinned = w.repinned := by
  by_cases hkind : w.kind = "taskbar".toList
  · rw [repinned, repinned_kind, if_pos hkind, repinned, if_pos hkind]
    exact congrArg (fun config => { w with config }) (repinConfig_repinConfig w.config)
  · rw [repinned, repinned_kind, if_neg hkind]

theorem Widget.inRange_repaired (hid : id ≠ []) (w : Widget) : (w.repaired id).InRange where
  id := hid
  kind := by
    simp only [repaired]
    split
    · decide
    · assumption
  config := by
    simp only [repaired]
    split
    · assumption
    · rfl

theorem Widget.InRange.repinned (h : w.InRange) : w.repinned.InRange where
  id := by rw [repinned_id]; exact h.id
  kind := by rw [repinned_kind]; exact h.kind
  config := by rw [isObject_repinned]; exact h.config

theorem Widget.InRange.repaired (h : w.InRange) : w.repaired w.id = w := by
  rw [Widget.repaired, if_neg h.kind, if_pos h.config]

/-! ### Widgets of one owner -/

/-- The ids are distinct exactly if none is made up that is there before. -/
theorem nodup_widgets {f : Text → Widget → Widget} (hf : ∀ x w, (f x w).id = x) (owner : Text)
    (widgets : List Widget) :
    ((Naming.assign (widgetNames owner) Widget.id f 0 0 [] widgets).map Widget.id).Nodup ↔
      WidgetsNamed owner widgets := by
  have hiff := Naming.assign_nodup_iff (widgetNames owner) Widget.id hf (fun _ => True)
    (fun _ _ => Iff.rfl) widgets
  exact ⟨fun h => ⟨hiff.mp ⟨h, fun _ _ => trivial⟩⟩, fun h => (hiff.mpr h.free).1⟩

theorem nodup_sanitizeWidgets (owner : Text) (widgets : List Widget) :
    ((sanitizeWidgets owner widgets).map Widget.id).Nodup ↔ WidgetsNamed owner widgets :=
  nodup_widgets (fun x w => Widget.repinned_id (w.repaired x)) owner widgets

theorem sanitizeWidgets_forall₂ (owner : Text) (widgets : List Widget) :
    List.Forall₂ (fun w w' => ∃ id, id ≠ [] ∧ w' = (w.repaired id).repinned) widgets
      (sanitizeWidgets owner widgets) :=
  Naming.assign_forall₂ (m := widgetNames owner)

/-- What holds of an entry with any name holds of every entry of the list with the names. -/
theorem forall_of_forall₂ {α β : Type} {R : α → β → Prop} {P : β → Prop} {as : List α}
    {bs : List β} (h : List.Forall₂ R as bs) (hP : ∀ a b, R a b → P b) : ∀ b ∈ bs, P b := by
  induction h with
  | nil => exact fun b hb => absurd hb List.not_mem_nil
  | cons hR _ ih => exact List.forall_mem_cons.mpr ⟨hP _ _ hR, ih⟩

theorem inRange_sanitizeWidgets (owner : Text) (widgets : List Widget) :
    ∀ w ∈ sanitizeWidgets owner widgets, w.InRange := by
  refine forall_of_forall₂ (sanitizeWidgets_forall₂ owner widgets) ?_
  rintro w _ ⟨id, hid, rfl⟩
  exact (Widget.inRange_repaired hid w).repinned

theorem sanitizeWidgets_kept {owner : Text} {widgets : List Widget}
    (hrange : ∀ w ∈ widgets, w.InRange) (hpins : ∀ w ∈ widgets, w.repinned = w)
    (hnodup : (widgets.map Widget.id).Nodup) : sanitizeWidgets owner widgets = widgets := by
  rw [sanitizeWidgets, Naming.assign_kept (fun w hw => (hrange w hw).id) hnodup
    fun _ _ => List.not_mem_nil]
  refine (List.map_congr_left fun w hw => ?_).trans (List.map_id widgets)
  rw [(hrange w hw).repaired, hpins w hw]
  rfl

/-! ### One panel -/

theorem Panel.inRange_repaired (hid : id ≠ []) (p : Panel) :
    (p.repaired floats id).InRange floats where
  id := hid
  output := by
    simp only [repaired]
    split
    · decide
    · assumption
  edge := by
    simp only [repaired]
    split
    · assumption
    · decide
  size := by
    simp only [repaired]
    omega
  length := by
    simp only [repaired]
    split <;> omega
  align := by
    simp only [repaired]
    split
    · assumption
    · decide
  margin := by
    simp only [repaired]
    omega
  layer := by
    simp only [repaired]
    split
    · assumption
    · decide
  opacity := by
    simp only [repaired]
    split
    · assumption
    · exact floats.unit_default
  widgets := inRange_sanitizeWidgets id p.widgets

theorem Panel.InRange.repaired (h : p.InRange floats) (hpins : ∀ w ∈ p.widgets, w.repinned = w)
    (hnodup : (p.widgets.map Widget.id).Nodup) : p.repaired floats p.id = p := by
  have hsize : max 16 (min p.size 400) = p.size := by
    have := h.size
    omega
  have hlength : (if p.length ≤ 0 then 0 else max 10 (min p.length 100)) = p.length := by
    have := h.length
    split <;> omega
  have hmargin : max 0 (min p.margin 200) = p.margin := by
    have := h.margin
    omega
  rw [Panel.repaired, if_pos h.edge, hsize, hlength, hmargin, if_pos h.align, if_pos h.layer,
    if_pos h.opacity, if_neg h.output, sanitizeWidgets_kept h.widgets hpins hnodup]

theorem Panel.InRange.fits (h : p.InRange floats) : p.Fits where
  size := by have := h.size; omega
  length := by have := h.length; omega
  margin := by have := h.margin; omega

/-! ### The layout -/

theorem repaired_panels (floats : Floats) (l : Layout) :
    List.Forall₂ (fun p p' => ∃ id, id ≠ [] ∧ p' = p.repaired floats id) l.panels
      (l.repaired floats).panels :=
  Naming.assign_forall₂ (m := panelNames)

theorem repaired_desktop (floats : Floats) (l : Layout) :
    List.Forall₂ (fun w w' => ∃ id, id ≠ [] ∧ w' = Widget.repaired id w) l.desktop.widgets
      (l.repaired floats).desktop.widgets :=
  Naming.assign_forall₂ (m := widgetNames "desktop")

theorem inRange_repaired (floats : Floats) (l : Layout) : (l.repaired floats).InRange floats where
  panels := by
    refine forall_of_forall₂ (repaired_panels floats l) ?_
    rintro p _ ⟨id, hid, rfl⟩
    exact Panel.inRange_repaired hid p
  desktop := by
    refine forall_of_forall₂ (repaired_desktop floats l) ?_
    rintro w _ ⟨id, hid, rfl⟩
    exact Widget.inRange_repaired hid w

/-- The ids of a repaired layout are distinct exactly if none is made up that is there before. -/
theorem distinct_repaired_iff (floats : Floats) (l : Layout) :
    (l.repaired floats).Distinct ↔ l.Named := by
  have hback : ∀ x p, (Panel.repaired floats x p).id = x := fun _ _ => rfl
  have hpanels := Naming.assign_nodup_iff panelNames Panel.id hback
    (fun p => (p.widgets.map Widget.id).Nodup)
    (fun x p => nodup_sanitizeWidgets x p.widgets) l.panels
  have hdesktop := nodup_widgets (f := fun id w => w.repaired id) (fun _ _ => rfl) "desktop"
    l.desktop.widgets
  constructor
  · rintro ⟨hids, hwidgets, hdesk⟩
    exact ⟨hpanels.mp ⟨hids, hwidgets⟩, hdesktop.mp hdesk⟩
  · rintro ⟨hnamed, hdesk⟩
    obtain ⟨hids, hwidgets⟩ := hpanels.mpr hnamed
    exact ⟨hids, hwidgets, hdesktop.mpr hdesk⟩

theorem repaired_repaired (h : (l.repaired floats).Distinct) :
    (l.repaired floats).repaired floats = l.repaired floats := by
  have hrange := inRange_repaired floats l
  have hpins : ∀ p ∈ (l.repaired floats).panels, ∀ w ∈ p.widgets, w.repinned = w := by
    refine forall_of_forall₂ (repaired_panels floats l) ?_
    rintro p _ ⟨id, -, rfl⟩
    refine forall_of_forall₂ (sanitizeWidgets_forall₂ id p.widgets) ?_
    rintro w _ ⟨id, -, rfl⟩
    exact Widget.repinned_repinned _
  generalize l.repaired floats = s at h hrange hpins ⊢
  have hpanels : Naming.assign panelNames Panel.id (Panel.repaired floats) 0 0 [] s.panels =
      s.panels := by
    rw [Naming.assign_kept (fun p hp => (hrange.panels p hp).id) h.panels
      fun _ _ => List.not_mem_nil]
    refine (List.map_congr_left fun p hp => ?_).trans (List.map_id _)
    exact (hrange.panels p hp).repaired (hpins p hp) (h.widgets p hp)
  have hdesktop : Naming.assign (widgetNames "desktop") Widget.id (fun id w => w.repaired id) 0 0 []
      s.desktop.widgets = s.desktop.widgets := by
    rw [Naming.assign_kept (fun w hw => (hrange.desktop w hw).id) h.desktop
      fun _ _ => List.not_mem_nil]
    refine (List.map_congr_left fun w hw => ?_).trans (List.map_id _)
    exact (hrange.desktop w hw).repaired
  rw [Layout.repaired, hpanels, hdesktop]

theorem fromValue_toValue (error : Json → Text) (h : (l.sanitized floats).Distinct) :
    Layout.fromValue floats error (l.sanitized floats).toValue = .ok (l.sanitized floats) := by
  have hversion : (l.sanitized floats).migrated = l.sanitized floats :=
    Layout.migrated_of_version (migrated_version l)
  have hread : Layout.read floats (l.sanitized floats).toValue = some (l.sanitized floats) :=
    Layout.read_toValue floats fun p hp => ((inRange_repaired floats l.migrated).panels p hp).fits
  rw [Layout.fromValue, hread]
  refine congrArg Except.ok ?_
  rw [Layout.sanitized, hversion]
  exact repaired_repaired h

/-!
## What becomes of a layout

A layout that has been migrated and repaired has distinct ids, everything in its range and the
widgets that it had, and is read back as it is; exactly if no id is made up that is there before.
-/

variable {w : Widget} {id : Text}

theorem Widget.same_repaired (id : Text) (w : Widget) : w.Same (w.repaired id) where
  kind := rfl
  config _ h := if_pos h
  extra := rfl

theorem Widget.same_repinned (id : Text) (w : Widget) : w.Same (w.repaired id).repinned where
  kind := repinned_kind _
  config hkind h := by
    have hother : (w.repaired id).kind ≠ "taskbar" := by
      change (if w.kind = [] then _ else w.kind) ≠ _
      split
      · decide
      · exact hkind
    rw [repinned, if_neg hother]
    exact if_pos h
  extra := repinned_extra _

/-- The widgets of a repaired layout are those of the layout and new ones. -/
theorem keeps_sanitized (floats : Floats) (l : Layout) : l.Keeps (l.sanitized floats) where
  panels := by
    have hsame : ∀ id, ∀ q : Panel,
      List.Forall₂ Widget.Same q.widgets (q.repaired floats id).widgets := by
      intro id q
      refine (sanitizeWidgets_forall₂ id q.widgets).imp ?_
      rintro w _ ⟨id, -, rfl⟩
      exact w.same_repinned id
    by_cases hversion : l.version < 5
    · refine forall₂_trans (gains_migrated l) (repaired_panels floats l.migrated) ?_
      rintro p q _ ⟨news, hnews, hhas, hput⟩ ⟨id, -, rfl⟩
      exact ⟨news, q.widgets, hnews, hhas, fun h => absurd hversion h, hput, hsame id q⟩
    · -- A layout of the present version gains nothing.
      have hpanels := repaired_panels floats l.migrated
      rw [Layout.migrated_of_version hversion] at hpanels
      rw [Layout.sanitized, Layout.migrated_of_version hversion]
      refine hpanels.imp ?_
      rintro p _ ⟨id, -, rfl⟩
      have hkept : p.kept l.version = p.widgets :=
        if_neg fun h => hversion (UInt32.lt_trans h.1 (by decide))
      refine ⟨[], p.widgets, List.nil_sublist _, fun _ h => absurd h List.not_mem_nil,
        fun _ => rfl, ?_, hsame id p⟩
      rw [hkept]
      exact .refl _
  desktop := by
    rw [← migrated_desktop l]
    refine (repaired_desktop floats l.migrated).imp ?_
    rintro w _ ⟨id, -, rfl⟩
    exact w.same_repaired id

/-- What a repaired layout is to be: its ids are distinct and everything is in its range, reading
it back changes nothing, and it has the widgets that it had. -/
structure Lawful (floats : Floats) (error : Json → Text) (l l' : Layout) : Prop where
  inRange : l'.InRange floats
  distinct : l'.Distinct
  settled : Layout.fromValue floats error l'.toValue = .ok l'
  keeps : l.Keeps l'

/-- A repaired layout is as it is to be exactly if no id is made up that stands in the file
before the entry that needs one. -/
theorem sanitized_lawful_iff (floats : Floats) (error : Json → Text) (l : Layout) :
    Lawful floats error l (l.sanitized floats) ↔ l.migrated.Named := by
  constructor
  · intro h
    exact (distinct_repaired_iff floats l.migrated).mp h.distinct
  · intro h
    have hdistinct : (l.sanitized floats).Distinct :=
      (distinct_repaired_iff floats l.migrated).mpr h
    exact ⟨inRange_repaired floats l.migrated, hdistinct, fromValue_toValue error hdistinct,
      keeps_sanitized floats l⟩

/-- A panel without an id behind one that is called `panel-1` gets that id too. -/
theorem not_always_lawful : ¬∀ (floats : Floats) (error : Json → Text) (v : Json) (l : Layout),
    Layout.read floats v = some l → Lawful floats error l (l.sanitized floats) := by
  intro h
  let floats : Floats := ⟨fun n => decimal n.toNat ++ ".0", fun p => decide (p = "0.92"), by decide⟩
  let v : Json := .obj [("panels", .arr [.obj [("id", .str "panel-1")], .obj []])]
  let l : Layout := { panels := [{ id := "panel-1" }, {}] }
  have hread : Layout.read floats v = some l := rfl
  have hids : (l.sanitized floats).panels.map Panel.id =
      [("panel-1" : Text), ("panel-1" : Text)] := by decide
  have hdistinct := (h floats (fun _ => []) v l hread).distinct.panels
  rw [hids] at hdistinct
  exact absurd hdistinct (by decide)

end MindOS.Shell
