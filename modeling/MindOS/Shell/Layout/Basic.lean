import MindOS.Json.Basic
import MindOS.Naming

/-!
# The desktop layout

## The desktop layout

Panels, their widgets and the desktop widgets, as `layout.json` has them. A number of double
precision is kept by its printed form. What else is in an object is kept beside its fields.
-/

namespace MindOS.Shell

open Text Json

/-- What is known of double precision: the number that an integer is read as, and whether a number
lies in the unit interval. -/
structure Floats where
  ofInt : Int → Text
  unit : Text → Bool
  unit_default : unit "0.92" = true

structure Widget where
  id : Text := []
  kind : Text := []
  config : Json := .null
  /-- Anything else (desktop widgets: output, x, y, w, h). -/
  extra : Extra ["id", "type", "config"] := {}

structure Panel where
  id : Text := []
  /-- `*` = every output, otherwise a connector name. -/
  output : Text := "*"
  edge : Text := "bottom"
  /-- Thickness in logical pixels. -/
  size : Int := 48
  /-- Percentage of the edge covered (100 = full, 0 = fit the widgets). -/
  length : Int := 100
  align : Text := "center"
  margin : Int := 0
  layer : Text := "top"
  opacity : Text := "0.92"
  autohide : Bool := false
  widgets : List Widget := []
  extra : Extra ["id", "output", "edge", "size", "length", "align", "margin", "layer", "opacity",
    "autohide", "widgets"] := {}

structure Desktop where
  wallpaper : Json := .null
  widgets : List Widget := []
  extra : Extra ["wallpaper", "widgets"] := {}

structure Layout where
  version : UInt32 := 5
  panels : List Panel := []
  desktop : Desktop := {}
  extra : Extra ["version", "panels", "desktop"] := {}

/-! ### Reading -/

def readU32 : Json → Option UInt32
  | .int n => if 0 ≤ n ∧ n < 2 ^ 32 then some (UInt32.ofNat n.toNat) else none
  | _ => none

def readI32 : Json → Option Int
  | .int n => if -2 ^ 31 ≤ n ∧ n < 2 ^ 31 then some n else none
  | _ => none

def Floats.read (floats : Floats) : Json → Option Text
  | .int n => some (floats.ofInt n)
  | .float printed => some printed
  | _ => none

/-- `Vec<T>` -/
def readVec {α : Type} (read : Json → Option α) : Json → Option (List α)
  | .arr items => items.mapM read
  | _ => none

def Widget.read : Json → Option Widget
  | .obj fields => do
      let id ← optional fields "id" [] asStr
      let kind ← optional fields "type" [] asStr
      let config ← optional fields "config" .null some
      return { id, kind, config, extra := .ofFields fields }
  | _ => none

def Panel.read (floats : Floats) : Json → Option Panel
  | .obj fields => do
      let id ← optional fields "id" [] asStr
      let output ← optional fields "output" "*".toList asStr
      let edge ← optional fields "edge" "bottom".toList asStr
      let size ← optional fields "size" 48 readI32
      let length ← optional fields "length" 100 readI32
      let align ← optional fields "align" "center".toList asStr
      let margin ← optional fields "margin" 0 readI32
      let layer ← optional fields "layer" "top".toList asStr
      let opacity ← optional fields "opacity" "0.92".toList floats.read
      let autohide ← optional fields "autohide" false asBool
      let widgets ← optional fields "widgets" [] (readVec Widget.read)
      return { id, output, edge, size, length, align, margin, layer, opacity, autohide, widgets,
               extra := .ofFields fields }
  | _ => none

def Desktop.read : Json → Option Desktop
  | .obj fields => do
      let wallpaper ← optional fields "wallpaper" .null some
      let widgets ← optional fields "widgets" [] (readVec Widget.read)
      return { wallpaper, widgets, extra := .ofFields fields }
  | _ => none

/-- `serde_json::from_value` -/
def Layout.read (floats : Floats) : Json → Option Layout
  | .obj fields => do
      let version ← optional fields "version" 5 readU32
      let panels ← optional fields "panels" [] (readVec (Panel.read floats))
      let desktop ← optional fields "desktop" {} Desktop.read
      return { version, panels, desktop, extra := .ofFields fields }
  | _ => none

/-! ### Writing -/

def Widget.toValue (w : Widget) : Json :=
  .obj (withFields [("id", .str w.id), ("type", .str w.kind), ("config", w.config)] w.extra.fields)

def Panel.toValue (p : Panel) : Json :=
  .obj (withFields [("id", .str p.id), ("output", .str p.output), ("edge", .str p.edge),
    ("size", .int p.size), ("length", .int p.length), ("align", .str p.align),
    ("margin", .int p.margin), ("layer", .str p.layer), ("opacity", .float p.opacity),
    ("autohide", .bool p.autohide), ("widgets", .arr (p.widgets.map Widget.toValue))]
    p.extra.fields)

def Desktop.toValue (d : Desktop) : Json :=
  .obj (withFields [("wallpaper", d.wallpaper), ("widgets", .arr (d.widgets.map Widget.toValue))]
    d.extra.fields)

/-- `to_value` -/
def Layout.toValue (l : Layout) : Json :=
  .obj (withFields [("version", .int l.version.toNat),
    ("panels", .arr (l.panels.map Panel.toValue)), ("desktop", l.desktop.toValue)] l.extra.fields)

/-! ### Reading what was written -/

theorem Widget.read_toValue (w : Widget) : Widget.read w.toValue = some w := by
  simp only [toValue, Widget.read]
  rw [optional_withFields rfl, optional_withFields rfl, optional_withFields rfl,
    ofFields_withFields rfl]
  rfl

theorem readVec_widgets (widgets : List Widget) :
    readVec Widget.read (.arr (widgets.map Widget.toValue)) = some widgets :=
  mapM_read fun w _ => w.read_toValue

theorem Desktop.read_toValue (d : Desktop) : Desktop.read d.toValue = some d := by
  simp only [toValue, Desktop.read]
  rw [optional_withFields rfl, optional_withFields rfl, ofFields_withFields rfl,
    readVec_widgets]
  rfl

/-- The integers of a panel fit into 32 bits. -/
structure Panel.Fits (p : Panel) : Prop where
  size : -2 ^ 31 ≤ p.size ∧ p.size < 2 ^ 31
  length : -2 ^ 31 ≤ p.length ∧ p.length < 2 ^ 31
  margin : -2 ^ 31 ≤ p.margin ∧ p.margin < 2 ^ 31

theorem readI32_int {n : Int} (h : -2 ^ 31 ≤ n ∧ n < 2 ^ 31) : readI32 (.int n) = some n := if_pos h

theorem Panel.read_toValue (floats : Floats) {p : Panel} (h : p.Fits) :
    Panel.read floats p.toValue = some p := by
  simp only [toValue, Panel.read]
  rw [optional_withFields rfl, optional_withFields rfl, optional_withFields rfl,
    optional_withFields rfl, optional_withFields rfl, optional_withFields rfl,
    optional_withFields rfl, optional_withFields rfl, optional_withFields rfl,
    optional_withFields rfl, optional_withFields rfl, ofFields_withFields rfl,
    readI32_int h.size, readI32_int h.length, readI32_int h.margin, readVec_widgets]
  rfl

theorem readU32_toNat (n : UInt32) : readU32 (.int n.toNat) = some n := by
  rw [readU32, if_pos ⟨Int.natCast_nonneg _, by exact_mod_cast n.toNat_lt⟩, Int.toNat_natCast,
    UInt32.ofNat_toNat]

theorem Layout.read_toValue (floats : Floats) {l : Layout} (h : ∀ p ∈ l.panels, p.Fits) :
    Layout.read floats l.toValue = some l := by
  simp only [toValue, Layout.read]
  rw [optional_withFields rfl, optional_withFields rfl, optional_withFields rfl,
    ofFields_withFields rfl, readU32_toNat, Desktop.read_toValue]
  have hpanels : readVec (Panel.read floats) (.arr (l.panels.map Panel.toValue)) = some l.panels :=
    mapM_read fun p hp => Panel.read_toValue floats (h p hp)
  rw [hpanels]
  rfl

/-!
## Migrating and repairing a layout

A layout saved by an older shell gets the widgets that were added since, and loses the network
widgets of panels that have a tray. Then one pass repairs what no window can be built from, and
names what has no name of its own.
-/

open Text

/-! ### Migrations -/

def Widget.new (id kind : Text) : Widget := { id, kind, config := .obj [] }

namespace Panel

def has (p : Panel) (kind : Text) : Bool := p.widgets.any fun w => decide (w.kind = kind)

def position (p : Panel) (kind : Text) : Option Nat :=
  p.widgets.findIdx? fun w => decide (w.kind = kind)

def insert (p : Panel) (at' : Nat) (w : Widget) : Panel :=
  { p with widgets := p.widgets.insertIdx at' w }

/-- Version 2 added the performance-mode and notification widgets, beside the Mind widget. -/
def migrateV2 (p : Panel) : Panel :=
  match p.position "mind" with
  | none => p
  | some mind =>
      let belled :=
        if p.has "notifications" then p else p.insert (mind + 1) (.new "notify" "notifications")
      if p.has "perf" then belled else belled.insert mind (.new "perf" "perf")

/-- Version 3 added the updates indicator, in front of the notification bell or beside Mind. -/
def migrateV3 (p : Panel) : Panel :=
  if p.has "updates" then p
  else match (p.position "notifications").or ((p.position "mind").map (· + 1)) with
    | some at' => p.insert at' (.new "updates" "updates")
    | none => p

/-- The system tray has the network menu. -/
def migrateV4 (p : Panel) : Panel :=
  if p.has "tray" then
    { p with widgets := p.widgets.filter fun w => decide (w.kind ≠ "network" ∧ w.kind ≠ "vpn") }
  else p

end Panel

namespace Layout

def migrateV2 (l : Layout) : Layout :=
  { l with panels := l.panels.map Panel.migrateV2, version := 2 }

def migrateV3 (l : Layout) : Layout :=
  { l with panels := l.panels.map Panel.migrateV3, version := 3 }

def migrateV4 (l : Layout) : Layout :=
  { l with panels := l.panels.map Panel.migrateV4, version := 4 }

/-- Version 5 added the view indicator, at the near end of the first panel. -/
def migrateV5 (l : Layout) : Layout :=
  if l.panels.any (·.has "desktop-view") then l
  else match l.panels with
    | [] => l
    | p :: ps => { l with panels := p.insert 0 (.new "view" "desktop-view") :: ps }

/-- A migration of what was saved before a version. -/
def before (version : UInt32) (migrate : Layout → Layout) (l : Layout) : Layout :=
  if l.version < version then migrate l else l

/-- All migrations that a layout needs. -/
def migrated (l : Layout) : Layout :=
  let l := if l.version = 0 then { l with version := 1 } else l
  let l := l.before 2 migrateV2
  let l := l.before 3 migrateV3
  let l := l.before 4 migrateV4
  l.before 5 fun l => { l.migrateV5 with version := 5 }

end Layout

/-! ### Names that are made up -/

def decimal (n : Nat) : Text := Nat.toDigits 10 n

theorem decimal_inj {m n : Nat} (h : decimal m = decimal n) : m = n := by
  rw [← Nat.ofDigitChars_ten_toDigits (n := m), ← Nat.ofDigitChars_ten_toDigits (n := n)]
  exact congrArg (Nat.ofDigitChars 10 · 0) h

/-- `panel-{n}` -/
def panelNames : Naming.Maker Text where
  blank := []
  make _ n := "panel-" ++ decimal n
  make_ne_blank _ _ := by simp
  distinct _ hn h := hn.ne (decimal_inj (List.append_cancel_left h))

/-- `{prefix}-w{i}` -/
def widgetNames (owner : Text) : Naming.Maker Text where
  blank := []
  make i _ := owner ++ "-w" ++ decimal i
  make_ne_blank _ _ := by simp
  distinct hi _ h := hi.ne (decimal_inj (List.append_cancel_left h))

/-! ### Repairs -/

def isObject : Json → Bool
  | .obj _ => true
  | _ => false

/-- The shell's own Files app became Nautilus. -/
def renamePin : Json → Json
  | .str s => if s = "mindos-files.desktop" then .str "org.gnome.Nautilus.desktop" else .str s
  | v => v

def renamePins : Json → Json
  | .arr items => .arr (items.map renamePin)
  | v => v

/-- The entries that a task bar pins, in its configuration. -/
def repinConfig : Json → Json
  | .obj fields =>
      .obj (fields.map fun (key, v) => (key, if key = "pins" then renamePins v else v))
  | v => v

namespace Widget

/-- What a widget has under its name. -/
def repaired (id : Text) (w : Widget) : Widget where
  id := id
  kind := if w.kind = [] then "unknown" else w.kind
  config := if isObject w.config then w.config else .obj []
  extra := w.extra

def repinned (w : Widget) : Widget :=
  if w.kind = "taskbar" then { w with config := repinConfig w.config } else w

end Widget

/-- The widgets of a panel. -/
def sanitizeWidgets (owner : Text) (widgets : List Widget) : List Widget :=
  Naming.assign (widgetNames owner) Widget.id (fun id w => (w.repaired id).repinned) 0 0 [] widgets

/-- What a panel has under its name. -/
def Panel.repaired (floats : Floats) (id : Text) (p : Panel) : Panel where
  id := id
  edge := if p.edge ∈ (["top", "bottom", "left", "right"] : List Text) then p.edge else "bottom"
  size := max 16 (min p.size 400)
  length := if p.length ≤ 0 then 0 else max 10 (min p.length 100)
  margin := max 0 (min p.margin 200)
  align := if p.align ∈ (["start", "center", "end"] : List Text) then p.align else "center"
  layer := if p.layer ∈ (["top", "bottom"] : List Text) then p.layer else "top"
  opacity := if floats.unit p.opacity then p.opacity else "0.92"
  output := if p.output = [] then "*" else p.output
  autohide := p.autohide
  widgets := sanitizeWidgets id p.widgets
  extra := p.extra

/-- The pass that clamps and names. -/
def Layout.repaired (floats : Floats) (l : Layout) : Layout :=
  { l with
    panels := Naming.assign panelNames Panel.id (Panel.repaired floats) 0 0 [] l.panels
    desktop := { l.desktop with
      widgets := Naming.assign (widgetNames "desktop") Widget.id (fun id w => w.repaired id) 0 0 []
        l.desktop.widgets } }

/-- Clamp values to something the host can build windows from. -/
def Layout.sanitized (floats : Floats) (l : Layout) : Layout := l.migrated.repaired floats

/-- `from_value`, where `error` says what does not fit. -/
def Layout.fromValue (floats : Floats) (error : Json → Text) (v : Json) : Except Text Layout :=
  match Layout.read floats v with
  | some l => .ok (l.sanitized floats)
  | none => .error ("invalid layout: " ++ error v)

end MindOS.Shell
