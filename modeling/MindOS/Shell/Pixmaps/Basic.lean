import MindOS.Json.Basic
import MindOS.Noted

/-!
# Pixels that applications send

The image of a notification, the pixmaps of a tray item and the icon that the compositor has from
X11. What is sent has sizes of its own beside the bytes. A PNG file is known by what it shows, and
its encoder refuses pixels of another number.
-/

namespace MindOS.Shell

open Noted

structure Png where
  width : Nat
  height : Nat
  rgba : List UInt8
  full : rgba.length = width * height * 4

def Png.encode (w h : Nat) (rgba : List UInt8) : Option Png :=
  if full : rgba.length = w * h * 4 then some ⟨w, h, rgba, full⟩ else none

/-- `w * h * 4` in 32 bits. -/
def byteSize (w h : Nat) : Noted Nat := do mul 32 (← mul 32 w h) 4

def encodeRgbaPng (w h : Nat) (rgba : List UInt8) : Noted (Option Png) := do
  if w = 0 ∨ h = 0 then return none
  if rgba.length < (← byteSize w h) then return none
  let rgba ← sliceTo rgba (← byteSize w h)
  return Png.encode w h rgba

/-! ## Notifications -/

/-- A value on the bus. -/
inductive BusValue where
  | str (s : Text)
  | bool (b : Bool)
  | u8 (n : UInt8)
  | i32 (n : Int32)
  | u32 (n : UInt32)
  | array (items : List BusValue)
  | struct (fields : List BusValue)
  | other

def BusValue.asI32 : BusValue → Option Int32
  | .i32 n => some n
  | .u32 n => some n.toInt32
  | _ => none

/-- The bytes of an array. -/
def BusValue.bytes : BusValue → Option (List UInt8)
  | .array items => some (items.filterMap fun v => match v with
      | .u8 n => some n
      | _ => none)
  | _ => none

/-- `image-data`, without its bits. -/
structure ImageHint where
  width : Int32
  height : Int32
  stride : Int32
  alpha : Bool
  channels : Int32
  data : List UInt8

def ImageHint.read : BusValue → Option ImageHint
  | .struct (width :: height :: stride :: alpha :: _ :: channels :: data :: _) => do
      let width ← width.asI32
      let height ← height.asI32
      let stride ← stride.asI32
      let channels ← channels.asI32
      let data ← data.bytes
      let alpha := match alpha with
        | .bool b => b
        | _ => false
      return { width, height, stride, alpha, channels, data }
  | _ => none

/-- The bytes of the pixel from an index on. -/
def pixelBytes (data : List UInt8) (ch : Nat) (alpha : Bool) (i : Nat) : Noted (List UInt8) := do
  let r ← index data i
  let g ← index data (← add 64 i 1)
  let b ← index data (← add 64 i 2)
  if alpha ∧ 4 ≤ ch then return [r, g, b, ← index data (← add 64 i 3)] else return [r, g, b, 255]

/-- The pixel at a place, if it lies in the data. -/
def readPixel (data : List UInt8) (stride ch : Nat) (alpha : Bool) (y x : Nat) :
    Noted (Option (List UInt8)) := do
  let i ← add 64 (← mul 64 y stride) (← mul 64 x ch)
  if (← add 64 i ch) > data.length then return none
  return some (← pixelBytes data ch alpha i)

/-- The loops over the pixels. -/
def readPixels (data : List UInt8) (stride ch : Nat) (alpha : Bool) (rgba : List UInt8) :
    List (Nat × Nat) → Noted (Option (List UInt8))
  | [] => pure (some rgba)
  | (y, x) :: rest => do
      match ← readPixel data stride ch alpha y x with
      | none => return none
      | some pixel => readPixels data stride ch alpha (rgba ++ pixel) rest

def coordinates (w h : Nat) : List (Nat × Nat) :=
  (List.range h).flatMap fun y => (List.range w).map fun x => (y, x)

/-- An integer that is not negative, as `usize`. -/
def size (n : Int32) : Nat := n.toInt.toNat

def ImageHint.decode (a : ImageHint) : Noted (Option Png) :=
  if a.width.toInt ≤ 0 ∨ a.height.toInt ≤ 0 ∨ a.stride.toInt ≤ 0 ∨
    a.channels.toInt < 3 then pure none
  else do
    reserve (← mul 64 (← mul 64 (size a.width) (size a.height)) 4)
    match ← readPixels a.data (size a.stride) (size a.channels) a.alpha []
        (coordinates (size a.width) (size a.height)) with
    | none => return none
    | some rgba => encodeRgbaPng (size a.width % 2 ^ 32) (size a.height % 2 ^ 32) rgba

/-- The image that is sent among the hints. -/
def imageHint (hints : List (Text × BusValue)) : Option ImageHint :=
  (((hints.lookup "image-data".toList).or (hints.lookup "image_data".toList)).or
    (hints.lookup "icon_data".toList)).bind ImageHint.read

def hintImage (hints : List (Text × BusValue)) : Noted (Option Png) :=
  match imageHint hints with
  | none => pure none
  | some a => a.decode

/-! ## The tray -/

structure IconPixmap where
  width : Int32
  height : Int32
  pixels : List UInt8

namespace IconPixmap

/-- What `best_pixmap` keeps; a negative size is a large number as `usize`. -/
def passes (p : IconPixmap) : Noted Bool :=
  if p.width.toInt ≤ 0 ∨ p.height.toInt ≤ 0 then pure false
  else do
    let size ← signed 32 ((← signed 32 (p.width.toInt * p.height.toInt)) * 4)
    return decide ((size % 2 ^ 64).toNat ≤ p.pixels.length)

/-- The smallest one that is at least `want`, then the largest below. -/
def rank (want : Int) (p : IconPixmap) : Noted Int := do
  let d ← signed 32 (p.width.toInt - want)
  if 0 ≤ d then return d else signed 32 (1000 - d)

/-- Bytes of ARGB as RGBA. -/
def swapped : List UInt8 → List UInt8
  | a :: r :: g :: b :: rest => r :: g :: b :: a :: swapped rest
  | _ => []

def encodePng (p : IconPixmap) : Noted (Option Png) := do
  let w := (p.width.toInt % 2 ^ 32).toNat
  let h := (p.height.toInt % 2 ^ 32).toNat
  let n ← mul 32 w h
  reserve (← mul 64 n 4)
  encodeRgbaPng w h ((swapped p.pixels).take (n * 4))

end IconPixmap

/-- `min_by_key`, behind the best one so far with its rank. -/
def bestFrom (want : Int) (best : Option (Int × IconPixmap)) :
    List IconPixmap → Noted (Option IconPixmap)
  | [] => pure (best.map Prod.snd)
  | p :: rest => do
      if ← p.passes then
        let rank ← p.rank want
        match best with
        | some (least, _) => bestFrom want (if rank < least then some (rank, p) else best) rest
        | none => bestFrom want (some (rank, p)) rest
      else bestFrom want best rest

def bestPixmap (pixmaps : List IconPixmap) (want : Int) : Noted (Option IconPixmap) :=
  bestFrom want none pixmaps

/-- The icon of a tray item from its pixmaps. -/
def trayImage (pixmaps : List IconPixmap) : Noted (Option (IconPixmap × Png)) := do
  match ← bestPixmap pixmaps 32 with
  | none => return none
  | some p => return (← p.encodePng).map (p, ·)

/-! ## X11 -/

/-- The icon of a tray item of the compositor; the sizes are cut to 32 bits. -/
def xembedIcon (base64Decode : Text → List UInt8) (item : Json) : Noted (Option Png) :=
  match (item.get "width").asU64, (item.get "height").asU64, item.getStr "pixels" with
  | some w, some h, some pixels => encodeRgbaPng (w % 2 ^ 32) (h % 2 ^ 32) (base64Decode pixels)
  | _, _, _ => pure none

end MindOS.Shell
