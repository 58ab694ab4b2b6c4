import MindOS.Json.Basic
import MindOS.Text.Lines
import Mathlib.Data.List.Nodup

/-!
# The audit log

Every entry is one line of JSON at the end of the log. A log that would grow past
`rotateAt` is renamed, over the one renamed before it. `tail` reads the last entries
of the log through a window at its end, which it doubles three times at most, and
takes what is still missing from the renamed log. A log that holds more entries
than the largest window shows is then taken for one that holds fewer than it does.
-/

namespace MindOS

abbrev Bytes := List UInt8

/-- The log, the log renamed before it, and how many bytes the open log holds. -/
structure Audit where
  log : Option Bytes := none
  rotated : Option Bytes := none
  file : Option Nat := none

namespace Audit

open Lines

/-- `serde_json`, as far as the log uses it. -/
structure Serde where
  /-- `Value::to_string`, in UTF-8. -/
  print : Json → Bytes
  /-- `String::from_utf8_lossy`, then `serde_json::from_str`. -/
  read : Bytes → Option Json

def newline : UInt8 := 0x0A

/-- `u8::is_ascii_whitespace`. -/
def isAsciiWhitespace (b : UInt8) : Bool :=
  ([0x20, 0x09, 0x0A, 0x0C, 0x0D] : List UInt8).contains b

/-- The log is renamed when it reaches this size. -/
def rotateAt : Nat := 64 * 1024 * 1024

/-- How far back `tail` reads at once. -/
def tailWindow : Nat := 1024 * 1024

/-! ### Writing -/

/-- Whether the system calls of a `record` succeed. A write that fails writes nothing. -/
structure Answers where
  renames : Bool := true
  opens : Bool := true
  writes : Bool := true

/-- `open_append`: a missing log is created. -/
def openAppend (a : Audit) (opens : Bool) : Audit :=
  if opens then { a with log := some (a.log.getD []), file := some (a.log.getD []).length }
  else { a with file := none }

/-- The log goes to its second name and a new one is begun. -/
def rotate (a : Audit) (io : Answers) : Audit :=
  match a.log, io.renames with
  | some log, true => openAppend { a with log := none, rotated := some log } io.opens
  | _, _ => openAppend a io.opens

/-- One line at the end of the log, if it is open. -/
def append (a : Audit) (line : Bytes) (writes : Bool) : Audit :=
  match a.file, writes with
  | some size, true =>
      { a with
        log := some (a.log.getD [] ++ (line ++ [newline]))
        file := some (size + line.length + 1) }
  | _, _ => a

/-- The entry that a call of `record` writes. -/
def stamp (ts kind session : Text) (uid : Nat) : Json → Json
  | .obj fields =>
      let fields := Json.setField "ts" (.str ts) fields
      let fields := Json.setField "kind" (.str kind) fields
      let fields := Json.setField "session" (.str session) fields
      .obj (Json.setField "uid" (.int uid) fields)
  | data => data

/-- `record`, from the entry on. -/
def record (serde : Serde) (a : Audit) (entry : Json) (io : Answers) : Audit :=
  let line := serde.print entry
  let full := (a.file.map fun size => decide (rotateAt < size + line.length + 1)).getD false
  (if full then a.rotate io else a).append line io.writes

/-! ### Reading -/

/-- The lines that a window shows, the blank ones left out. -/
def linesIn (bytes : Bytes) (window : Nat) : List Bytes :=
  ((inWindow newline bytes window).splitOn newline).filter fun l => !l.all isAsciiWhitespace

/-- The loop of `last_lines`, at most `fuel` times round. -/
def scan (bytes : Bytes) (n : Nat) : Nat → Nat → List Bytes
  | 0, _ => []
  | fuel + 1, window =>
      let lines := linesIn bytes window
      if n ≤ lines.length ∨ bytes.length - window = 0 ∨ tailWindow * 8 ≤ window then
        lines.drop (lines.length - n)
      else scan bytes n fuel (window * 2)

/-- The last `n` lines that are not blank; the fourth window is the last one. -/
def lastLines (file : Option Bytes) (n : Nat) : List Bytes :=
  if n = 0 then []
  else
    match file with
    | none => []
    | some bytes => scan bytes n 4 tailWindow

/-- The lines that `tail` parses. -/
def tailLines (a : Audit) (n : Nat) : List Bytes :=
  let lines := lastLines a.log n
  if lines.length < n then lastLines a.rotated (n - lines.length) ++ lines else lines

def tail (serde : Serde) (a : Audit) (n : Nat) : List Json := (a.tailLines n).filterMap serde.read

/-! ### What the files hold -/

/-- A line of the log: no line break inside it, and not blank. -/
structure IsLine (l : Bytes) : Prop where
  whole : newline ∉ l
  visible : l.all isAsciiWhitespace = false

/-- An entry prints as one line that reads back as the entry. -/
structure Recordable (serde : Serde) (entry : Json) : Prop where
  line : IsLine (serde.print entry)
  reads : serde.read (serde.print entry) = some entry

/-- The renamed log holds the entries `older`, the log itself the entries `newer`. -/
structure Stores (serde : Serde) (a : Audit) (older newer : List Json) : Prop where
  rotated : a.rotated.getD [] = unlines newline (older.map serde.print)
  log : a.log.getD [] = unlines newline (newer.map serde.print)
  recordable : ∀ entry ∈ older ++ newer, Recordable serde entry

section Record

variable {serde : Serde} {a : Audit} {older newer : List Json}

theorem Stores.openAppend (h : Stores serde a older newer) (opens : Bool) :
    Stores serde (a.openAppend opens) older newer := by
  cases opens with
  | true => exact ⟨h.rotated, h.log, h.recordable⟩
  | false => exact ⟨h.rotated, h.log, h.recordable⟩

theorem Stores.rotate (h : Stores serde a older newer) (io : Answers) :
    Stores serde (a.rotate io) older newer ∨ Stores serde (a.rotate io) newer [] := by
  unfold Audit.rotate
  split
  case h_1 log hlog _ =>
    refine .inr (Stores.openAppend ?_ io.opens)
    have hold := h.log
    rw [hlog] at hold
    exact ⟨hold, rfl, fun entry he => h.recordable entry
      (List.mem_append_right _ (List.append_nil newer ▸ he))⟩
  case h_2 => exact .inl (h.openAppend io.opens)

theorem Stores.append (h : Stores serde a older newer) {entry : Json}
    (hentry : Recordable serde entry) (writes : Bool) :
    Stores serde (a.append (serde.print entry) writes) older (newer ++ [entry]) ∨
      Stores serde (a.append (serde.print entry) writes) older newer := by
  unfold Audit.append
  split
  case h_1 size hsize =>
    refine .inl ⟨h.rotated, ?_, ?_⟩
    · rw [Option.getD_some, h.log, List.map_append, unlines_append]
      simp
    · intro e he
      rw [← List.append_assoc, List.mem_append, List.mem_singleton] at he
      obtain he | rfl := he
      · exact h.recordable e he
      · exact hentry
  case h_2 => exact .inr h

theorem Stores.record (h : Stores serde a older newer) {entry : Json}
    (hentry : Recordable serde entry) (io : Answers) :
    ∃ older' newer', Stores serde (a.record serde entry io) older' newer' ∧
      (older' ++ newer').Sublist (older ++ newer ++ [entry]) := by
  obtain ⟨o, m, hrotated, hkept⟩ : ∃ o m,
      Stores serde (if ((a.file.map fun size =>
        decide (rotateAt < size + (serde.print entry).length + 1)).getD false) = true
          then a.rotate io else a) o m ∧ (o ++ m).Sublist (older ++ newer) := by
    split
    case isTrue =>
      obtain hrotate | hrotate := h.rotate io
      · exact ⟨older, newer, hrotate, List.Sublist.refl _⟩
      · refine ⟨newer, [], hrotate, ?_⟩
        rw [List.append_nil]
        exact List.sublist_append_right older newer
    case isFalse => exact ⟨older, newer, h, List.Sublist.refl _⟩
  obtain happend | happend := hrotated.append hentry io.writes
  · refine ⟨o, m ++ [entry], happend, ?_⟩
    rw [← List.append_assoc]
    exact hkept.append (List.Sublist.refl [entry])
  · exact ⟨o, m, happend, hkept.trans (List.sublist_append_left _ _)⟩

end Record

/-- The log after some calls of `record`. -/
def recordAll (serde : Serde) (a : Audit) (calls : List (Json × Answers)) : Audit :=
  calls.foldl (fun a call => a.record serde call.1 call.2) a

theorem Stores.recordAll {serde : Serde} {a : Audit} {older newer : List Json}
    (h : Stores serde a older newer) {calls : List (Json × Answers)}
    (hcalls : ∀ call ∈ calls, Recordable serde call.1) :
    ∃ older' newer', Stores serde (recordAll serde a calls) older' newer' ∧
      (older' ++ newer').Sublist (older ++ newer ++ calls.map Prod.fst) := by
  induction calls generalizing a older newer with
  | nil => exact ⟨older, newer, h, List.sublist_append_left _ _⟩
  | cons call calls ih =>
      obtain ⟨o, m, hrecord, hkept⟩ := h.record (hcalls call List.mem_cons_self) call.2
      obtain ⟨o', m', hrest, hkept'⟩ := ih hrecord fun c hc =>
        hcalls c (List.mem_cons_of_mem call hc)
      refine ⟨o', m', hrest, hkept'.trans ?_⟩
      rw [List.map_cons, List.append_cons]
      exact hkept.append_right _

/-! ### What `tail` sees of them -/

theorem linesIn_unlines {ls : List Bytes} (hls : ∀ l ∈ ls, IsLine l) (window : Nat) :
    linesIn (unlines newline ls) window = newest newline window ls := by
  have hwhole : ∀ l ∈ newest newline window ls, newline ∉ l := fun l hl =>
    (hls l ((newest_suffix newline window ls).mem hl)).whole
  have hvisible : ∀ l ∈ newest newline window ls, (!l.all isAsciiWhitespace) = true := by
    intro l hl
    rw [(hls l ((newest_suffix newline window ls).mem hl)).visible]
    rfl
  rw [linesIn, inWindow_unlines fun l hl => (hls l hl).whole, splitOn_unlines hwhole,
    List.filter_append, List.filter_eq_self.mpr hvisible]
  simp

/-- The loop of `last_lines` ends with the last window at the latest, and what it
returns is what the last window shows. -/
theorem scan_unlines {ls : List Bytes} (hls : ∀ l ∈ ls, IsLine l) (n fuel : Nat) {window : Nat}
    (hwindow : window * 2 ^ fuel = tailWindow * 8) :
    scan (unlines newline ls) n (fuel + 1) window =
      (newest newline (tailWindow * 8) ls).rtake n := by
  induction fuel generalizing window with
  | zero =>
      rw [Nat.pow_zero, Nat.mul_one] at hwindow
      simp [scan, linesIn_unlines hls, hwindow, List.rtake]
  | succ fuel ih =>
      rw [scan, linesIn_unlines hls]
      have hle : window ≤ tailWindow * 8 := by
        rw [← hwindow]
        exact Nat.le_mul_of_pos_right _ (Nat.two_pow_pos _)
      split
      case isTrue hstop =>
        obtain henough | hwhole | hlast := hstop
        · exact rtake_of_suffix (newest_mono hle ls) henough
        · have hfits : (unlines newline ls).length ≤ window := Nat.le_of_sub_eq_zero hwhole
          rw [newest_of_fits hfits, newest_of_fits (hfits.trans hle)]
          rfl
        · rw [Nat.le_antisymm hle hlast]
          rfl
      case isFalse =>
        refine ih ?_
        rw [← hwindow, Nat.pow_succ, Nat.mul_assoc, Nat.mul_comm 2]

theorem lastLines_unlines {file : Option Bytes} {ls : List Bytes} (hls : ∀ l ∈ ls, IsLine l)
    (hfile : file.getD [] = unlines newline ls) (n : Nat) :
    lastLines file n = (newest newline (tailWindow * 8) ls).rtake n := by
  unfold lastLines
  split
  case isTrue hn =>
    rw [hn, List.rtake_zero]
  case isFalse =>
    cases file with
    | none =>
        cases ls with
        | nil => simp [newest]
        | cons l ls => simp at hfile
    | some bytes =>
        rw [Option.getD_some] at hfile
        rw [hfile]
        exact scan_unlines hls n 3 (by decide)

/-! ### When the tail has no gap -/

/-- The last `n` entries are within reach: those of them in the log take no more than
the last window, and so do those in the renamed log if the log holds fewer. -/
structure InReach (serde : Serde) (n : Nat) (older newer : List Json) : Prop where
  inLog : (unlines newline ((newer.map serde.print).rtake n)).length ≤ tailWindow * 8
  inRotated : newer.length < n →
    (unlines newline ((older.map serde.print).rtake (n - newer.length))).length ≤ tailWindow * 8

section Tail

variable {serde : Serde} {a : Audit} {older newer : List Json}

theorem Stores.isLine_older (h : Stores serde a older newer) :
    ∀ l ∈ older.map serde.print, IsLine l := by
  intro l hl
  obtain ⟨entry, he, rfl⟩ := List.mem_map.mp hl
  exact (h.recordable entry (List.mem_append_left _ he)).line

theorem Stores.isLine_newer (h : Stores serde a older newer) :
    ∀ l ∈ newer.map serde.print, IsLine l := by
  intro l hl
  obtain ⟨entry, he, rfl⟩ := List.mem_map.mp hl
  exact (h.recordable entry (List.mem_append_right _ he)).line

theorem tailLines_eq (h : Stores serde a older newer) (n : Nat) :
    ∃ found, found = (newest newline (tailWindow * 8) (newer.map serde.print)).rtake n ∧
      a.tailLines n = if found.length < n then
        (newest newline (tailWindow * 8) (older.map serde.print)).rtake (n - found.length) ++ found
      else found := by
  refine ⟨_, rfl, ?_⟩
  simp only [tailLines, lastLines_unlines h.isLine_newer h.log,
    lastLines_unlines h.isLine_older h.rotated]

theorem tailLines_of_inReach (h : Stores serde a older newer) {n : Nat}
    (hreach : InReach serde n older newer) :
    a.tailLines n = ((older ++ newer).map serde.print).rtake n := by
  obtain ⟨found, hfound, htail⟩ := tailLines_eq h n
  rw [rtake_newest_iff.mpr hreach.inLog] at hfound
  have hlength : found.length = min n newer.length := by
    rw [hfound, length_rtake, List.length_map]
  rw [htail, List.map_append, rtake_append, List.length_map, ← hfound]
  by_cases hn : newer.length < n
  · rw [if_pos (by omega), hlength, Nat.min_eq_right hn.le,
      rtake_newest_iff.mpr (hreach.inRotated hn)]
  · rw [if_neg (by omega), Nat.sub_eq_zero_of_le (Nat.le_of_not_lt hn), List.rtake_zero,
      List.nil_append]

/-- If no entry is there twice, a tail without a gap means that its entries were
within reach: what is missing of the log cannot come from the renamed one. -/
theorem inReach_of_tailLines (h : Stores serde a older newer) {n : Nat}
    (hnodup : ((older ++ newer).map serde.print).Nodup)
    (heq : a.tailLines n = ((older ++ newer).map serde.print).rtake n) :
    InReach serde n older newer := by
  obtain ⟨found, hfound, htail⟩ := tailLines_eq h n
  rw [List.map_append] at hnodup heq
  rw [htail, rtake_append, List.length_map] at heq
  have hnewest := newest_suffix newline (tailWindow * 8) (newer.map serde.print)
  have hlog : found <:+ newer.map serde.print := hfound ▸ (rtake_suffix _ n).trans hnewest
  have hsuffix : found <:+ (newer.map serde.print).rtake n := by
    refine List.suffix_of_suffix_length_le hlog (rtake_suffix _ n) ?_
    have hle := hnewest.length_le
    rw [hfound, length_rtake, length_rtake]
    omega
  -- What is missing of the log, if anything is.
  obtain ⟨missing, hmissing⟩ := hsuffix
  have hnone : missing = [] := by
    by_contra hne
    obtain ⟨l, hl⟩ := List.exists_mem_of_ne_nil missing hne
    have hshort : found.length < n := by
      have htotal := congrArg List.length hmissing
      have hpos := List.length_pos_of_ne_nil hne
      rw [List.length_append, length_rtake] at htotal
      omega
    rw [if_pos hshort, ← hmissing, ← List.append_assoc] at heq
    have hfront := List.append_cancel_right heq
    have holder : l ∈ older.map serde.print := by
      have hin := hfront ▸ List.mem_append_right _ hl
      exact (newest_suffix newline _ _).mem ((rtake_suffix _ _).mem hin)
    have hnewer : l ∈ newer.map serde.print :=
      (rtake_suffix _ n).mem (hmissing ▸ List.mem_append_left _ hl)
    exact (List.nodup_append.mp hnodup).2.2 l holder l hnewer rfl
  rw [hnone, List.nil_append] at hmissing
  refine ⟨rtake_newest_iff.mp (hfound ▸ hmissing), fun hn => ?_⟩
  have hall : found.length = newer.length := by
    rw [hmissing, length_rtake, List.length_map]
    exact Nat.min_eq_right hn.le
  rw [if_pos (hall ▸ hn), ← hmissing, hall] at heq
  exact rtake_newest_iff.mp (List.append_cancel_right heq)

theorem filterMap_read {entries : List Json} (h : ∀ e ∈ entries, Recordable serde e) :
    (entries.map serde.print).filterMap serde.read = entries := by
  induction entries with
  | nil => rfl
  | cons e entries ih =>
      rw [List.map_cons, List.filterMap_cons_some (h e List.mem_cons_self).reads,
        ih fun d hd => h d (List.mem_cons_of_mem e hd)]

theorem tail_eq_iff (h : Stores serde a older newer) (n : Nat) :
    a.tail serde n = (older ++ newer).rtake n ↔
      a.tailLines n = ((older ++ newer).map serde.print).rtake n := by
  have hmap : ((older ++ newer).map serde.print).rtake n =
      ((older ++ newer).rtake n).map serde.print := by
    rw [List.rtake, List.rtake, List.map_drop, List.length_map]
  constructor
  · intro htail
    -- Every line is an entry's, so it is the print of what it parses to.
    have hlines : ∀ l ∈ a.tailLines n, ∃ e ∈ older ++ newer, serde.print e = l := by
      intro l hl
      have hsub : ∀ {ls : List Json} {m : Nat},
          l ∈ (newest newline (tailWindow * 8) (ls.map serde.print)).rtake m →
            ∃ e ∈ ls, serde.print e = l := fun hin =>
        List.mem_map.mp ((newest_suffix newline _ _).mem ((rtake_suffix _ _).mem hin))
      obtain ⟨found, hfound, htailLines⟩ := tailLines_eq h n
      have hlog : l ∈ found → ∃ e ∈ older ++ newer, serde.print e = l := by
        intro hin
        obtain ⟨e, he, rfl⟩ := hsub (hfound ▸ hin)
        exact ⟨e, List.mem_append_right _ he, rfl⟩
      rw [htailLines] at hl
      split at hl
      · obtain hl | hl := List.mem_append.mp hl
        · obtain ⟨e, he, rfl⟩ := hsub hl
          exact ⟨e, List.mem_append_left _ he, rfl⟩
        · exact hlog hl
      · exact hlog hl
    have hprint : ∀ ls : List Bytes, (∀ l ∈ ls, ∃ e ∈ older ++ newer, serde.print e = l) →
        (ls.filterMap serde.read).map serde.print = ls := by
      intro ls hls
      induction ls with
      | nil => rfl
      | cons l ls ih =>
          obtain ⟨e, he, rfl⟩ := hls l List.mem_cons_self
          rw [List.filterMap_cons_some (h.recordable e he).reads, List.map_cons,
            ih fun m hm => hls m (List.mem_cons_of_mem _ hm)]
    rw [hmap, ← htail, tail, hprint _ hlines]
  · intro hlines
    rw [tail, hlines, hmap]
    exact filterMap_read fun e he => h.recordable e ((rtake_suffix _ n).mem he)

end Tail

/-! ### One long entry -/

/-- The entry of a call of `record` with a text of `n` letters. -/
def padEntry (n : Nat) : Json :=
  stamp "2026-09-01T08:00:00+00:00" "tool_call" "s" 0 (.obj [("pad", .str (List.replicate n 'x'))])

/-- The JSON of such an entry in front of its text. -/
def padFront : Bytes := "\x7b\"kind\":\"tool_call\",\"pad\":\"".toUTF8.data.toList

/-- The JSON of such an entry behind its text. -/
def padBack : Bytes :=
  "\",\"session\":\"s\",\"ts\":\"2026-09-01T08:00:00+00:00\",\"uid\":0\x7d".toUTF8.data.toList

/-- `serde_json` on such entries. -/
def padSerde : Serde where
  print v := padFront ++ ((v.getStr "pad").getD []).map (fun c => UInt8.ofNat c.toNat) ++ padBack
  read l := some (padEntry (l.length - padFront.length - padBack.length))

theorem print_padEntry (n : Nat) :
    padSerde.print (padEntry n) = padFront ++ List.replicate n 0x78 ++ padBack := by
  have hpad : (padEntry n).getStr "pad" = some (List.replicate n 'x') := rfl
  simp only [padSerde, hpad, Option.getD_some, List.map_replicate]
  rfl

theorem length_print_padEntry (n : Nat) : (padSerde.print (padEntry n)).length = n + 84 := by
  have hfront : padFront.length = 27 := by decide
  have hback : padBack.length = 57 := by decide
  rw [print_padEntry, List.length_append, List.length_append, List.length_replicate]
  omega

theorem recordable_padEntry (n : Nat) : Recordable padSerde (padEntry n) where
  line := by
    have hfront : newline ∉ padFront ∧ padFront.all isAsciiWhitespace = false := by decide
    have hback : newline ∉ padBack := by decide
    have hletter : newline ∉ List.replicate n (0x78 : UInt8) := fun h =>
      absurd (List.eq_of_mem_replicate h) (by decide)
    rw [print_padEntry]
    refine ⟨?_, ?_⟩
    · simp only [List.mem_append, not_or]
      exact ⟨⟨hfront.1, hletter⟩, hback⟩
    · rw [List.all_append, List.all_append, hfront.2, Bool.false_and, Bool.false_and]
  reads := by
    rw [print_padEntry]
    simp only [padSerde, List.length_append, List.length_replicate]
    congr 2
    omega

theorem stores_open : Stores padSerde (openAppend {} true) [] [] := by
  refine ⟨rfl, rfl, ?_⟩
  simp

/-- A long entry, and two that go into a new log after it. -/
def twice (e : Json) : List (Json × Answers) := [(e, {}), (padEntry 1, {}), (padEntry 2, {})]

theorem log_twice {e : Json} (he : rotateAt ≤ (padSerde.print e).length) :
    (recordAll padSerde (openAppend {} true) (twice e)).log =
      some (padSerde.print (padEntry 1) ++ [newline] ++
        (padSerde.print (padEntry 2) ++ [newline])) := by
  have hfirst : rotateAt < 0 + (padSerde.print e).length + 1 := by omega
  have hsecond : rotateAt < 0 + (padSerde.print e).length + 1 + (1 + 84) + 1 := by omega
  have hthird : ¬rotateAt < 0 + (1 + 84) + 1 + (2 + 84) + 1 := by decide
  simp only [twice, recordAll, List.foldl_cons, List.foldl_nil, record, openAppend, append, rotate,
    if_true, Option.map_some, Option.getD_some, Option.getD_none, List.length_nil, List.nil_append,
    length_print_padEntry, decide_eq_true hfirst, decide_eq_true hsecond, decide_eq_false hthird,
    Bool.false_eq_true, if_false]

end Audit
end MindOS
