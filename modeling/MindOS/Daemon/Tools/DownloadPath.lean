import MindOS.Daemon.Web.Basic
import MindOS.Text.Paths

/-!
# Where a download goes

A download goes to the path that was asked for, or to the user's folder for downloads,
with the name that its URL ends in. What is asked for relatively goes to that folder too.
-/

namespace MindOS.Tools

open Text

/-- What is outside: the user accounts, how a URL is parsed and the file system. -/
structure Surroundings where
  /-- The text of `/etc/passwd`. -/
  passwd : Option Text
  /-- The path segments of a text that is a URL with a path. -/
  segments : Text → Option (List Text)
  isDir : Text → Bool
  /-- Parsing a URL removes the segments that are a dot. -/
  dots : ∀ url ps, segments url = some ps → ".".toList ∉ ps
  /-- The root and the current directory are directories. -/
  here : ∀ p, p ≠ [] → names p = [] → isDir p = true

namespace Surroundings

def userHome (w : Surroundings) (user : Text) : Option Text :=
  w.passwd.bind fun s => (Web.lines s).findSome? fun l =>
    let f := l.splitOn ':'
    if 5 < f.length ∧ f[0]? = some user then f[5]? else none

/-- The name that a URL ends in. -/
def downloadName (w : Surroundings) (url : Text) : Text :=
  let name := (w.segments url).bind fun ps => (ps.filter (· ≠ [])).getLast?
  let name := (name.filter fun n => n ≠ [] ∧ n ≠ ['/']).getD "download".toList
  name.map fun c => if c = '/' ∨ c = '\\' then '_' else c

/-- The folder for downloads. -/
def downloads (w : Surroundings) (user : Option Text) : Text :=
  match user.bind w.userHome with
  | some home => joinPath home "Downloads".toList
  | none => "/var/cache/mindos/downloads".toList

/-- What is asked for, if anything is. -/
def asked (path : Option Text) : Option Text := (path.map trim).filter (· ≠ [])

/-- What is asked for, with the name where it is a directory. -/
def named (w : Surroundings) (url p : Text) : Text :=
  if w.isDir p || p.getLast? = some '/' then joinPath p (w.downloadName url) else p

def target (w : Surroundings) (path : Option Text) (url : Text) (user : Option Text) : Text :=
  let base := w.downloads user
  match asked path with
  | some p =>
      let p := w.named url p
      if isAbsolute p then p else joinPath base ((stripHere p).getD p)
  | none => joinPath base (w.downloadName url)

def downloadPath (w : Surroundings) (path : Option Text) (url : Text) (user : Option Text) :
    Except Text Text :=
  let p := w.target path url user
  if "..".toList ∈ components p then
    .error (p ++ " walks out of the folder it names".toList)
  else .ok p

variable {w : Surroundings} {path user : Option Text} {url p : Text}

/-! ### The name -/

theorem map_eq_dot {n : Text} {f : Char → Char} (hf : ∀ c, f c = c ∨ f c = '_')
    (h : n.map f = ".".toList) : n = ".".toList := by
  obtain ⟨c, rfl, hc⟩ : ∃ c, n = [c] ∧ f c = '.' := List.map_eq_singleton_iff.mp h
  obtain hsame | hreplaced := hf c
  · rw [← hsame, hc]
    rfl
  · exact absurd (hreplaced.symm.trans hc) (by decide)

theorem names_downloadName (w : Surroundings) (url : Text) :
    names (w.downloadName url) = [w.downloadName url] ∧
      isAbsolute (w.downloadName url) = false := by
  let f (c : Char) : Char := if c = '/' ∨ c = '\\' then '_' else c
  have hf : ∀ c, f c = c ∨ f c = '_' := by
    intro c
    by_cases hc : c = '/' ∨ c = '\\'
    · exact .inr (if_pos hc)
    · exact .inl (if_neg hc)
  have hslash : '/' ∉ w.downloadName url := by
    intro hmem
    obtain ⟨c, -, hc⟩ := List.mem_map.mp hmem
    split at hc
    · revert hc
      decide
    · rename_i hno
      exact hno (.inl hc)
  have hraw : ∃ n : Text, w.downloadName url = n.map f ∧ n ≠ [] ∧ n ≠ ".".toList := by
    refine ⟨_, rfl, ?_⟩
    cases hname : ((w.segments url).bind fun ps => (ps.filter (· ≠ [])).getLast?).filter
        fun n => n ≠ [] ∧ n ≠ ['/'] with
    | none => exact ⟨by decide, by decide⟩
    | some n =>
        obtain ⟨hlast, hok⟩ := Option.filter_eq_some_iff.mp hname
        obtain ⟨ps, hps, hlast⟩ := Option.bind_eq_some_iff.mp hlast
        have hmem := (List.mem_filter.mp (List.mem_of_getLast? hlast)).1
        simp only [decide_eq_true_eq] at hok
        exact ⟨hok.1, fun hdot => w.dots url ps hps (hdot ▸ hmem)⟩
  obtain ⟨n, hn, hne, hdot⟩ := hraw
  have hempty : w.downloadName url ≠ [] := by
    rw [hn]
    exact mt List.map_eq_nil_iff.mp hne
  refine ⟨?_, ?_⟩
  · rw [names, components_of_not_mem hslash, List.filter_cons_of_pos, List.filter_nil]
    simp only [decide_eq_true_eq]
    exact ⟨hempty, fun heq => hdot (map_eq_dot hf (hn.symm.trans heq))⟩
  · rw [isAbsolute, beq_eq_false_iff_ne]
    exact fun hhead => hslash (List.mem_of_mem_head? hhead)

/-! ### The path -/

theorem isAbsolute_named (w : Surroundings) (url p : Text) :
    isAbsolute (w.named url p) = isAbsolute p := by
  rw [named]
  split
  · exact isAbsolute_joinPath p (w.names_downloadName url).2
  · rfl

theorem names_named_ne_nil (w : Surroundings) (url : Text) (hp : p ≠ []) :
    names (w.named url p) ≠ [] := by
  have hname := w.names_downloadName url
  rw [named]
  split
  case isTrue =>
    rw [names_joinPath p hname.2, hname.1]
    exact List.append_ne_nil_of_right_ne_nil _ (List.cons_ne_nil _ _)
  case isFalse hfile => exact fun hnil => hfile (by rw [w.here p hp hnil, Bool.true_or])

theorem target_of_relative (url : Text) (user : Option Text)
    (h : ∀ p ∈ asked path, isAbsolute p = false) :
    ∃ more, more ≠ [] ∧ names (w.target path url user) = names (w.downloads user) ++ more ∧
      isAbsolute (w.target path url user) = isAbsolute (w.downloads user) := by
  have hname := w.names_downloadName url
  rw [target]
  cases hasked : asked path with
  | none =>
      refine ⟨[w.downloadName url], List.cons_ne_nil _ _, ?_, ?_⟩
      · rw [names_joinPath _ hname.2, hname.1]
      · exact isAbsolute_joinPath _ hname.2
  | some p =>
      have hp : p ≠ [] := by
        obtain ⟨-, hne⟩ := Option.filter_eq_some_iff.mp hasked
        simpa using hne
      have hrelative : isAbsolute (w.named url p) = false := by
        rw [isAbsolute_named]
        exact h p hasked
      have hrest : names ((stripHere (w.named url p)).getD (w.named url p)) =
            names (w.named url p) ∧
          isAbsolute ((stripHere (w.named url p)).getD (w.named url p)) = false := by
        cases hstrip : stripHere (w.named url p) with
        | none => exact ⟨rfl, hrelative⟩
        | some q => exact stripHere_spec hstrip
      simp only [hrelative, if_neg Bool.false_ne_true]
      refine ⟨_, w.names_named_ne_nil url hp, ?_, isAbsolute_joinPath _ hrest.2⟩
      rw [names_joinPath _ hrest.2, hrest.1]

theorem target_of_absolute (url : Text) (user : Option Text)
    (hasked : asked path = some p) (h : isAbsolute p = true) :
    names (w.target path url user) ≠ [] ∧ isAbsolute (w.target path url user) = true := by
  have hp : p ≠ [] := by
    rintro rfl
    cases h
  have habsolute : isAbsolute (w.named url p) = true := by rw [isAbsolute_named, h]
  simp only [target, hasked, habsolute, if_true]
  exact ⟨w.names_named_ne_nil url hp, trivial⟩

theorem fileName_of_names (hdots : "..".toList ∉ components p) (hne : names p ≠ []) :
    ∃ name, fileName p = some name ∧ name ≠ [] := by
  have hlast := List.getLast?_eq_some_getLast hne
  have hmem := List.mem_filter.mp (List.getLast_mem hne)
  simp only [decide_eq_true_eq] at hmem
  refine ⟨(names p).getLast hne, ?_, hmem.2.1⟩
  rw [fileName, hlast, Option.filter_some, if_pos]
  simp only [decide_eq_true_eq]
  intro heq
  rw [heq] at hmem
  exact hdots hmem.1

theorem downloadPath_eq_ok (h : w.downloadPath path url user = .ok p) :
    w.target path url user = p ∧ "..".toList ∉ components p := by
  rw [downloadPath] at h
  split at h
  case isTrue => cases h
  case isFalse hdots =>
    cases h
    exact ⟨rfl, hdots⟩

/-- A download goes nowhere by `..` and ends in a name; it is absolute where the path that
is asked for or the folder is, and lies in the folder if that path is relative. -/
theorem downloadPath_ok (h : w.downloadPath path url user = .ok p) :
    "..".toList ∉ components p ∧ (∃ name, fileName p = some name ∧ name ≠ []) ∧
      (isAbsolute p = true ↔
        (∃ q ∈ asked path, isAbsolute q = true) ∨ isAbsolute (w.downloads user) = true) ∧
      ((∀ q ∈ asked path, isAbsolute q = false) →
        Below (names (w.downloads user)) (names p)) := by
  obtain ⟨rfl, hdots⟩ := downloadPath_eq_ok h
  by_cases hrelative : ∀ q ∈ asked path, isAbsolute q = false
  · obtain ⟨more, hmore, hnames, habsolute⟩ := w.target_of_relative url user hrelative
    have hne : names (w.target path url user) ≠ [] := by
      rw [hnames]
      exact List.append_ne_nil_of_right_ne_nil _ hmore
    refine ⟨hdots, fileName_of_names hdots hne, ?_, fun _ => ?_⟩
    · rw [habsolute, or_iff_right]
      rintro ⟨q, hq, hroot⟩
      cases (hrelative q hq).symm.trans hroot
    · rw [hnames]
      refine ⟨List.prefix_append _ _, ?_⟩
      rw [List.length_append]
      exact Nat.lt_add_of_pos_right (List.length_pos_iff.mpr hmore)
  · simp only [not_forall, Bool.not_eq_false] at hrelative
    obtain ⟨q, hq, hroot⟩ := hrelative
    obtain ⟨hne, habsolute⟩ := w.target_of_absolute url user hq hroot
    refine ⟨hdots, fileName_of_names hdots hne, ?_, fun hall => ?_⟩
    · exact iff_of_true habsolute (.inl ⟨q, hq, hroot⟩)
    · cases (hall q hq).symm.trans hroot

/-- Two users, the second without a home, and one file to download. -/
def twoUsers : Surroundings where
  passwd := some "me:x:1000:1000::/home/me:/bin/sh\nguest:x:1001:1001:::/bin/sh\n".toList
  segments := fun url =>
    if url = "https://example.com/a/mod.zip".toList then some ["a".toList, "mod.zip".toList]
    else none
  isDir := fun p => names p = []
  dots := by
    intro url ps h
    split at h
    · cases h
      decide
    · cases h
  here := fun p _ hp => decide_eq_true hp

theorem downloadPath_ok_home : Below (names "/home/me/Downloads".toList)
    (names "/home/me/Downloads/new/mod.zip".toList) := by
  have hbase : twoUsers.downloads (some "me".toList) = "/home/me/Downloads".toList := by decide
  have hok : twoUsers.downloadPath (some "./new/".toList) "https://example.com/a/mod.zip".toList
      (some "me".toList) = .ok "/home/me/Downloads/new/mod.zip".toList := by rfl
  have hbelow := (downloadPath_ok hok).2.2.2 (by decide)
  rwa [hbase] at hbelow

/-- The path of a user without a home is relative. -/
theorem not_downloadPath_absolute : ¬∀ (w : Surroundings) (path user : Option Text) (url p : Text),
    w.downloadPath path url user = .ok p → isAbsolute p = true ∧
      "..".toList ∉ components p ∧ (∃ name, fileName p = some name ∧ name ≠ []) ∧
        ((∀ q ∈ asked path, isAbsolute q = false) →
          Below (names (w.downloads user)) (names p)) := by
  intro h
  have habsolute := (h twoUsers none (some "guest".toList) "https://example.com/a/mod.zip".toList
    "Downloads/mod.zip".toList rfl).1
  revert habsolute
  decide

end Surroundings

end MindOS.Tools
