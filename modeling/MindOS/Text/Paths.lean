import MindOS.Text.Words
import MindOS.Rooted

/-!
# Paths

A path is a walk: between its slashes stand names, `.`, `..` and nothing at all. Its
lexical resolution is where the walk from the root ends.
-/

namespace Text

open Walk

/-- What stands between the slashes of a path. -/
def components (p : Text) : List Text := p.splitOnP (· == '/')

/-- What one component does to the place reached so far. -/
def move (c : Text) : Move Text :=
  if c = [] ∨ c = ".".toList then .stay else if c = "..".toList then .up else .down c

def moves (p : Text) : List (Move Text) := (components p).map move

/-- The names a path leads along once `.`, `..` and repeated slashes are resolved. -/
def resolve (p : Text) : List Text := (walk [] (moves p)).reverse

/-- A place strictly below another. -/
def Below (dir place : List Text) : Prop := dir <+: place ∧ dir.length < place.length

instance (dir place : List Text) : Decidable (Below dir place) :=
  inferInstanceAs (Decidable (_ ∧ _))

theorem moves_append (d rest : Text) :
    moves (d ++ '/' :: rest) = moves d ++ moves rest := by
  rw [moves, components, List.splitOnP_append_cons d rest (by decide), List.map_append]
  rfl

theorem resolve_append (d rest : Text) :
    resolve (d ++ '/' :: rest) =
      (resolve d).take ((resolve d).length - climb (moves rest)) ++
        (settled (moves rest)).reverse := by
  rw [resolve, moves_append, walk_append, walk_eq _ (moves rest), List.reverse_append,
    List.reverse_drop, resolve, List.length_reverse]

/-! ### Joining paths -/

def isAbsolute (p : Text) : Bool := p.head? == some '/'

/-- The components that lead somewhere: names and `..`. -/
def names (p : Text) : List Text := (components p).filter fun c => c ≠ [] ∧ c ≠ ".".toList

/-- The last name of a path, if it does not end with `..`. -/
def fileName (p : Text) : Option Text := (names p).getLast?.filter (· ≠ "..".toList)

/-- `Path::join`: an absolute path replaces what it is joined to. -/
def joinPath (p q : Text) : Text :=
  if isAbsolute q then q
  else if p = [] ∨ p.getLast? = some '/' then p ++ q
  else p ++ '/' :: q

/-- `strip_prefix("./")`: the rest begins and ends with a name. -/
def stripHere (p : Text) : Option Text :=
  let skips (c : Text) : Bool := c = [] ∨ c = ".".toList
  match components p with
  | [] => none
  | c :: cs =>
      if c = ".".toList then
        some (['/'].intercalate ((cs.dropWhile skips).rdropWhile skips))
      else none

theorem components_append (d rest : Text) :
    components (d ++ '/' :: rest) = components d ++ components rest :=
  List.splitOnP_append_cons d rest (by decide)

theorem names_append (d rest : Text) : names (d ++ '/' :: rest) = names d ++ names rest := by
  rw [names, components_append, List.filter_append]
  rfl

@[simp] theorem components_nil : components [] = [[]] := by simp [components]

@[simp] theorem names_nil : names [] = [] := by simp [names]

theorem names_joinPath {q : Text} (p : Text) (hq : isAbsolute q = false) :
    names (joinPath p q) = names p ++ names q := by
  rw [joinPath, hq, if_neg Bool.false_ne_true]
  split
  case isTrue hend =>
    obtain rfl | hend := hend
    · simp
    · obtain ⟨d, rfl⟩ := List.getLast?_eq_some_iff.mp hend
      rw [List.append_assoc, List.singleton_append, names_append, names_append, names_nil,
        List.append_nil]
  case isFalse => exact names_append p q

theorem isAbsolute_joinPath {q : Text} (p : Text) (hq : isAbsolute q = false) :
    isAbsolute (joinPath p q) = isAbsolute p := by
  rw [joinPath, hq, if_neg Bool.false_ne_true]
  split
  case isTrue hend =>
    cases p with
    | nil => exact hq
    | cons c p => rfl
  case isFalse hend =>
    cases p with
    | nil => exact absurd (.inl rfl) hend
    | cons c p => rfl

theorem not_mem_component {p c : Text} (h : c ∈ components p) : '/' ∉ c := by
  intro hslash
  have hpiece := not_mem_piece h '/' hslash
  simp at hpiece

theorem components_of_not_mem {c : Text} (h : '/' ∉ c) : components c = [c] := by
  refine List.splitOnP_eq_singleton fun a ha => ?_
  simp only [beq_eq_false_iff_ne]
  rintro rfl
  exact h ha

theorem components_intercalate {cs : List Text} (hcs : ∀ c ∈ cs, '/' ∉ c) (hne : cs ≠ []) :
    components (['/'].intercalate cs) = cs := List.splitOn_intercalate '/' hcs hne

theorem filter_dropWhile_not {α : Type*} (skips : α → Bool) (l : List α) :
    (l.dropWhile skips).filter (fun a => !skips a) = l.filter fun a => !skips a := by
  induction l with
  | nil => rfl
  | cons a l ih =>
      cases ha : skips a with
      | true => rw [List.dropWhile_cons_of_pos ha, ih, List.filter_cons_of_neg (by simp [ha])]
      | false => rw [List.dropWhile_cons_of_neg (by simp [ha])]

theorem filter_rdropWhile_not {α : Type*} (skips : α → Bool) (l : List α) :
    (l.rdropWhile skips).filter (fun a => !skips a) = l.filter fun a => !skips a := by
  rw [List.rdropWhile, List.filter_reverse, filter_dropWhile_not, List.filter_reverse,
    List.reverse_reverse]

theorem stripHere_spec {p q : Text} (h : stripHere p = some q) :
    names q = names p ∧ isAbsolute q = false := by
  rw [stripHere] at h
  split at h
  case h_1 => cases h
  case h_2 c cs hcs =>
    split at h
    case isFalse => cases h
    case isTrue hc =>
      subst hc
      let skips (c : Text) : Bool := c = [] ∨ c = ".".toList
      let kept := (cs.dropWhile skips).rdropWhile skips
      obtain rfl : ['/'].intercalate kept = q := Option.some.inj h
      have hprefix : kept <+: cs.dropWhile skips := List.rdropWhile_prefix skips _
      have hmem : ∀ d ∈ kept, '/' ∉ d := fun d hd => by
        have hd := (List.dropWhile_sublist skips).subset ( hprefix.subset hd)
        exact not_mem_component (p := p) (hcs ▸ List.mem_cons_of_mem _ hd)
      have hskips : (fun d : Text => decide (d ≠ [] ∧ d ≠ ".".toList)) = fun d => !skips d := by
        funext d
        simp [skips, Bool.decide_and]
      have hnames : names p = kept.filter fun d => !skips d := by
        rw [names, hcs, hskips, List.filter_cons_of_neg (by decide), filter_rdropWhile_not,
          filter_dropWhile_not]
      rcases eq_or_ne kept [] with hkept | hkept
      · rw [hnames, hkept]
        exact ⟨names_nil, rfl⟩
      · have hcomponents := components_intercalate hmem hkept
        refine ⟨by rw [hnames, names, hcomponents, hskips], ?_⟩
        by_contra habsolute
        obtain ⟨rest, hrest⟩ : ∃ rest, ['/'].intercalate kept = '/' :: rest := by
          simpa [isAbsolute, List.head?_eq_some_iff] using habsolute
        rw [hrest, ← List.nil_append ('/' :: rest), components_append,
          components_nil] at hcomponents
        have hhead := List.head?_dropWhile_not skips cs
        obtain ⟨more, hmore⟩ := hprefix
        rw [← hmore, ← hcomponents] at hhead
        simp [skips] at hhead

end Text
