import MindOS.Kernel.Fs.Path

/-!
# Resolution and normal forms

Where a path leads is where its normal form leads, as long as `..` leads out of a directory to where
it was entered from. That is so if no file system is mounted at two places.
-/

namespace MindOS.Kernel.Fs

open Text Walk

/-! ### Normal forms -/

/-- A component that is a name. -/
structure IsName (c : Text) : Prop where
  ne_nil : c ≠ []
  ne_here : c ≠ ".".toList
  ne_up : c ≠ "..".toList
  no_slash : '/' ∉ c

theorem IsName.move {c : Text} (h : IsName c) : move c = .down c := by
  rw [Text.move, if_neg (not_or.mpr ⟨h.ne_nil, h.ne_here⟩), if_neg h.ne_up]

/-- A path that leads along names from the root. -/
def rooted (cs : List Text) : Text := '/' :: ['/'].intercalate cs

theorem foldl_pushPart (cs kept : List Text) :
    cs.foldl pushPart kept.reverse = (walk kept (cs.map move)).reverse := by
  induction cs generalizing kept with
  | nil => rfl
  | cons c cs ih =>
      rw [List.foldl_cons, List.map_cons, pushPart, move]
      split
      · exact ih kept
      split
      · rw [walk, ← ih, ← List.dropLast_reverse]
      · rw [walk, ← ih, List.reverse_cons]

theorem normalize_eq (p : Text) : normalize p = rooted (resolve p) :=
  congrArg rooted (foldl_pushPart (components p) [])

theorem walk_names {kept cs : List Text} (hkept : ∀ c ∈ kept, IsName c)
    (hcs : ∀ c ∈ cs, '/' ∉ c) : ∀ c ∈ walk kept (cs.map move), IsName c := by
  induction cs generalizing kept with
  | nil => exact hkept
  | cons d cs ih =>
      have hcs' : ∀ c ∈ cs, '/' ∉ c := fun c hc => hcs c (List.mem_cons_of_mem _ hc)
      rw [List.map_cons, move]
      split
      case isTrue => exact ih hkept hcs'
      case isFalse hstay =>
        split
        case isTrue => exact ih (fun c hc => hkept c (List.mem_of_mem_tail hc)) hcs'
        case isFalse hup =>
          refine ih (fun c hc => ?_) hcs'
          rcases List.mem_cons.mp hc with rfl | hc
          · exact ⟨fun h => hstay (.inl h), fun h => hstay (.inr h), hup,
              hcs c List.mem_cons_self⟩
          · exact hkept c hc

theorem isName_resolve (p : Text) : ∀ c ∈ resolve p, IsName c := fun c hc =>
  walk_names (fun _ hd => absurd hd List.not_mem_nil) (fun _ hd => not_mem_component hd) c
    (List.mem_reverse.mp hc)

theorem walk_down (kept : List Text) {cs : List Text} (hcs : ∀ c ∈ cs, IsName c) :
    walk kept (cs.map move) = cs.reverse ++ kept := by
  induction cs generalizing kept with
  | nil => rfl
  | cons c cs ih =>
      rw [List.map_cons, (hcs c List.mem_cons_self).move, walk,
        ih _ fun d hd => hcs d (List.mem_cons_of_mem _ hd), List.reverse_cons,
        List.append_assoc, List.singleton_append]

theorem components_rooted {cs : List Text} (hcs : ∀ c ∈ cs, '/' ∉ c) (hne : cs ≠ []) :
    components (rooted cs) = [] :: cs := by
  rw [rooted, ← List.nil_append ('/' :: _), components_append, components_nil,
    components_intercalate hcs hne]
  rfl

theorem resolve_rooted {cs : List Text} (hcs : ∀ c ∈ cs, IsName c) : resolve (rooted cs) = cs := by
  rcases eq_or_ne cs [] with rfl | hne
  · decide
  · rw [resolve, moves, components_rooted (fun c hc => (hcs c hc).no_slash) hne]
    exact (congrArg List.reverse (walk_down [] hcs)).trans (by simp)

theorem normalize_normalize (p : Text) : normalize (normalize p) = normalize p := by
  rw [normalize_eq, normalize_eq p, resolve_rooted (isName_resolve p)]

theorem comps_rooted {cs : List Text} (hcs : ∀ c ∈ cs, c ≠ [] ∧ '/' ∉ c) :
    Vfs.comps (rooted cs) = cs := by
  rcases eq_or_ne cs [] with rfl | hne
  · decide
  · rw [Vfs.comps, components_rooted (fun c hc => (hcs c hc).2) hne,
      List.filter_cons_of_neg (by simp)]
    exact List.filter_eq_self.mpr fun c hc => decide_eq_true (hcs c hc).1

/-- The bytes of a path along names, each with its slash. -/
def cost (cs : List Text) : Nat := (cs.map fun c => len c + 1).sum

@[simp] theorem cost_nil : cost [] = 0 := rfl

@[simp] theorem cost_cons (c : Text) (cs : List Text) : cost (c :: cs) = len c + 1 + cost cs := rfl

@[simp] theorem cost_append (cs ds : List Text) : cost (cs ++ ds) = cost cs + cost ds := by
  simp [cost]

@[simp] theorem cost_reverse (cs : List Text) : cost cs.reverse = cost cs := by
  simp [cost, List.sum_reverse]

theorem len_add_one (p : Text) : len p + 1 = cost (components p) := by
  induction p with
  | nil => rfl
  | cons a p ih =>
      rw [components, List.splitOnP_cons_eq_if_modifyHead]
      obtain ⟨c, cs, hcs⟩ :=
        List.exists_cons_of_ne_nil (List.splitOnP_ne_nil (· == '/') p)
      rw [components, hcs] at ih
      rw [hcs]
      split
      case isTrue ha =>
        have hslash : Char.utf8Size '/' = 1 := by decide
        rw [eq_of_beq ha, cost_cons, ← ih, len_cons, hslash, len_nil]
        omega
      case isFalse =>
        rw [List.modifyHead_cons, cost_cons, len_cons, len_cons]
        rw [cost_cons] at ih
        omega

theorem cost_comps_le {p : Text} (h : isAbsolute p = true) : cost (Vfs.comps p) ≤ len p := by
  have hfilter : ∀ cs : List Text, cost (cs.filter (· ≠ [])) ≤ cost cs := fun cs => by
    induction cs with
    | nil => exact Nat.le_refl _
    | cons c cs ih =>
        rw [List.filter_cons]
        split
        · exact Nat.add_le_add_left ih _
        · exact ih.trans (Nat.le_add_left _ _)
  obtain ⟨q, rfl⟩ : ∃ q, p = '/' :: q := by
    cases p with
    | nil => cases h
    | cons a q => exact ⟨q, congrArg (· :: q) (by simpa [isAbsolute] using h)⟩
  have hlen := len_add_one ('/' :: q)
  have hcomps : components ('/' :: q) = [] :: components q :=
    components_append [] q
  rw [hcomps, cost_cons, len_nil] at hlen
  rw [Vfs.comps, hcomps, List.filter_cons_of_neg (by simp)]
  have hle := hfilter (components q)
  omega

theorem len_rooted {cs : List Text} (hcs : ∀ c ∈ cs, '/' ∉ c) (hne : cs ≠ []) :
    len (rooted cs) = cost cs := by
  have hlen := len_add_one (rooted cs)
  rw [components_rooted hcs hne, cost_cons, len_nil] at hlen
  omega

theorem getLast_rooted {cs : List Text} (hcs : ∀ c ∈ cs, c ≠ [] ∧ '/' ∉ c) (hne : cs ≠ []) :
    (rooted cs).getLast? ≠ some '/' := by
  intro hlast
  obtain ⟨d, hd⟩ := List.getLast?_eq_some_iff.mp hlast
  have hcomps := components_rooted (fun c hc => (hcs c hc).2) hne
  rw [hd, components_append, components_nil] at hcomps
  have hmem : ([] : Text) ∈ cs := by
    cases hd : components d with
    | nil => exact absurd hd (List.splitOnP_ne_nil _ d)
    | cons e es =>
        rw [hd, List.cons_append] at hcomps
        rw [← (List.cons.inj hcomps).2]
        exact List.mem_append_right _ List.mem_cons_self
  exact (hcs _ hmem).1 rfl

namespace Vfs

variable {N : Type} {v : Vfs N}

/-! ### Walks without links -/

/-- A name leads from one inode to another. -/
structure Enters (v : Vfs N) (x : N) (c : Text) (y : Option N) : Prop where
  dir : v.kind x = .dir
  isName : IsName c
  len_le : len c ≤ 255
  enter : v.enter x c = .ok y

/-- Names lead along inodes from the root, the last one first. -/
inductive Reached (v : Vfs N) : List Text → N → Prop
  | root : Reached v [] v.root
  | name {ns x c y} : Reached v ns x → v.Enters x c (some y) → Reached v (c :: ns) y

/-- Where names lead, the last of them perhaps to nothing. -/
def Ends (v : Vfs N) (kept : List Text) : Option N → Prop
  | some x => v.Reached kept x
  | none => ∃ ns x c, kept = c :: ns ∧ v.Reached ns x ∧ v.Enters x c none

/-- `..` does not lead out of the root. -/
def StaysAtRoot (v : Vfs N) : Prop := v.kind v.root = .dir → ∀ z, v.up v.root = .ok z → z = v.root

/-- `..` leads out of a directory only to where a path entered it from. -/
structure LeadsBack (v : Vfs N) : Prop where
  root : v.StaysAtRoot
  dir : ∀ {ns x c y z}, v.Reached ns x → v.Enters x c (some y) → v.kind y = .dir →
    cost (c :: ns) + len "..".toList + 1 ≤ 4096 → v.up y = .ok z → z = x

def NoSymlinks (v : Vfs N) : Prop := ∀ x, v.kind x ≠ .symlink

section
variable {follow slash : Bool} {link : N → Text → Option (Except PathErrno (Resolved N))}
  {cur i : N} {comp : Text} {rest : List Text} {r : Resolved N}

theorem walkComps_cons (hplain : ∀ i, v.next cur comp = .ok (some i) → v.kind i ≠ .symlink)
    (h : v.walkComps follow slash link cur (comp :: rest) = some (.ok r)) :
    len comp ≤ 255 ∧ v.kind cur = .dir ∧ ∃ o, v.next cur comp = .ok o ∧
      (rest = [] ∧ r.inode = o ∨
        ∃ i, o = some i ∧ rest ≠ [] ∧ v.walkComps follow slash link i rest = some (.ok r)) := by
  rw [walkComps] at h
  split at h
  · cases h
  rename_i hlen
  split at h
  · cases h
  rename_i hdir
  refine ⟨Nat.not_lt.mp hlen, not_not.mp hdir, ?_⟩
  cases hnext : v.next cur comp with
  | error e =>
      rw [hnext] at h
      cases h
  | ok o =>
      rw [hnext] at h
      refine ⟨o, rfl, ?_⟩
      cases o with
      | none =>
          dsimp only at h
          split at h
          · rename_i hrest
            cases h
            exact .inl ⟨hrest, rfl⟩
          · cases h
      | some i =>
          dsimp only at h
          rw [if_neg fun hlink => hplain i hnext hlink.1] at h
          split at h
          · rename_i hrest
            split at h
            · cases h
            · cases h
              exact .inl ⟨hrest, rfl⟩
          · exact .inr ⟨i, rfl, ‹_›, h⟩

theorem walkComps_step (hlen : len comp ≤ 255) (hdir : v.kind cur = .dir)
    (hnext : v.next cur comp = .ok (some i)) (hplain : v.kind i ≠ .symlink) (hrest : rest ≠ []) :
    v.walkComps follow slash link cur (comp :: rest) = v.walkComps follow slash link i rest := by
  rw [walkComps, if_neg (Nat.not_lt.mpr hlen), if_neg (not_not.mpr hdir), hnext]
  dsimp only
  rw [if_neg fun hlink => hplain hlink.1, if_neg hrest]

theorem walkComps_last {o : Option N} (hlen : len comp ≤ 255) (hdir : v.kind cur = .dir)
    (hnext : v.next cur comp = .ok o) (hplain : ∀ i, o = some i → v.kind i ≠ .symlink) :
    v.walkComps follow false link cur [comp] = some (.ok ⟨cur, o, comp⟩) := by
  rw [walkComps, if_neg (Nat.not_lt.mpr hlen), if_neg (not_not.mpr hdir), hnext]
  cases o with
  | none => rfl
  | some i =>
      dsimp only
      rw [if_neg fun hlink => hplain i rfl hlink.1, if_pos rfl, if_neg (by simp)]

end

theorem next_name {x : N} {c : Text} {o : Option N} (h : v.Enters x c o) : v.next x c = .ok o := by
  rw [next, if_neg h.isName.ne_here, if_neg h.isName.ne_up, h.enter]

theorem next_up (x : N) : v.next x "..".toList = (v.up x).map some := by
  rw [next, if_neg (by decide), if_pos rfl]

theorem kind_up {x y : N} (h : v.up x = .ok y) (hroot : v.kind v.root = .dir) :
    v.kind y = .dir := by
  rw [up] at h
  split at h
  · rw [← Except.ok.inj h, hroot]
  · exact v.lookup_up h

theorem isName_of_reached {ns : List Text} {x : N} (h : v.Reached ns x) : ∀ c ∈ ns, IsName c := by
  induction h with
  | root => exact fun c hc => absurd hc List.not_mem_nil
  | name _ henter ih =>
      intro c hc
      rcases List.mem_cons.mp hc with rfl | hc
      · exact henter.isName
      · exact ih c hc

/-- What stands behind the names that are reached is walked from there. -/
theorem walkComps_reached {follow slash : Bool}
    {link : N → Text → Option (Except PathErrno (Resolved N))} (hplain : v.NoSymlinks)
    {ns : List Text} {x : N} (h : v.Reached ns x) {rest : List Text} (hrest : rest ≠ []) :
    v.walkComps follow slash link v.root (ns.reverse ++ rest) =
      v.walkComps follow slash link x rest := by
  induction h generalizing rest with
  | root => rfl
  | name _ henter ih =>
      rw [List.reverse_cons, List.append_assoc, List.singleton_append,
        ih (List.cons_ne_nil _ _),
        walkComps_step henter.len_le henter.dir (next_name henter) (hplain _) hrest]

theorem reached_next (hback : v.LeadsBack) {kept : List Text} {cur i : N} {comp : Text}
    (hcur : v.Reached kept cur) (hlen : len comp ≤ 255) (hdir : v.kind cur = .dir)
    (hcomp : comp ≠ [] ∧ '/' ∉ comp) (hcost : cost kept + cost [comp] ≤ 4096)
    (hnext : v.next cur comp = .ok (some i)) : v.Reached (walk kept [move comp]) i := by
  rw [next] at hnext
  split at hnext
  case isTrue hhere =>
    cases hnext
    rw [hhere]
    exact hcur
  case isFalse hhere =>
    split at hnext
    case isTrue hup =>
      subst hup
      have hup : v.up cur = .ok i := by
        cases hup : v.up cur with
        | error e =>
            rw [hup] at hnext
            cases hnext
        | ok z =>
            rw [hup] at hnext
            cases hnext
            rfl
      cases hcur with
      | root =>
          rw [hback.root hdir i hup]
          exact .root
      | name hx henter =>
          rw [cost_cons _ [], cost_nil, Nat.add_zero, ← Nat.add_assoc] at hcost
          rw [hback.dir hx henter hdir hcost hup]
          exact hx
    case isFalse hup =>
      have hname : IsName comp := ⟨hcomp.1, hhere, hup, hcomp.2⟩
      rw [hname.move]
      exact .name hcur ⟨hdir, hname, hlen, hnext⟩

theorem cost_walk_le (kept cs : List Text) :
    cost (walk kept (cs.map move)) ≤ cost kept + cost cs := by
  induction cs generalizing kept with
  | nil => exact Nat.le_refl _
  | cons c cs ih =>
      rw [List.map_cons, move, cost_cons]
      split
      · exact (ih kept).trans (by omega)
      split
      · have htail : cost kept.tail ≤ cost kept := by
          cases kept with
          | nil => exact Nat.le_refl _
          | cons d kept => exact Nat.le_add_left _ _
        exact (ih kept.tail).trans (by omega)
      · refine (ih (c :: kept)).trans ?_
        rw [cost_cons]
        omega

theorem ends_of_walkComps (hback : v.LeadsBack) (hplain : v.NoSymlinks) {follow slash : Bool}
    {link : N → Text → Option (Except PathErrno (Resolved N))} {kept cs : List Text} {cur : N}
    {r : Resolved N} (hcur : v.Reached kept cur) (hcost : cost kept + cost cs ≤ 4096)
    (hcs : ∀ c ∈ cs, c ≠ [] ∧ '/' ∉ c)
    (h : v.walkComps follow slash link cur cs = some (.ok r)) :
    v.Ends (walk kept (cs.map move)) r.inode := by
  induction cs generalizing kept cur with
  | nil =>
      cases h
      exact hcur
  | cons comp rest ih =>
      obtain ⟨hlen, hdir, o, hnext, hend⟩ := walkComps_cons (fun i _ => hplain i) h
      have hcomp := hcs comp List.mem_cons_self
      rw [cost_cons] at hcost
      have hmove := fun i (hi : o = some i) => reached_next hback hcur hlen hdir hcomp
        (by rw [cost_cons, cost_nil]; omega) (hi ▸ hnext)
      obtain ⟨rfl, hr⟩ | ⟨i, rfl, -, hrest⟩ := hend
      · rw [hr]
        cases o with
        | some i => exact hmove i rfl
        | none =>
            -- only a name leads to nothing
            have hname : IsName comp := by
              refine ⟨hcomp.1, fun hhere => ?_, fun hup => ?_, hcomp.2⟩
              · rw [next, if_pos hhere] at hnext
                cases hnext
              · rw [hup, next_up] at hnext
                cases hz : v.up cur with
                | error e =>
                    rw [hz] at hnext
                    cases hnext
                | ok z =>
                    rw [hz] at hnext
                    cases hnext
            rw [next, if_neg hname.ne_here, if_neg hname.ne_up] at hnext
            rw [List.map_singleton, hname.move]
            exact ⟨kept, cur, comp, rfl, hcur, hdir, hname, hlen, hnext⟩
      · have hle := cost_walk_le kept [comp]
        rw [cost_cons, cost_nil, List.map_singleton] at hle
        have hrest := ih (hmove i rfl) (by omega)
          (fun c hc => hcs c (List.mem_cons_of_mem _ hc)) hrest
        rwa [← walk_append, List.singleton_append, ← List.map_cons] at hrest

/-! ### Paths -/

theorem resolvePath_eq {path : Text} (base : N) (follow : Bool) (h : len path ≤ 4096) :
    v.resolvePath base path follow =
      v.walkComps follow (path.getLast? = some '/')
        (fun cur target => v.resolveInner 41 cur target true 1)
        (if isAbsolute path then v.root else base) (comps path) := by
  rw [resolvePath, resolveInner, if_neg (Nat.not_lt_zero 40), if_neg (Nat.not_lt.mpr h)]

theorem len_le_of_resolvePath {base : N} {path : Text} {follow : Bool} {r : Resolved N}
    (h : v.resolvePath base path follow = some (.ok r)) : len path ≤ 4096 := by
  by_contra hlen
  rw [resolvePath, resolveInner, if_neg (Nat.not_lt_zero 40),
    if_pos (Nat.not_le.mp hlen)] at h
  cases h

theorem walk_comps (kept cs : List Text) :
    walk kept ((cs.filter (· ≠ [])).map move) = walk kept (cs.map move) := by
  induction cs generalizing kept with
  | nil => rfl
  | cons c cs ih =>
      rw [List.filter_cons]
      split
      · rw [List.map_cons, List.map_cons, ← List.singleton_append, walk_append, ih, ← walk_append]
        rfl
      · rename_i hc
        have hempty : c = [] := by simpa using hc
        rw [ih, hempty]
        rfl

theorem resolvePath_rooted (hplain : v.NoSymlinks) {kept : List Text} {o : Option N}
    (h : v.Ends kept o) (hcost : cost kept ≤ 4096) (base : N) (follow : Bool) :
    ∃ r, v.resolvePath base (rooted kept.reverse) follow = some (.ok r) ∧ r.inode = o := by
  have hlast : kept = [] ∧ o = some v.root ∨ ∃ ns x c, kept = c :: ns ∧ v.Reached ns x ∧
      v.Enters x c o := by
    cases o with
    | none => exact .inr h
    | some i =>
        cases h with
        | root => exact .inl ⟨rfl, rfl⟩
        | name hx henter => exact .inr ⟨_, _, _, rfl, hx, henter⟩
  obtain ⟨rfl, rfl⟩ | ⟨ns, x, c, rfl, hx, henter⟩ := hlast
  · exact ⟨⟨v.root, some v.root, []⟩, rfl, rfl⟩
  · have hnames : ∀ d ∈ (c :: ns).reverse, IsName d := fun d hd => by
      rcases List.mem_cons.mp (List.mem_reverse.mp hd) with rfl | hd
      · exact henter.isName
      · exact isName_of_reached hx d hd
    have hcs : ∀ d ∈ (c :: ns).reverse, d ≠ [] ∧ '/' ∉ d := fun d hd =>
      ⟨(hnames d hd).ne_nil, (hnames d hd).no_slash⟩
    have hne : (c :: ns).reverse ≠ [] := List.reverse_ne_nil_iff.mpr (List.cons_ne_nil _ _)
    have hlen : len (rooted (c :: ns).reverse) ≤ 4096 := by
      rwa [len_rooted (fun d hd => (hcs d hd).2) hne, cost_reverse]
    refine ⟨⟨x, o, c⟩, ?_, rfl⟩
    rw [resolvePath_eq base follow hlen, decide_eq_false (getLast_rooted hcs hne),
      comps_rooted hcs, List.reverse_cons]
    exact (walkComps_reached hplain hx (List.cons_ne_nil _ _)).trans
      (walkComps_last henter.len_le henter.dir (next_name henter) fun i _ => hplain i)

theorem resolvePath_normalize (hback : v.LeadsBack) (hplain : v.NoSymlinks) {base : N}
    {path : Text} {follow : Bool} {r : Resolved N} (habs : isAbsolute path = true)
    (h : v.resolvePath base path follow = some (.ok r)) (base' : N) (follow' : Bool) :
    ∃ r', v.resolvePath base' (normalize path) follow' = some (.ok r') ∧ r'.inode = r.inode := by
  have hlen := len_le_of_resolvePath h
  rw [resolvePath_eq base follow hlen, if_pos habs] at h
  have hcost := (cost_comps_le habs).trans hlen
  have hends := ends_of_walkComps hback hplain .root (by rw [cost_nil, Nat.zero_add]; exact hcost)
    (fun c hc => by
      obtain ⟨hc, hne⟩ := List.mem_filter.mp hc
      exact ⟨of_decide_eq_true hne, not_mem_component hc⟩) h
  have hwalk : walk [] ((comps path).map move) = walk [] (moves path) := walk_comps [] _
  rw [hwalk] at hends
  rw [normalize_eq, resolve]
  refine resolvePath_rooted hplain hends ?_ base' follow'
  rw [← hwalk]
  have hle := cost_walk_le [] (comps path)
  rw [cost_nil, Nat.zero_add] at hle
  exact hle.trans hcost

/-- A path of `..` alone. -/
def dots (n : Nat) : Text := rooted (List.replicate n "..".toList)

/-- What is asked of the resolution of paths over a tree. -/
structure Resolves (v : Vfs N) : Prop where
  idempotent : ∀ p, normalize (normalize p) = normalize p
  ends : ∀ base p follow, (v.resolvePath base p follow).isSome
  dots : ∀ n base follow r, v.resolvePath base (dots n) follow = some (.ok r) →
    r.inode = some v.root
  same : v.NoSymlinks → ∀ base p follow r, isAbsolute p = true →
    v.resolvePath base p follow = some (.ok r) → ∀ base' follow',
      ∃ r', v.resolvePath base' (normalize p) follow' = some (.ok r') ∧ r'.inode = r.inode

theorem walkComps_dots (hroot : v.StaysAtRoot) {follow slash : Bool}
    {link : N → Text → Option (Except PathErrno (Resolved N))} {n : Nat} {r : Resolved N}
    (h : v.walkComps follow slash link v.root (List.replicate n "..".toList) = some (.ok r)) :
    r.inode = some v.root := by
  induction n with
  | zero =>
      cases h
      rfl
  | succ n ih =>
      rw [List.replicate_succ] at h
      by_cases hdir : v.kind v.root = .dir
      · have hup : ∀ o, v.next v.root "..".toList = .ok o → o = some v.root := fun o ho => by
          rw [next_up] at ho
          cases hz : v.up v.root with
          | error e =>
              rw [hz] at ho
              cases ho
          | ok z =>
              rw [hz] at ho
              rw [← Except.ok.inj ho, hroot hdir z hz]
        obtain ⟨-, -, o, ho, hend⟩ := walkComps_cons (fun i hi => by
          rw [Option.some.inj (hup _ hi), hdir]
          exact Kind.noConfusion) h
        obtain ⟨-, hr⟩ | ⟨i, rfl, -, hrest⟩ := hend
        · rw [hr, hup o ho]
        · rw [Option.some.inj (hup _ ho)] at hrest
          exact ih hrest
      · rw [walkComps, if_neg (by decide), if_pos hdir] at h
        cases h

theorem resolvePath_up {ns : List Text} {y z : N}
    (hwalk : ∀ link, v.walkComps true false link v.root (ns.reverse ++ ["..".toList]) =
      v.walkComps true false link y ["..".toList])
    (hns : ∀ c ∈ ns, IsName c) (hdir : v.kind y = .dir) (hplain : v.kind z ≠ .symlink)
    (hcost : cost ns + len "..".toList + 1 ≤ 4096) (hz : v.up y = .ok z) (base : N) :
    ∃ r, v.resolvePath base (rooted (ns.reverse ++ ["..".toList])) true = some (.ok r) ∧
      r.inode = some z := by
  have hcs : ∀ c ∈ ns.reverse ++ ["..".toList], c ≠ [] ∧ '/' ∉ c := fun c hc => by
    rcases List.mem_append.mp hc with hc | hc
    · exact ⟨(hns c (List.mem_reverse.mp hc)).ne_nil, (hns c (List.mem_reverse.mp hc)).no_slash⟩
    · rw [List.mem_singleton.mp hc]
      decide
  have hne : ns.reverse ++ ["..".toList] ≠ [] := List.append_ne_nil_of_right_ne_nil _ (by decide)
  have hlen : len (rooted (ns.reverse ++ ["..".toList])) ≤ 4096 := by
    rwa [len_rooted (fun d hd => (hcs d hd).2) hne, cost_append, cost_reverse, cost_cons,
      cost_nil, Nat.add_zero, ← Nat.add_assoc]
  refine ⟨⟨y, some z, "..".toList⟩, ?_, rfl⟩
  rw [resolvePath_eq base true hlen, decide_eq_false (getLast_rooted hcs hne), comps_rooted hcs]
  refine (hwalk _).trans (walkComps_last (by decide) hdir ?_ fun i hi => ?_)
  · rw [next_up, hz]
    rfl
  · rwa [← Option.some.inj hi]

theorem resolve_up {ns : List Text} {c : Text} (hns : ∀ d ∈ c :: ns, IsName d) :
    resolve (rooted ((c :: ns).reverse ++ ["..".toList])) = ns.reverse := by
  have hcs : ∀ d ∈ (c :: ns).reverse ++ ["..".toList], '/' ∉ d := fun d hd => by
    rcases List.mem_append.mp hd with hd | hd
    · exact (hns d (List.mem_reverse.mp hd)).no_slash
    · rw [List.mem_singleton.mp hd]
      decide
  have hdown := walk_down [] fun d hd => hns d (List.mem_reverse.mp hd)
  rw [resolve, moves, components_rooted hcs (List.append_ne_nil_of_right_ne_nil _ (by decide)),
    ← List.singleton_append, List.map_append, walk_append]
  change (walk [] (((c :: ns).reverse ++ ["..".toList]).map move)).reverse = _
  rw [List.map_append, walk_append, hdown, List.reverse_reverse, List.append_nil]
  rfl

theorem leadsBack_of_resolves (h : v.Resolves) (hplain : v.NoSymlinks) (hroot : v.StaysAtRoot) :
    v.LeadsBack where
  root := hroot
  dir {ns x c y z} hx henter hdir hcost hz := by
    have hns : ∀ d ∈ c :: ns, IsName d := isName_of_reached (hx.name henter)
    obtain ⟨r, hr, hinode⟩ := resolvePath_up
      (fun link => walkComps_reached hplain (hx.name henter) (List.cons_ne_nil _ _)) hns hdir
      (hplain z) hcost hz v.root
    obtain ⟨r', hr', hsame⟩ := h.same hplain _ _ _ _ rfl hr v.root true
    rw [normalize_eq, resolve_up hns] at hr'
    obtain ⟨r'', hr'', hinode'⟩ := @resolvePath_rooted N v hplain ns (some x) hx
      (by rw [cost_cons] at hcost; omega) v.root true
    rw [hr'] at hr''
    rw [← Except.ok.inj (Option.some.inj hr''), hsame, hinode] at hinode'
    exact Option.some.inj hinode'

theorem staysAtRoot_of_resolves (h : v.Resolves) : v.StaysAtRoot := fun hdir z hz => by
  obtain ⟨r, hr, hinode⟩ := @resolvePath_up N v [] v.root z (fun _ => rfl)
    (fun c hc => absurd hc List.not_mem_nil) hdir
    (by rw [kind_up hz hdir]; exact Kind.noConfusion) (by decide) hz v.root
  have hroot := h.dots 1 v.root true r hr
  rw [hinode] at hroot
  exact Option.some.inj hroot

/-- Paths resolve as their normal forms do exactly if `..` stays at the root and, where there are no
symbolic links, leads back from every directory; all else holds of every tree. -/
theorem resolves_iff (v : Vfs N) :
    v.Resolves ↔ v.StaysAtRoot ∧ (v.NoSymlinks → v.LeadsBack) := by
  constructor
  · exact fun h => ⟨staysAtRoot_of_resolves h,
      fun hplain => leadsBack_of_resolves h hplain (staysAtRoot_of_resolves h)⟩
  · rintro ⟨hroot, hback⟩
    refine ⟨normalize_normalize, resolvePath_isSome, fun n base follow r h => ?_,
      fun hplain base p follow r habs h => resolvePath_normalize (hback hplain) hplain habs h⟩
    have hlen := len_le_of_resolvePath h
    have hcs : ∀ c ∈ List.replicate n "..".toList, c ≠ [] ∧ '/' ∉ c := fun c hc => by
      rw [List.eq_of_mem_replicate hc]
      decide
    have habs : isAbsolute (dots n) = true := rfl
    rw [resolvePath_eq base follow hlen, if_pos habs, Vfs.dots, comps_rooted hcs] at h
    exact walkComps_dots hroot h

/-- Trees of directories, each mounted at one place at most. -/
structure MountedOnce (v : Vfs N) : Prop where
  ident_inj : Function.Injective v.ident
  /-- A directory has one name. -/
  back : ∀ {x c i z}, IsName c → v.lookup x c = .ok i → v.kind i = .dir →
    v.lookup i "..".toList = .ok z → z = x
  on_eq : ∀ m ∈ v.mounts, m.on = v.ident m.mountpoint ∧ v.kind m.mountpoint = .dir
  once : ∀ m ∈ v.mounts, ∀ m' ∈ v.mounts, v.ident m.root = v.ident m'.root → m = m'
  root_ne : ∀ m ∈ v.mounts, v.ident m.root ≠ v.ident v.root
  /-- No name leads to the root of a file system. -/
  apart : ∀ {x c i}, IsName c → v.lookup x c = .ok i →
    v.ident i ≠ v.ident v.root ∧ ∀ m ∈ v.mounts, v.ident m.root ≠ v.ident i

theorem uncrossMount_of_forall_ne {dir : N} (h : ∀ m ∈ v.mounts, v.ident m.root ≠ v.ident dir) :
    v.uncrossMount dir = dir := by
  rw [uncrossMount, List.find?_eq_none.mpr fun m hm => by simpa using h m hm]

theorem MountedOnce.uncrossMount_root (h : v.MountedOnce) {m : Mount N} (hm : m ∈ v.mounts) :
    v.uncrossMount m.root = m.mountpoint := by
  rw [uncrossMount]
  cases hfind : v.mounts.find? (v.ident ·.root = v.ident m.root) with
  | none => exact absurd (List.find?_eq_none.mp hfind m hm) (by simp)
  | some m' =>
      have heq : v.ident m'.root = v.ident m.root := by simpa using List.find?_some hfind
      rw [h.once m' (List.mem_of_find?_eq_some hfind) m hm heq]

theorem MountedOnce.up_enters (h : v.MountedOnce) {x y z : N} {c : Text}
    (henter : v.Enters x c (some y)) (hdir : v.kind y = .dir) (hz : v.up y = .ok z) : z = x := by
  have hent := henter.enter
  rw [enter] at hent
  cases hi : v.lookup x c with
  | error e =>
      rw [hi] at hent
      cases e <;> cases hent
  | ok i =>
      rw [hi] at hent
      obtain rfl : v.crossMount i = y := Option.some.inj (Except.ok.inj hent)
      obtain ⟨hroot, hroots⟩ := h.apart henter.isName hi
      have hunder : v.uncrossMount (v.crossMount i) = i ∧ v.kind i = .dir := by
        rw [crossMount] at hdir ⊢
        cases hfind : v.mounts.reverse.find? (·.on = v.ident i) with
        | none =>
            rw [hfind] at hdir
            exact ⟨uncrossMount_of_forall_ne hroots, hdir⟩
        | some m =>
            have hm := List.mem_reverse.mp (List.mem_of_find?_eq_some hfind)
            obtain ⟨hon, hmdir⟩ := h.on_eq m hm
            have hmi : m.mountpoint = i :=
              h.ident_inj (hon.symm.trans (by simpa using List.find?_some hfind))
            exact ⟨(h.uncrossMount_root hm).trans hmi, hmi ▸ hmdir⟩
      rw [up, hunder.1, if_neg hroot] at hz
      exact h.back henter.isName hi hunder.2 hz

/-- Where nothing is mounted twice, `..` leads back. -/
theorem MountedOnce.leadsBack (h : v.MountedOnce) : v.LeadsBack where
  root _ z hz := by
    rw [up, uncrossMount_of_forall_ne h.root_ne, if_pos rfl] at hz
    exact (Except.ok.inj hz).symm
  dir _ henter hdir _ hz := h.up_enters henter hdir hz

/-- A file system that is mounted at `/dev`. -/
def oneMount : Vfs (Fin 3) where
  root := 0
  ident n := (if n = 2 then 1 else 0, n)
  kind _ := .dir
  lookup n name :=
    if name = "..".toList then .ok (if n = 2 then 2 else 0)
    else if n = 0 ∧ name = "dev".toList then .ok 1
    else .error .ENOENT
  readlink _ := .error .EINVAL
  lookup_up _ := rfl
  mounts := [⟨(0, 1), 1, 2, "/dev".toList⟩]

theorem oneMount_lookup {x i : Fin 3} {c : Text} (hc : IsName c) (h : oneMount.lookup x c = .ok i) :
    x = 0 ∧ i = 1 := by
  change (if c = "..".toList then _ else _) = _ at h
  rw [if_neg hc.ne_up] at h
  split at h
  · next hdev => exact ⟨hdev.1, (Except.ok.inj h).symm⟩
  · cases h

theorem leadsBack_oneMount : oneMount.LeadsBack := by
  refine MountedOnce.leadsBack ⟨fun a b => ?_, fun hc h _ hz => ?_, by decide, by decide, by decide,
    fun hc h => ?_⟩
  · revert a b
    decide
  · obtain ⟨rfl, rfl⟩ := oneMount_lookup hc h
    exact (Except.ok.inj hz).symm
  · obtain ⟨rfl, rfl⟩ := oneMount_lookup hc h
    decide

/-- A file system at `/dev` that is mounted on `/a/mnt` again. -/
def twoMounts : Vfs (Fin 5) where
  root := 0
  ident n := (if n = 4 then 1 else 0, n)
  kind _ := .dir
  lookup n name :=
    if name = "..".toList then .ok (if n = 2 then 1 else if n = 4 then 4 else 0)
    else if n = 0 ∧ name = "a".toList then .ok 1
    else if n = 1 ∧ name = "mnt".toList then .ok 2
    else if n = 0 ∧ name = "dev".toList then .ok 3
    else .error .ENOENT
  readlink _ := .error .EINVAL
  lookup_up _ := rfl
  mounts := [⟨(0, 3), 3, 4, "/dev".toList⟩, ⟨(0, 2), 2, 4, "/a/mnt".toList⟩]

/-- Up from the later mount point leads to the directory above the earlier one. -/
theorem not_resolves : ¬ twoMounts.Resolves := by
  intro h
  obtain ⟨r', hr', hsame⟩ := h.same (fun _ => Kind.noConfusion) 0 "/a/mnt/..".toList true
    ⟨4, some 0, "..".toList⟩ (by decide) (by decide) 0 true
  have hnormal : twoMounts.resolvePath 0 (normalize "/a/mnt/..".toList) true =
      some (.ok ⟨0, some 1, "a".toList⟩) := by decide
  rw [hnormal] at hr'
  rw [← Except.ok.inj (Option.some.inj hr')] at hsame
  exact absurd hsame (by decide)

end Vfs

end MindOS.Kernel.Fs
