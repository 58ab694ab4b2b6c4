import MindOS.Games.Moves

/-!
# Moving a game is not all or nothing

After a call that fails before it has put the copy in its place, or in the removal at the end
of the way to cold storage, the game is where it was or where it is to be, and the next call
goes through. Between the two a failure leaves the copy, the link and the record at odds.
-/

namespace MindOS.Games.Storage

open Commands

section

variable (sys : System) (g : Game)

/-! ### What is asked of a call -/

/-- The launcher's path shows `t`, and the index says so: the game is in it exactly if the path
is a link to its cold copy. -/
inductive Settled (w : World) (t : Tree) : Prop where
  | warm (dir : w.disk g.path = some (.dir t)) (index : w.index g.id = none)
  | cold (base : List Text) (link : w.disk g.path = some (.link (g.coldPath base)))
      (dir : w.disk (g.coldPath base) = some (.dir t))
      (index : w.index g.id = some ⟨g.path, g.coldPath base⟩)
      (outside : Path.within base g.path.parts = false) (movable : movable sys g.path = true)

def SameFiles (t t' : Tree) : Prop :=
  t' = t ∨ ∃ m m', manifest sys t = .ok m ∧ manifest sys t' = .ok m' ∧ m'.Perm m

/-- The paths that have to be free for a call. -/
def Game.ways (c : Call) : List Path :=
  if c.restore then [oldLink g.path]
  else g.backup :: (c.base.map g.coldPath).toList

/-- Something is at a path that is no part of the game. -/
def Stray (w : World) (p : Path) : Bool :=
  (w.disk p).isSome && decide (p ≠ g.path) && (w.index g.id).all fun r => decide (p ≠ r.cold)

/-- `w'` without what stood in the way in `w`. -/
def cleared (w w' : World) (c : Call) : World :=
  { w' with disk := fun p => if p ∈ g.ways c ∧ Stray g w p then none else w'.disk p }

/-- A call for the other place that nothing keeps from it: there is room, the copy is good, and
the folders are the right ones. -/
structure Clear (w : World) (t : Tree) (c : Call) : Prop where
  raises : ∀ op, c.raises op = false
  restore : c.restore = (w.index g.id).isSome
  copied : c.copied = t
  plain : ∃ m, manifest sys t = .ok m
  space : bytesIn t + 64 * 1024 * 1024 < c.free
  base : c.restore = false → movable sys g.path = true ∧ ∃ base, c.base = some base ∧
    Path.within base g.path.parts = false ∧ g.coldPath base ≠ g.path
  stage : ∀ p, plan sys g w c = .ok p → w.disk (stagePath p.destination c.now) = none

/-- After a call: the files are all there, the index is right, and once what stood in the way
is gone a call goes through. -/
def Good (w : World) (t : Tree) (w' : World) : Prop :=
  ∃ t', SameFiles sys t t' ∧ Settled sys g w' t' ∧
    ∀ c, Clear sys g (cleared g w w' c) t' c →
      Ends (relocate sys g c) (cleared g w w' c) (fun _ _ => True) fun _ _ => False

def after (c : Call) (w : World) : World :=
  match relocate sys g c w with
  | .ok _ w' => w'
  | .error _ w' => w'

/-- From there on nothing fails whose undoing the code leaves out. -/
def Sound (w : World) (c : Call) : Prop :=
  Copied sys g w c →
    if c.restore then
      w.disk (oldLink g.path) = none → c.raises .aside = false →
        if c.raises .place then c.raises .back = false
        else c.raises .unlink = false ∧ c.raises .record = false ∧ c.raises .remove = false
    else
      c.raises .place = false → w.disk g.backup = none ∧ c.raises .aside = false ∧
        c.raises .link = false ∧ c.raises .record = false

end

/-! ### When the next call goes through -/

section Good

variable {sys : System} {g : Game} {c : Call} {w w' : World} {t t' : Tree} {base : List Text}
  {p : Path}

theorem cleared_of_not_way (h : p ∉ g.ways c) : (cleared g w w' c).disk p = w'.disk p :=
  if_neg fun hand => h hand.1

theorem cleared_path : (cleared g w w' c).disk g.path = w'.disk g.path := by
  refine if_neg fun hand => ?_
  have hstray := hand.2
  rw [Stray, decide_eq_false (not_not_intro rfl), Bool.and_false, Bool.false_and] at hstray
  cases hstray

theorem cleared_way (hp : p ∈ g.ways c) (hfree : w'.disk p = none ∨ Stray g w p = true) :
    (cleared g w w' c).disk p = none := by
  rcases hfree with hnone | hstray
  · exact (ite_eq_left_iff.mpr fun _ => hnone)
  · exact if_pos ⟨hp, hstray⟩

/-- What was at a path before the call is no part of the game there. -/
theorem stray_of_same (hsame : w'.disk p = w.disk p) (hpath : p ≠ g.path)
    (hcold : ∀ r, w.index g.id = some r → p ≠ r.cold) :
    w'.disk p = none ∨ Stray g w p = true := by
  cases hp : w.disk p with
  | none => exact .inl (hsame.trans hp)
  | some n =>
      refine .inr ?_
      rw [Stray, hp, Option.isSome_some, Bool.true_and, decide_eq_true hpath, Bool.true_and]
      cases hr : w.index g.id with
      | none => rfl
      | some r => exact decide_eq_true (hcold r hr)

theorem planArchive_of_free (hdir : w.disk g.path = some (.dir t))
    (hmovable : movable sys g.path = true) (hbase : c.base = some base)
    (houtside : Path.within base g.path.parts = false) :
    planArchive sys g w c = if (w.disk (g.coldPath base)).isSome then
      .error (.value "Cold destination already exists")
    else .ok (planned w c g.path (g.coldPath base)) := by
  have hlink := Disk.isSymlink_of_dir hdir
  rw [planArchive, Disk.resolve_eq_self hlink, hmovable, hlink, hbase]
  simp only [houtside, Disk.there_or_isSymlink, Bool.not_true, Bool.false_eq_true, if_false]

/-- A call that nothing keeps from it has its copy. -/
theorem Clear.copy (hc : Clear sys g w t c) {p : Plan} (hp : plan sys g w c = .ok p)
    (hplanned : p = planned w c p.source p.destination)
    (hsrc : w.disk p.source = some (.dir t)) : Copied sys g w c := by
  obtain ⟨m, hm⟩ := hc.plain
  have hspace := hc.space
  refine ⟨hc.raises _, hc.raises _, ⟨p, hp, ?_, hc.raises _, hc.raises _, hc.stage p hp, m, m, ?_,
    ?_, List.Perm.refl m⟩, hc.raises _, hc.raises _⟩
  · rw [hplanned, planned, walk_of_dir hsrc]
    exact decide_eq_true hspace
  · rwa [walk_of_dir hsrc]
  · rwa [hc.copied]

/-- A game that is where its launcher looks for it can be put away. -/
theorem archive_goes (hdir : w.disk g.path = some (.dir t)) (hindex : w.index g.id = none)
    (hc : Clear sys g w t c) (hways : ∀ p ∈ g.ways c, w.disk p = none) :
    Ends (relocate sys g c) w (fun _ _ => True) fun _ _ => False := by
  have hrestore : c.restore = false := by rw [hc.restore, hindex, Option.isSome_none]
  obtain ⟨hmovable, base, hbase, houtside, hself⟩ := hc.base hrestore
  rw [Game.ways, hrestore, hbase] at hways
  have hbackup := hways g.backup (List.mem_cons_self)
  have hcold := hways (g.coldPath base) (List.mem_cons_of_mem _ List.mem_cons_self)
  have hplan : plan sys g w c = .ok (planned w c g.path (g.coldPath base)) := by
    rw [plan, hrestore]
    exact (planArchive_of_free hdir hmovable hbase houtside).trans
      (if_neg (by rw [hcold]; exact Bool.false_ne_true))
  have hcopied := hc.copy hplan rfl hdir
  refine ends_relocate (fun p hp => ?_) (fun hnot => absurd hcopied hnot)
    (fun hnot => absurd hcopied hnot) fun _ p hp hfree => ?_
  · cases hplan.symm.trans hp
    exact ⟨t, hdir⟩
  · cases hplan.symm.trans hp
    have hno : ∀ {op} {Q : Prop}, c.raises op = true → Q := fun hop =>
      absurd ((hc.raises _).symm.trans hop) Bool.false_ne_true
    have hpathStage : g.path ≠ stagePath (g.coldPath base) c.now := by
      rintro heq
      have hstage := hc.stage _ hplan
      change w.disk (stagePath (g.coldPath base) c.now) = none at hstage
      rw [← heq, hdir] at hstage
      cases hstage
    have hput : ∀ {q}, q ≠ stagePath (g.coldPath base) c.now →
        w.disk.put (stagePath (g.coldPath base) c.now) (.dir c.copied) q = w.disk q :=
      fun hq => Disk.put_of_ne hq
    rw [move, hrestore, if_neg Bool.false_ne_true]
    refine ends_putAway (t := t) Disk.put_self ((hput hpathStage).trans hdir)
      ((hput stagePath_ne_coldPath.symm).trans hcold) hpathStage backup_ne_coldPath
      stagePath_ne_backup.symm rfl rfl rfl rfl hno (fun _ hne => ?_) fun _ _ =>
      ⟨hno, fun _ => hno, fun _ => hno, fun _ _ => hno, fun _ _ _ => ⟨hno, fun _ =>
        ⟨fun _ => trivial, hno⟩⟩⟩
    exact absurd ((hput stagePath_ne_backup.symm).trans hbackup) hne

theorem planRestore_of_cold (hlink : w.disk g.path = some (.link p))
    (hdir : w.disk p = some (.dir t)) (hindex : w.index g.id = some ⟨g.path, p⟩) :
    planRestore g w c = .ok (planned w c p g.path) := by
  have hsymlink : w.disk.isSymlink g.path = true := by rw [Disk.isSymlink, hlink]
  have hresolve := Disk.resolve_of_link hlink hdir
  have hself := Disk.resolve_eq_self (Disk.isSymlink_of_dir hdir)
  rw [planRestore, hindex]
  simp [hsymlink, hresolve, hself]

theorem restore_goes (hlink : w.disk g.path = some (.link (g.coldPath base)))
    (hdir : w.disk (g.coldPath base) = some (.dir t))
    (hindex : w.index g.id = some ⟨g.path, g.coldPath base⟩) (hc : Clear sys g w t c)
    (hways : ∀ p ∈ g.ways c, w.disk p = none) :
    Ends (relocate sys g c) w (fun _ _ => True) fun _ _ => False := by
  have hrestore : c.restore = true := by rw [hc.restore, hindex, Option.isSome_some]
  rw [Game.ways, hrestore] at hways
  have hold := hways (oldLink g.path) List.mem_cons_self
  have hplan : plan sys g w c = .ok (planned w c (g.coldPath base) g.path) := by
    rw [plan, hrestore]
    exact planRestore_of_cold hlink hdir hindex
  have hcopied := hc.copy hplan rfl hdir
  refine ends_relocate (fun p hp => ?_) (fun hnot => absurd hcopied hnot)
    (fun hnot => absurd hcopied hnot) fun _ p hp hfree => ?_
  · cases hplan.symm.trans hp
    exact ⟨t, hdir⟩
  · cases hplan.symm.trans hp
    have hno : ∀ {op} {Q : Prop}, c.raises op = true → Q := fun hop =>
      absurd ((hc.raises _).symm.trans hop) Bool.false_ne_true
    have hpathStage : stagePath g.path c.now ≠ g.path := Path.suffixed_ne_self (by simp)
    have hput : ∀ {q}, q ≠ stagePath g.path c.now →
        w.disk.put (stagePath g.path c.now) (.dir c.copied) q = w.disk q :=
      fun hq => Disk.put_of_ne hq
    rw [move, hrestore, if_pos rfl]
    refine ends_bringBack (t := t) Disk.put_self ((hput hpathStage.symm).trans hlink)
      ((hput stagePath_ne_coldPath.symm).trans hdir) hpathStage stagePath_ne_coldPath.symm
      stagePath_ne_oldLink oldLink_ne_coldPath.symm rfl rfl rfl rfl (fun hne => ?_) fun _ =>
      ⟨hno, fun _ => hno, fun _ => hno, fun _ _ => hno, fun _ _ _ => hno, fun _ _ _ _ =>
        ⟨hno, fun _ => ⟨fun _ => trivial, hno⟩⟩⟩
    exact absurd ((hput stagePath_ne_oldLink.symm).trans hold) hne

theorem good_of_warm (hsame : SameFiles sys t t') (hdir : w'.disk g.path = some (.dir t'))
    (hindex : w'.index g.id = none)
    (hbackup : w'.disk g.backup = none ∨ Stray g w g.backup = true)
    (hcold : ∀ base, g.coldPath base ≠ g.path →
      w'.disk (g.coldPath base) = none ∨ Stray g w (g.coldPath base) = true) :
    Good sys g w t w' := by
  refine ⟨t', hsame, .warm hdir hindex, fun c hc => ?_⟩
  have hrestore : c.restore = false := by
    rw [hc.restore]
    change (w'.index g.id).isSome = false
    rw [hindex, Option.isSome_none]
  obtain ⟨-, base, hbase, -, hself⟩ := hc.base hrestore
  refine archive_goes (cleared_path.trans hdir) hindex hc fun p hp => cleared_way hp ?_
  rw [Game.ways, hrestore, hbase] at hp
  rcases List.mem_cons.mp hp with rfl | hp
  · exact hbackup
  · rw [List.mem_singleton.mp hp]
    exact hcold base hself

theorem good_of_cold (hsame : SameFiles sys t t')
    (hlink : w'.disk g.path = some (.link (g.coldPath base)))
    (hdir : w'.disk (g.coldPath base) = some (.dir t'))
    (hindex : w'.index g.id = some ⟨g.path, g.coldPath base⟩)
    (houtside : Path.within base g.path.parts = false) (hmovable : movable sys g.path = true)
    (hold : w'.disk (oldLink g.path) = none ∨ Stray g w (oldLink g.path) = true) :
    Good sys g w t w' := by
  refine ⟨t', hsame, .cold base hlink hdir hindex houtside hmovable, fun c hc => ?_⟩
  have hrestore : c.restore = true := by
    rw [hc.restore]
    change (w'.index g.id).isSome = true
    rw [hindex, Option.isSome_some]
  have hways : g.ways c = [oldLink g.path] := by rw [Game.ways, hrestore, if_pos rfl]
  have hdir' : (cleared g w w' c).disk (g.coldPath base) = some (.dir t') := by
    rw [cleared_of_not_way, hdir]
    rw [hways, List.mem_singleton]
    exact oldLink_ne_coldPath.symm
  refine restore_goes (cleared_path.trans hlink) hdir' hindex hc fun p hp => cleared_way hp ?_
  rw [hways] at hp
  rw [List.mem_singleton.mp hp]
  exact hold

theorem good_of_same (h : Settled sys g w t) (hindex : w'.index = w.index)
    (hdisk : ∀ p, (∀ dst, stagePath dst c.now ≠ p) ∨ p = g.path → w'.disk p = w.disk p) :
    Good sys g w t w' := by
  have hpath := hdisk g.path (.inr rfl)
  have hback := hdisk g.backup (.inl fun _ => stagePath_ne_backup)
  have hold := hdisk (oldLink g.path) (.inl fun _ => stagePath_ne_oldLink)
  have hcolds : ∀ base, w'.disk (g.coldPath base) = w.disk (g.coldPath base) := fun base =>
    hdisk _ (.inl fun _ => stagePath_ne_coldPath)
  cases h with
  | warm hdir hnone =>
      have hany : ∀ {p : Path} r, w.index g.id = some r → p ≠ r.cold := fun r hr => by
        cases hnone.symm.trans hr
      refine good_of_warm (.inl rfl) (hpath.trans hdir) (hindex ▸ hnone)
        (stray_of_same hback backup_ne_path hany) fun base hself => ?_
      exact stray_of_same (hcolds base) hself hany
  | cold base hlink hdir hsome houtside hmovable =>
      refine good_of_cold (.inl rfl) (hpath.trans hlink) ((hcolds base).trans hdir)
        (hindex ▸ hsome) houtside hmovable ?_
      refine stray_of_same hold oldLink_ne_self fun r hr => ?_
      cases hsome.symm.trans hr
      exact oldLink_ne_coldPath

/-- A copy that was left in its place keeps the game from going there. -/
theorem not_good_of_leftover (hdir : w'.disk g.path = some (.dir t'))
    (hindex : w'.index g.id = none)
    (hplain : ∃ m, manifest sys t' = .ok m) (hmovable : movable sys g.path = true)
    (houtside : Path.within base g.path.parts = false) (hself : g.coldPath base ≠ g.path)
    (hleft : (w'.disk (g.coldPath base)).isSome = true)
    (hstray : Stray g w (g.coldPath base) = false) : ¬Good sys g w t w' := by
  rintro ⟨u, -, hsettled, hnext⟩
  obtain rfl : u = t' := by
    cases hsettled with
    | warm hu _ => cases hu.symm.trans hdir; rfl
    | cold base hlink => cases hlink.symm.trans hdir
  let c : Call := ⟨false, some base, bytesIn u + 64 * 1024 * 1024 + 1, 0, u, .empty, fun _ => false⟩
  have hplan : plan sys g (cleared g w w' c) c =
      .error (.value "Cold destination already exists") := by
    have hbase : c.base = some base := rfl
    refine (planArchive_of_free (cleared_path.trans hdir) hmovable hbase houtside).trans (if_pos ?_)
    have hkeep : (cleared g w w' c).disk (g.coldPath base) = w'.disk (g.coldPath base) := by
      refine if_neg fun hand => ?_
      cases hstray.symm.trans hand.2
    rw [hkeep, hleft]
  have hclear : Clear sys g (cleared g w w' c) u c := by
    refine ⟨fun _ => rfl, ?_, rfl, hplain, Nat.lt_succ_self _, fun _ =>
      ⟨hmovable, base, rfl, houtside, hself⟩, fun p hp => ?_⟩
    · change false = (w'.index g.id).isSome
      rw [hindex, Option.isSome_none]
    · cases hplan.symm.trans hp
  have hends := hnext c hclear
  rw [relocate, ends_bind, ends_pass] at hends
  have hends := hends.1 rfl
  rw [ends_bind, ends_pass] at hends
  have hends := hends.1 rfl
  rw [ends_bind, ends_get, ends_bind, ends_result] at hends
  exact hends.2 _ hplan

theorem not_good_of_unsettled (h : ∀ t', ¬Settled sys g w' t') : ¬Good sys g w t w' :=
  fun ⟨t', _, hsettled, _⟩ => h t' hsettled

theorem not_settled_of_none (h : w.disk g.path = none) : ¬Settled sys g w t := by
  rintro (⟨hdir, -⟩ | ⟨base, hlink, -⟩)
  · cases h.symm.trans hdir
  · cases h.symm.trans hlink

theorem not_settled_of_link (h : w.disk g.path = some (.link p)) (hindex : w.index g.id = none) :
    ¬Settled sys g w t := by
  rintro (⟨hdir, -⟩ | ⟨base, -, -, hsome, -, -⟩)
  · cases h.symm.trans hdir
  · cases hindex.symm.trans hsome

theorem not_settled_of_dir {r : Record} (h : w.disk g.path = some (.dir t'))
    (hindex : w.index g.id = some r) : ¬Settled sys g w t := by
  rintro (⟨-, hnone⟩ | ⟨base, hlink, -⟩)
  · cases hindex.symm.trans hnone
  · cases h.symm.trans hlink

theorem Verified.sameFiles (h : Verified sys w c t p) : SameFiles sys t c.copied := by
  obtain ⟨-, -, -, m, m', hm, hm', hperm⟩ := h
  exact .inr ⟨m, m', hm, hm', hperm⟩

end Good

/-! ### Every call -/

section Calls

variable {sys : System} {g : Game} {c : Call} {w : World} {t : Tree} {base : List Text} {p : Plan}

theorem plan_of_warm (hdir : w.disk g.path = some (.dir t)) (hindex : w.index g.id = none)
    (hp : plan sys g w c = .ok p) : c.restore = false ∧ movable sys g.path = true ∧
      ∃ base, Path.within base g.path.parts = false ∧ w.disk (g.coldPath base) = none ∧
        p = planned w c g.path (g.coldPath base) := by
  have hlink := Disk.isSymlink_of_dir hdir
  have hself := Disk.resolve_eq_self hlink
  rw [plan] at hp
  split at hp
  · rw [planRestore, hindex] at hp
    cases hp
  · next hrestore =>
      rw [planArchive, hself] at hp
      split at hp
      · cases hp
      · next hmovable =>
          split at hp
          · cases hp
          · split at hp
            · cases hp
            · next base hbase =>
                split at hp
                · cases hp
                · next houtside =>
                    split at hp
                    · cases hp
                    · next hfree =>
                        cases hp
                        rw [Disk.there_or_isSymlink, Bool.not_eq_true,
                          Option.isSome_eq_false_iff, Option.isNone_iff_eq_none] at hfree
                        rw [Bool.not_eq_true', Bool.not_eq_false] at hmovable
                        exact ⟨Bool.eq_false_iff.mpr hrestore, hmovable, base,
                          Bool.eq_false_iff.mpr houtside, hfree, rfl⟩

theorem plan_of_cold (hlink : w.disk g.path = some (.link (g.coldPath base)))
    (hindex : w.index g.id = some ⟨g.path, g.coldPath base⟩)
    (hp : plan sys g w c = .ok p) :
    c.restore = true ∧ p = planned w c (g.coldPath base) g.path := by
  have hsymlink : w.disk.isSymlink g.path = true := by rw [Disk.isSymlink, hlink]
  rw [plan] at hp
  split at hp
  · next hrestore =>
      rw [planRestore, hindex] at hp
      simp only at hp
      split at hp
      · cases hp
      · cases hp
        exact ⟨hrestore, rfl⟩
  · rw [planArchive, hsymlink] at hp
    split at hp
    · cases hp
    · cases hp

theorem archive_good_iff (hdir : w.disk g.path = some (.dir t)) (hindex : w.index g.id = none)
    (hcopied : Copied sys g w c) (hp : plan sys g w c = .ok p)
    (hfree : w.disk (stagePath p.destination c.now) = none) :
    Ends (move g c p (stagePath p.destination c.now))
      { w with disk := w.disk.put (stagePath p.destination c.now) (.dir c.copied) }
      (fun _ u => (c.raises .audit = false → (Good sys g w t u ↔ Sound sys g w c)) ∧
        (c.raises .audit = true → (Good sys g w t u ↔ Sound sys g w c)))
      fun _ u => Good sys g w t u ↔ Sound sys g w c := by
  obtain ⟨hrestore, hmovable, base, houtside, hcold, rfl⟩ := plan_of_warm hdir hindex hp
  have hverified : Verified sys w c t (stagePath (g.coldPath base) c.now) := by
    obtain ⟨-, -, ⟨p, hp', -, hv⟩, -⟩ := hcopied
    cases hp'.symm.trans hp
    rwa [planned, walk_of_dir hdir] at hv
  have hplain : ∃ m, manifest sys t = .ok m := by
    obtain ⟨-, -, -, m, -, hm, -⟩ := hverified
    exact ⟨m, hm⟩
  have hsame := hverified.sameFiles
  change w.disk (stagePath (g.coldPath base) c.now) = none at hfree
  change Ends (move g c _ (stagePath (g.coldPath base) c.now)) ⟨w.disk.put
    (stagePath (g.coldPath base) c.now) (.dir c.copied), w.index⟩ _ _
  generalize hstage : stagePath (g.coldPath base) c.now = stage at *
  have hstageBack : g.backup ≠ stage := hstage ▸ stagePath_ne_backup.symm
  have hstageOld : oldLink g.path ≠ stage := hstage ▸ stagePath_ne_oldLink.symm
  have hstageCold : g.coldPath base ≠ stage := hstage ▸ stagePath_ne_coldPath.symm
  have hpathStage : g.path ≠ stage := by
    rintro heq
    rw [heq, hfree] at hdir
    cases hdir
  have hself : g.coldPath base ≠ g.path := by
    rintro heq
    rw [heq, hdir] at hcold
    cases hcold
  have hsound : Sound sys g w c ↔ (c.raises .place = false → w.disk g.backup = none ∧
      c.raises .aside = false ∧ c.raises .link = false ∧ c.raises .record = false) := by
    rw [Sound, hrestore, if_neg Bool.false_ne_true]
    exact ⟨fun h => h hcopied, fun h _ => h⟩
  have hstray : Stray g w (g.coldPath base) = false := by
    rw [Stray, hcold, Option.isSome_none, Bool.false_and, Bool.false_and]
  rw [move, hrestore, if_neg Bool.false_ne_true, hsound]
  -- the disk with the copy beside its place, and after each operation from there
  obtain ⟨copy, hcopy⟩ : ∃ d, d = w.disk.put stage (.dir c.copied) := ⟨_, rfl⟩
  obtain ⟨placed, hplaced⟩ : ∃ d, d = moved copy stage (g.coldPath base) (.dir c.copied) :=
    ⟨_, rfl⟩
  obtain ⟨aside, haside⟩ : ∃ d, d = moved placed g.path g.backup (.dir t) := ⟨_, rfl⟩
  obtain ⟨linked, hlinked⟩ : ∃ d, d = aside.put g.path (.link (g.coldPath base)) := ⟨_, rfl⟩
  obtain ⟨undone, hundone⟩ : ∃ d, d = moved aside g.backup g.path (.dir t) := ⟨_, rfl⟩
  have hcopySame : ∀ {q}, q ≠ stage → copy q = w.disk q := fun hq => by
    rw [hcopy, Disk.put_of_ne hq]
  have hplacedSame : ∀ {q}, q ≠ stage → q ≠ g.coldPath base → placed q = w.disk q :=
    fun hq hq' => by
      rw [hplaced, moved, Disk.put_of_ne hq', Disk.remove_of_ne hq, hcopySame hq]
  have hplacedCold : placed (g.coldPath base) = some (.dir c.copied) := by
    rw [hplaced, moved, Disk.put_self]
  have hasideSame : ∀ {q}, q ≠ g.path → q ≠ g.backup → aside q = placed q := fun hq hq' => by
    rw [haside, moved, Disk.put_of_ne hq', Disk.remove_of_ne hq]
  have hasidePath : aside g.path = none := by
    rw [haside, moved, Disk.put_of_ne backup_ne_path.symm, Disk.remove_self]
  have hundoneCold : undone (g.coldPath base) = some (.dir c.copied) := by
    rw [hundone, moved, Disk.put_of_ne hself, Disk.remove_of_ne backup_ne_coldPath.symm,
      hasideSame hself backup_ne_coldPath.symm, hplacedCold]
  have hleft : ∀ {d : Disk}, d g.path = some (.dir t) →
      d (g.coldPath base) = some (.dir c.copied) → ¬Good sys g w t ⟨d, w.index⟩ := by
    intro d hd hl
    refine not_good_of_leftover hd hindex hplain hmovable houtside hself ?_ hstray
    change (d (g.coldPath base)).isSome = true
    rw [hl, Option.isSome_some]
  have hplacedLeft := hleft ((hplacedSame hpathStage hself.symm).trans hdir) hplacedCold
  rw [← hcopy]
  refine ends_putAway (hcopy ▸ Disk.put_self) ((hcopySame hpathStage).trans hdir)
    ((hcopySame hstageCold).trans hcold) hpathStage backup_ne_coldPath hstageBack hplaced haside
    hlinked rfl (fun hplace => ?_) (fun hplace hne e => ?_) fun hplace hnone => ?_
  · refine iff_of_true (good_of_same (c := c) (.warm hdir hindex) rfl fun q hq => ?_) fun hgo => ?_
    · rcases hq with hq | rfl
      · exact hcopySame (hstage ▸ hq _).symm
      · exact hcopySame hpathStage
    · cases hplace.symm.trans hgo
  · exact iff_of_false hplacedLeft fun h => hne ((hcopySame hstageBack).trans (h hplace).1)
  · have hback : w.disk g.backup = none := (hcopySame hstageBack).symm.trans hnone
    rw [← hundone]
    refine ⟨fun haside => ?_, fun _ hlink _ => ?_, fun _ hlink _ => ?_, fun _ _ hrecord => ?_,
      fun haside hlink hrecord => ?_⟩
    · refine iff_of_false hplacedLeft fun h => ?_
      cases haside.symm.trans (h hplace).2.1
    · refine iff_of_false (not_good_of_unsettled fun t' => not_settled_of_none hasidePath)
        fun h => ?_
      cases hlink.symm.trans (h hplace).2.2.1
    · refine iff_of_false (hleft ?_ hundoneCold) fun h => ?_
      · rw [hundone, moved, Disk.put_self]
      · cases hlink.symm.trans (h hplace).2.2.1
    · refine iff_of_false (not_good_of_unsettled fun t' =>
        not_settled_of_link (p := g.coldPath base) ?_ hindex) fun h => ?_
      · exact hlinked ▸ Disk.put_self
      · cases hrecord.symm.trans (h hplace).2.2.2
    · have hcoldGood : ∀ {d : Disk}, (∀ {q}, q ≠ g.backup → d q = linked q) → Good sys g w t
          ⟨d, Function.update w.index g.id (some ⟨g.path, g.coldPath base⟩)⟩ := by
        intro d hd
        refine good_of_cold hsame ?_ ?_ (Function.update_self _ _ _) houtside hmovable ?_
        · exact (hd backup_ne_path.symm).trans (hlinked ▸ Disk.put_self)
        · refine (hd backup_ne_coldPath.symm).trans ?_
          rw [hlinked, Disk.put_of_ne hself, hasideSame hself backup_ne_coldPath.symm, hplacedCold]
        · refine stray_of_same ((hd backup_ne_oldLink.symm).trans ?_) oldLink_ne_self fun r hr => ?_
          · rw [hlinked, Disk.put_of_ne oldLink_ne_self,
              hasideSame oldLink_ne_self backup_ne_oldLink.symm,
              hplacedSame hstageOld oldLink_ne_coldPath]
          · cases hindex.symm.trans hr
      exact ⟨fun _ => iff_of_true (hcoldGood Disk.put_of_ne) fun _ =>
        ⟨hback, haside, hlink, hrecord⟩,
        fun _ => ⟨fun _ => iff_of_true (hcoldGood Disk.remove_of_ne) fun _ =>
            ⟨hback, haside, hlink, hrecord⟩,
          fun _ => iff_of_true (hcoldGood Disk.remove_of_ne) fun _ =>
            ⟨hback, haside, hlink, hrecord⟩⟩⟩

theorem restore_good_iff (hlink : w.disk g.path = some (.link (g.coldPath base)))
    (hdir : w.disk (g.coldPath base) = some (.dir t))
    (hindex : w.index g.id = some ⟨g.path, g.coldPath base⟩)
    (houtside : Path.within base g.path.parts = false) (hmovable : movable sys g.path = true)
    (hcopied : Copied sys g w c) (hp : plan sys g w c = .ok p)
    (hfree : w.disk (stagePath p.destination c.now) = none) :
    Ends (move g c p (stagePath p.destination c.now))
      { w with disk := w.disk.put (stagePath p.destination c.now) (.dir c.copied) }
      (fun _ u => (c.raises .audit = false → (Good sys g w t u ↔ Sound sys g w c)) ∧
        (c.raises .audit = true → (Good sys g w t u ↔ Sound sys g w c)))
      fun _ u => Good sys g w t u ↔ Sound sys g w c := by
  obtain ⟨hrestore, rfl⟩ := plan_of_cold hlink hindex hp
  have hverified : Verified sys w c t (stagePath g.path c.now) := by
    obtain ⟨-, -, ⟨p, hp', -, hv⟩, -⟩ := hcopied
    cases hp'.symm.trans hp
    rwa [planned, walk_of_dir hdir] at hv
  have hplain : ∃ m, manifest sys c.copied = .ok m := by
    obtain ⟨-, -, -, -, m, -, hm, -⟩ := hverified
    exact ⟨m, hm⟩
  have hsame := hverified.sameFiles
  change w.disk (stagePath g.path c.now) = none at hfree
  change Ends (move g c _ (stagePath g.path c.now)) ⟨w.disk.put
    (stagePath g.path c.now) (.dir c.copied), w.index⟩ _ _
  have hpathStage : g.path ≠ stagePath g.path c.now := (Path.suffixed_ne_self (by simp)).symm
  generalize hstage : stagePath g.path c.now = stage at *
  have hstageBack : g.backup ≠ stage := hstage ▸ stagePath_ne_backup.symm
  have hstageOld : oldLink g.path ≠ stage := hstage ▸ stagePath_ne_oldLink.symm
  have hstageCold : ∀ base, g.coldPath base ≠ stage := fun _ => hstage ▸ stagePath_ne_coldPath.symm
  have hself : g.coldPath base ≠ g.path := by
    rintro heq
    rw [heq, hlink] at hdir
    cases hdir
  have hsound : Sound sys g w c ↔ (w.disk (oldLink g.path) = none → c.raises .aside = false →
      if c.raises .place then c.raises .back = false
      else c.raises .unlink = false ∧ c.raises .record = false ∧ c.raises .remove = false) := by
    rw [Sound, hrestore, if_pos rfl]
    exact ⟨fun h => h hcopied, fun h _ => h⟩
  have hstray : Stray g w (g.coldPath base) = false := by
    rw [Stray, hindex, Option.all_some, decide_eq_false (not_not_intro rfl), Bool.and_false]
  rw [move, hrestore, if_pos rfl, hsound]
  -- the disk with the copy beside its place, and after each operation from there
  obtain ⟨copy, hcopy⟩ : ∃ d, d = w.disk.put stage (.dir c.copied) := ⟨_, rfl⟩
  obtain ⟨aside, haside⟩ : ∃ d, d = moved copy g.path (oldLink g.path)
      (.link (g.coldPath base)) := ⟨_, rfl⟩
  obtain ⟨placed, hplaced⟩ : ∃ d, d = moved aside stage g.path (.dir c.copied) := ⟨_, rfl⟩
  obtain ⟨unlinked, hunlinked⟩ : ∃ d, d = placed.remove (oldLink g.path) := ⟨_, rfl⟩
  have hcopySame : ∀ {q}, q ≠ stage → copy q = w.disk q := fun hq => by
    rw [hcopy, Disk.put_of_ne hq]
  have hasideSame : ∀ {q}, q ≠ stage → q ≠ g.path → q ≠ oldLink g.path → aside q = w.disk q :=
    fun hs hq hq' => by
      rw [haside, moved, Disk.put_of_ne hq', Disk.remove_of_ne hq, hcopySame hs]
  have hasidePath : aside g.path = none := by
    rw [haside, moved, Disk.put_of_ne oldLink_ne_self.symm, Disk.remove_self]
  have hplacedPath : placed g.path = some (.dir c.copied) := by
    rw [hplaced, moved, Disk.put_self]
  have hunlinkedSame : ∀ {q}, q ≠ stage → q ≠ g.path → q ≠ oldLink g.path →
      unlinked q = w.disk q := fun hs hq hq' => by
    rw [hunlinked, Disk.remove_of_ne hq', hplaced, moved, Disk.put_of_ne hq, Disk.remove_of_ne hs,
      hasideSame hs hq hq']
  have hunlinkedPath : unlinked g.path = some (.dir c.copied) := by
    rw [hunlinked, Disk.remove_of_ne oldLink_ne_self.symm, hplacedPath]
  have hcopyGood : Good sys g w t ⟨copy, w.index⟩ := by
    refine good_of_same (c := c) (.cold base hlink hdir hindex houtside hmovable) rfl fun q hq => ?_
    rcases hq with hq | rfl
    · exact hcopySame (hstage ▸ hq _).symm
    · exact hcopySame hpathStage
  rw [← hcopy]
  refine ends_bringBack (hcopy ▸ Disk.put_self) ((hcopySame hpathStage).trans hlink)
    ((hcopySame (hstageCold base)).trans hdir) hpathStage.symm (hstageCold base) hstageOld.symm
    oldLink_ne_coldPath.symm haside hplaced hunlinked rfl (fun hne e => ?_) fun hnone => ?_
  · exact iff_of_true hcopyGood fun hold => absurd ((hcopySame hstageOld).trans hold) hne
  · have hold : w.disk (oldLink g.path) = none := (hcopySame hstageOld).symm.trans hnone
    have hfails : ∀ {P : Prop}, c.raises .aside = false → c.raises .place = false →
        (c.raises .unlink = false ∧ c.raises .record = false ∧ c.raises .remove = false → P) →
        (w.disk (oldLink g.path) = none → c.raises .aside = false →
          if c.raises .place then c.raises .back = false
          else c.raises .unlink = false ∧ c.raises .record = false ∧ c.raises .remove = false) →
        P := fun haside hplace hP h => by
      have hrest := h hold haside
      rw [hplace, if_neg Bool.false_ne_true] at hrest
      exact hP hrest
    have hundone : Good sys g w t
        ⟨moved aside (oldLink g.path) g.path (.link (g.coldPath base)), w.index⟩ := by
      refine good_of_cold (.inl rfl) ?_ ?_ hindex houtside hmovable (.inl ?_)
      · exact Disk.put_self
      · refine (Disk.put_of_ne hself).trans ((Disk.remove_of_ne oldLink_ne_coldPath.symm).trans ?_)
        rw [hasideSame (hstageCold base) hself oldLink_ne_coldPath.symm, hdir]
      · exact (Disk.put_of_ne oldLink_ne_self).trans Disk.remove_self
    refine ⟨fun hset => ?_, fun hset hplace hback => ?_, fun hset hplace hback => ?_,
      fun hset hplace hunlink => ?_, fun hset hplace _ hrecord => ?_,
      fun hset hplace hunlink hrecord => ⟨fun hremove => ?_, fun hremove => ?_⟩⟩
    · refine iff_of_true hcopyGood fun _ haside => ?_
      cases hset.symm.trans haside
    · refine iff_of_false (not_good_of_unsettled fun t' => not_settled_of_none hasidePath)
        fun h => ?_
      have hrest := h hold hset
      rw [hplace, if_pos rfl] at hrest
      cases hback.symm.trans hrest
    · refine iff_of_true hundone fun _ _ => ?_
      rw [hplace, if_pos rfl]
      exact hback
    · refine iff_of_false (not_good_of_unsettled fun t' => not_settled_of_dir hplacedPath hindex)
        (hfails hset hplace fun hall => ?_)
      cases hunlink.symm.trans hall.1
    · refine iff_of_false (not_good_of_unsettled fun t' => not_settled_of_dir hunlinkedPath hindex)
        (hfails hset hplace fun hall => ?_)
      cases hrecord.symm.trans hall.2.1
    · refine iff_of_false (not_good_of_leftover
        ((Disk.put_of_ne hself.symm).trans hunlinkedPath) (Function.update_self _ _ _) hplain
        hmovable houtside hself ?_ hstray) (hfails hset hplace fun hall => ?_)
      · change ((unlinked.put (g.coldPath base) (.dir c.remains)) (g.coldPath base)).isSome = true
        rw [Disk.put_self, Option.isSome_some]
      · cases hremove.symm.trans hall.2.2
    · have hgood : Good sys g w t
          ⟨unlinked.remove (g.coldPath base), Function.update w.index g.id none⟩ := by
        refine good_of_warm hsame ?_ (Function.update_self _ _ _) ?_ fun base' hself' => ?_
        · exact (Disk.remove_of_ne hself.symm).trans hunlinkedPath
        · refine stray_of_same ((Disk.remove_of_ne backup_ne_coldPath).trans ?_) backup_ne_path
            fun r hr => ?_
          · exact hunlinkedSame hstageBack backup_ne_path backup_ne_oldLink
          · cases hindex.symm.trans hr
            exact backup_ne_coldPath
        · by_cases heq : g.coldPath base' = g.coldPath base
          · refine .inl ?_
            change unlinked.remove (g.coldPath base) (g.coldPath base') = none
            rw [heq, Disk.remove_self]
          · refine stray_of_same ((Disk.remove_of_ne heq).trans ?_) hself' fun r hr => ?_
            · exact hunlinkedSame (hstageCold base') hself' oldLink_ne_coldPath.symm
            · cases hindex.symm.trans hr
              exact heq
      have hall : w.disk (oldLink g.path) = none → c.raises .aside = false →
          if c.raises .place then c.raises .back = false
          else c.raises .unlink = false ∧ c.raises .record = false ∧ c.raises .remove = false := by
        rintro - -
        rw [hplace, if_neg Bool.false_ne_true]
        exact ⟨hunlink, hrecord, hremove⟩
      exact ⟨fun _ => iff_of_true hgood hall, fun _ => iff_of_true hgood hall⟩

theorem after_of_ends {Q : World → Prop}
    (h : Ends (relocate sys g c) w (fun _ u => Q u) fun _ u => Q u) : Q (after sys g c w) := by
  rw [Ends] at h
  rw [after]
  split at h <;> simp only [*]

/-- A game is where it was or where it is to be, whole and on record, and the next call goes
through, exactly if the call is sound. -/
theorem good_iff_sound (sys : System) (g : Game) (c : Call) (w : World) (t : Tree)
    (h : Settled sys g w t) : Good sys g w t (after sys g c w) ↔ Sound sys g w c := by
  have hbegun : ∀ {u}, ¬Copied sys g w c → Good sys g w t u →
      (Good sys g w t u ↔ Sound sys g w c) := fun hnot hgood =>
    iff_of_true hgood fun hcopied => absurd hcopied hnot
  refine after_of_ends (Q := fun u => Good sys g w t u ↔ Sound sys g w c) ?_
  refine ends_relocate (fun p hp => ?_) (fun hnot e => hbegun hnot ?_)
    (fun hnot p hp hfree e => hbegun hnot ?_) fun hcopied p hp hfree => ?_
  · cases h with
    | warm hdir hindex =>
        obtain ⟨-, -, base, -, -, rfl⟩ := plan_of_warm hdir hindex hp
        exact ⟨t, hdir⟩
    | cold base hlink hdir hindex houtside hmovable =>
        obtain ⟨-, rfl⟩ := plan_of_cold hlink hindex hp
        exact ⟨t, hdir⟩
  · exact good_of_same (c := c) h rfl fun _ _ => rfl
  · refine good_of_same (c := c) h rfl fun q hq => Disk.put_of_ne ?_
    rintro rfl
    rcases hq with hq | heq
    · exact hq _ rfl
    · rw [heq] at hfree
      cases h with
      | warm hdir => cases hdir.symm.trans hfree
      | cold base hlink => cases hlink.symm.trans hfree
  · cases h with
    | warm hdir hindex => exact archive_good_iff hdir hindex hcopied hp hfree
    | cold base hlink hdir hindex houtside hmovable =>
        exact restore_good_iff hlink hdir hindex houtside hmovable hcopied hp hfree

end Calls

/-! ### A game with one file -/

def sha256OfA : Text :=
  "ca978112ca1bbdcafac231b39a23dc4da786eff8147c4e72b9807785afee48bb"

def machine : System := ⟨fun _ => sha256OfA, ["home", "me"], ["home", "me", "data"]⟩

def dune : Game := ⟨"steam:10", ⟨"5a1c", by decide⟩, ⟨["games"], "dune"⟩⟩

def folder : Tree := ⟨[(["game.bin"], .file [0x61])], by decide⟩

/-- The game is in its place and nothing else is there. -/
def installed : World :=
  ⟨fun p => if p = dune.path then some (.dir folder) else none, fun _ => none⟩

/-- A call for cold storage in which one operation raises. -/
def failing (op : Op) : Call :=
  ⟨false, some ["cold"], 1000000000, 17, folder, folder, fun o => decide (o = op)⟩

theorem installed_settled : Settled machine dune installed folder := .warm rfl rfl

/-- The game is in cold storage. -/
def stored : World :=
  ⟨fun p => if p = dune.path then some (.link (dune.coldPath ["cold"]))
    else if p = dune.coldPath ["cold"] then some (.dir folder) else none,
    fun id => if id = dune.id then some ⟨dune.path, dune.coldPath ["cold"]⟩ else none⟩

/-- The copy cannot be put in its place, and the link goes back. -/
theorem good_iff_sound_dune : Good machine dune stored folder
    (after machine dune { failing .place with restore := true } stored) :=
  (good_iff_sound machine dune { failing .place with restore := true } stored folder
    (.cold ["cold"] rfl rfl rfl rfl rfl)).mpr fun _ _ _ => rfl

/-- The index cannot be written: the game is behind a link of which nothing is on record. -/
theorem not_always_good : ¬∀ (sys : System) (g : Game) (c : Call) (w : World) (t : Tree),
    Settled sys g w t → Good sys g w t (after sys g c w) := by
  intro hall
  refine not_good_of_unsettled (fun t' => ?_)
    (hall machine dune (failing .record) installed folder installed_settled)
  refine not_settled_of_link (p := dune.coldPath ["cold"]) ?_ ?_
  · rfl
  · rfl

end MindOS.Games.Storage
