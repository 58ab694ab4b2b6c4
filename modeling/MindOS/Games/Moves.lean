import MindOS.Games.Storage

/-!
# The operations of a move

Where a call stops, and what the disk and the index are then: before it has a verified copy,
and after each operation from there to the end.
-/

namespace MindOS.Games.Storage

open Commands

section

variable (sys : System) (g : Game)

/-- The copy of a folder succeeds and has the same manifest. -/
def Verified (w : World) (c : Call) (t : Tree) (dst : Path) : Prop :=
  c.raises .stage = false ∧ c.raises .copy = false ∧ w.disk dst = none ∧
    ∃ m m', manifest sys t = .ok m ∧ manifest sys c.copied = .ok m' ∧ m'.Perm m

/-- The call has a verified copy beside the place where it is to be. -/
def Copied (w : World) (c : Call) : Prop :=
  c.raises .stopped = false ∧ c.raises .plan = false ∧
    (∃ p, plan sys g w c = .ok p ∧ p.enoughSpace = true ∧
      Verified sys w c (w.disk.walk p.source) (stagePath p.destination c.now)) ∧
    c.raises .check = false ∧ c.raises .read = false

end

/-! ### Names -/

section Names

variable {g : Game} {p q : Path} {base : List Text} {n : Nat}

theorem dot_not_mem_coldPath : '.' ∉ (g.coldPath base).name := by
  intro hdot
  rcases List.mem_append.mp hdot with hdot | hdot
  · exact absurd hdot (by decide)
  · exact absurd (g.key.hex _ hdot) (by decide)

theorem stagePath_ne (hs : ¬(∃ c, q.name.getLast? = some c ∧ c.isDigit = true)) :
    stagePath p n ≠ q := by
  rintro rfl
  have hne := Nat.toDigits_ne_nil (n := n) (b := 10)
  refine hs ⟨(Nat.toDigits 10 n).getLast hne, ?_, ?_⟩
  · rw [stagePath, Path.suffixed, List.getLast?_append_of_ne_nil _ (by simp),
      List.getLast?_append_of_ne_nil _ hne, List.getLast?_eq_getLast_of_ne_nil hne]
  · exact Nat.isDigit_of_mem_toDigits (by decide) (by decide) (List.getLast_mem hne)

theorem stagePath_ne_backup : stagePath p n ≠ g.backup := by
  refine stagePath_ne ?_
  rintro ⟨c, hc, hdigit⟩
  rw [Game.backup, Path.suffixed, List.getLast?_append_of_ne_nil _ (by decide)] at hc
  cases hc
  exact absurd hdigit (by decide)

theorem stagePath_ne_oldLink : stagePath p n ≠ oldLink q := by
  refine stagePath_ne ?_
  rintro ⟨c, hc, hdigit⟩
  rw [oldLink, Path.suffixed, List.getLast?_append_of_ne_nil _ (by decide)] at hc
  cases hc
  exact absurd hdigit (by decide)

theorem stagePath_ne_coldPath : stagePath p n ≠ g.coldPath base :=
  Path.suffixed_ne_of_mem (c := '.') (List.mem_append_left _ (by decide)) dot_not_mem_coldPath

theorem backup_ne_coldPath : g.backup ≠ g.coldPath base :=
  Path.suffixed_ne_of_mem (c := '.') (by decide) dot_not_mem_coldPath

theorem oldLink_ne_coldPath : oldLink q ≠ g.coldPath base :=
  Path.suffixed_ne_of_mem (c := '.') (by decide) dot_not_mem_coldPath

theorem backup_ne_path : g.backup ≠ g.path := Path.suffixed_ne_self (by decide)

theorem oldLink_ne_self : oldLink q ≠ q := Path.suffixed_ne_self (by decide)

theorem backup_ne_oldLink : g.backup ≠ oldLink q :=
  Path.suffixed_ne_suffixed (by decide) (by decide) (by decide)

end Names

/-! ### The parts of a call -/

section Parts

variable {sys : System} {g : Game} {c : Call} {w : World} {t : Tree} {base : List Text}
  {src dst p : Path} {op : Op}

@[simp] theorem ends_onDisk {f : Disk → Option Disk} {P : PUnit → World → Prop}
    {Q : Err → World → Prop} : Ends (onDisk c op f) w P Q ↔
      (∀ d, c.raises op = false → f w.disk = some d → P ⟨⟩ { w with disk := d }) ∧
        (c.raises op = true ∨ f w.disk = none → Q .os w) := by
  rw [onDisk, ends_attempt, Option.map_eq_none_iff]
  refine and_congr_left fun _ => ⟨fun h d hc hd => ?_, fun h u hc hu => ?_⟩
  · exact h _ hc (by rw [hd, Option.map_some])
  · obtain ⟨d, hd, rfl⟩ := Option.map_eq_some_iff.mp hu
    exact h d hc hd

@[simp] theorem ends_pass {P : PUnit → World → Prop} {Q : Err → World → Prop} :
    Ends (pass c op) w P Q ↔
      (c.raises op = false → P ⟨⟩ w) ∧ (c.raises op = true → Q .os w) := by
  simp [pass]

@[simp] theorem ends_writeIndex {r : Option Record} {P : PUnit → World → Prop}
    {Q : Err → World → Prop} : Ends (writeIndex g c r) w P Q ↔
      (c.raises .record = false → P ⟨⟩ { w with index := Function.update w.index g.id r }) ∧
        (c.raises .record = true → Q .os w) := by
  simp [writeIndex]

theorem ends_rmtree {P : PUnit → World → Prop} {Q : Err → World → Prop}
    (h : w.disk p = some (.dir t)) : Ends (rmtree c p) w P Q ↔
      (c.raises .remove = false → P ⟨⟩ { w with disk := w.disk.remove p }) ∧
        (c.raises .remove = true →
          Q .os { w with disk := w.disk.put p (.dir c.remains) }) := by
  rw [rmtree, ends_bind, ends_get, ends_bind, ends_ensure, h]
  simp

theorem walk_of_dir {d : Disk} (h : d p = some (.dir t)) : d.walk p = t := by
  rw [Disk.walk, Disk.tree?_of_dir h, Option.getD_some]

/-- A copy is verified, or it is left beside the place, or nothing has happened. -/
theorem ends_verifiedCopy {P : PUnit → World → Prop} {Q : Err → World → Prop}
    (hsrc : w.disk src = some (.dir t))
    (hgood : Verified sys w c t dst → P ⟨⟩ { w with disk := w.disk.put dst (.dir c.copied) })
    (hbad : ¬Verified sys w c t dst → ∀ e, Q e w)
    (hleft : ¬Verified sys w c t dst → w.disk dst = none → ∀ e,
      Q e { w with disk := w.disk.put dst (.dir c.copied) }) :
    Ends (verifiedCopy sys c src dst) w P Q := by
  rw [verifiedCopy, ends_bind, ends_get, ends_bind, ends_ensure, Disk.there_or_isSymlink]
  refine ⟨fun hfree => ?_, fun hthere => hbad (fun hv => ?_) _⟩
  · rw [Bool.not_eq_true', Option.isSome_eq_false_iff, Option.isNone_iff_eq_none] at hfree
    have hne : src ≠ dst := by
      rintro rfl
      rw [hsrc] at hfree
      cases hfree
    have hsrc' : (w.disk.put dst (.dir c.copied)) src = some (.dir t) :=
      (Disk.put_of_ne hne).trans hsrc
    rw [ends_bind, ends_pass]
    refine ⟨fun hstage => ?_, fun hstage => hbad (fun hv => ?_) _⟩
    · rw [ends_bind, ends_result, walk_of_dir hsrc]
      refine ⟨fun m hm => ?_, fun e he => hbad (fun hv => ?_) _⟩
      · rw [ends_bind, copytree, ends_attemptPart]
        refine ⟨fun hcopy => ?_, fun hcopy => hleft (fun hv => ?_) hfree _⟩
        · rw [ends_bind, ends_get, ends_bind, ends_result, walk_of_dir Disk.put_self]
          refine ⟨fun m' hm' => ?_, fun e he => hleft (fun hv => ?_) hfree _⟩
          · rw [ends_bind, ends_result, walk_of_dir hsrc', hm]
            refine ⟨fun m'' hm'' => ?_, fun e he => by cases he⟩
            cases hm''
            rw [ends_ensure]
            refine ⟨fun hsame => hgood ⟨hstage, hcopy, hfree, m, m', hm, hm', ?_⟩,
              fun hdiff => hleft (fun hv => ?_) hfree _⟩
            · exact of_decide_eq_true (Bool.and_eq_true_iff.mp hsame).1
            · obtain ⟨-, -, -, a, b, ha, hb, hperm⟩ := hv
              cases ha.symm.trans hm
              cases hb.symm.trans hm'
              rw [decide_eq_true hperm, decide_eq_true (List.Perm.refl _)] at hdiff
              cases hdiff
          · obtain ⟨-, -, -, m, m', -, hm', -⟩ := hv
            cases he.symm.trans hm'
        · cases hcopy.symm.trans hv.2.1
      · obtain ⟨-, -, -, m, m', hm, -⟩ := hv
        cases he.symm.trans hm
    · cases hstage.symm.trans hv.1
  · rw [hv.2.2.1] at hthere
    cases hthere

/-- The disk after `n` has gone from one path to another. -/
def moved (d : Disk) (src dst : Path) (n : Node) : Disk := (d.remove src).put dst n

theorem ends_move_of_free {q : Path} {n : Node} {P : PUnit → World → Prop} {Q : Err → World → Prop}
    (hp : w.disk p = some n) (hq : w.disk q = none) :
    Ends (onDisk c op (·.rename p q)) w P Q ↔
      (c.raises op = false → P ⟨⟩ { w with disk := moved w.disk p q n }) ∧
        (c.raises op = true → Q .os w) := by
  rw [ends_onDisk, Disk.rename_of_none hp hq]
  simp [moved]

/-- The way to cold storage, from a copy that is verified. -/
theorem ends_putAway {stage dst : Path} {copied : Tree} {P : PUnit → World → Prop}
    {Q : Err → World → Prop} (hstage : w.disk stage = some (.dir copied))
    (hdir : w.disk g.path = some (.dir t)) (hdst : w.disk dst = none)
    (hstagePath : g.path ≠ stage) (hbackDst : g.backup ≠ dst) (hbackStage : g.backup ≠ stage)
    {placed aside linked : Disk} (hplaced : placed = moved w.disk stage dst (.dir copied))
    (haside : aside = moved placed g.path g.backup (.dir t))
    (hlinked : linked = aside.put g.path (.link dst)) {record : Text → Option Record}
    (hrecord : record = Function.update w.index g.id (some ⟨g.path, dst⟩))
    (hunplaced : c.raises .place = true → Q .os w)
    (hblocked : c.raises .place = false → w.disk g.backup ≠ none →
      ∀ e, Q e { w with disk := placed })
    (hgo : c.raises .place = false → w.disk g.backup = none →
      (c.raises .aside = true → Q .os { w with disk := placed }) ∧
      (c.raises .aside = false → c.raises .link = true → c.raises .back = true →
        Q .os { w with disk := aside }) ∧
      (c.raises .aside = false → c.raises .link = true → c.raises .back = false →
        Q .os { w with disk := moved aside g.backup g.path (.dir t) }) ∧
      (c.raises .aside = false → c.raises .link = false → c.raises .record = true →
        Q .os { w with disk := linked }) ∧
      (c.raises .aside = false → c.raises .link = false → c.raises .record = false →
        (c.raises .remove = true → Q .os ⟨linked.put g.backup (.dir c.remains), record⟩) ∧
        (c.raises .remove = false → P ⟨⟩ ⟨linked.remove g.backup, record⟩))) :
    Ends (putAway g c g.path dst stage) w P Q := by
  have hpathDst : g.path ≠ dst := by
    rintro heq
    rw [heq, hdst] at hdir
    cases hdir
  have hbackPath : g.backup ≠ g.path := backup_ne_path
  have hplacedPath : placed g.path = some (.dir t) := by
    rw [hplaced, moved, Disk.put_of_ne hpathDst, Disk.remove_of_ne hstagePath, hdir]
  have hplacedBack : placed g.backup = w.disk g.backup := by
    rw [hplaced, moved, Disk.put_of_ne hbackDst, Disk.remove_of_ne hbackStage]
  have hasidePath : aside g.path = none := by
    rw [haside, moved, Disk.put_of_ne hbackPath.symm, Disk.remove_self]
  have hasideBack : aside g.backup = some (.dir t) := by rw [haside, moved, Disk.put_self]
  rw [putAway, ends_bind, ends_move_of_free hstage hdst, ← hplaced]
  refine ⟨fun hplace => ?_, hunplaced⟩
  rw [ends_bind, ends_get, ends_bind, ends_ensure, Disk.there_or_isSymlink]
  refine ⟨fun hfree => ?_, fun hthere => hblocked hplace (fun hnone => ?_) _⟩
  · have hfree : (!(placed g.backup).isSome) = true := hfree
    rw [hplacedBack, Bool.not_eq_true', Option.isSome_eq_false_iff,
      Option.isNone_iff_eq_none] at hfree
    obtain ⟨haside', hback, hundone, hlink, hrest⟩ := hgo hplace hfree
    rw [ends_bind]
    refine (ends_move_of_free hplacedPath (hplacedBack.trans hfree)).mpr ⟨fun hset => ?_, haside'⟩
    change Ends _ ⟨moved placed g.path g.backup (.dir t), w.index⟩ P Q
    rw [← haside, ends_bind, ends_tryCatch, ends_onDisk]
    have hlinks : aside.symlink g.path dst = some linked :=
      (Disk.symlink_of_none hasidePath).trans (congrArg some hlinked.symm)
    refine ⟨fun d hnotLink hd => ?_, fun hfail => ?_⟩
    · obtain rfl := Option.some.inj (hlinks.symm.trans hd)
      rw [ends_bind, ends_writeIndex]
      refine ⟨fun hwrite => ?_, hlink hset hnotLink⟩
      obtain ⟨hremove, hdone⟩ := hrest hset hnotLink hwrite
      have hlinkedBack : linked g.backup = some (.dir t) := by
        rw [hlinked, Disk.put_of_ne hbackPath, hasideBack]
      rw [← hrecord]
      exact (ends_rmtree hlinkedBack).mpr ⟨hdone, hremove⟩
    · have hfail := hfail.resolve_right fun hd => Option.some_ne_none _ (hlinks.symm.trans hd)
      rw [ends_bind]
      refine (ends_move_of_free hasideBack hasidePath).mpr
        ⟨fun hundo => hundone hset hfail hundo, fun hundo => hback hset hfail hundo⟩
  · have hthere : (!(placed g.backup).isSome) = false := hthere
    rw [hplacedBack, hnone] at hthere
    cases hthere

theorem ends_bringBack {stage src : Path} {copied : Tree} {P : PUnit → World → Prop}
    {Q : Err → World → Prop} (hstage : w.disk stage = some (.dir copied))
    (hlink : w.disk g.path = some (.link src)) (hsrc : w.disk src = some (.dir t))
    (hstagePath : stage ≠ g.path) (hstageSrc : src ≠ stage) (hstageOld : stage ≠ oldLink g.path)
    (hsrcOld : src ≠ oldLink g.path) {aside placed unlinked : Disk}
    (haside : aside = moved w.disk g.path (oldLink g.path) (.link src))
    (hplaced : placed = moved aside stage g.path (.dir copied))
    (hunlinked : unlinked = placed.remove (oldLink g.path)) {record : Text → Option Record}
    (hrecord : record = Function.update w.index g.id none)
    (hblocked : w.disk (oldLink g.path) ≠ none → ∀ e, Q e w)
    (hgo : w.disk (oldLink g.path) = none →
      (c.raises .aside = true → Q .os w) ∧
      (c.raises .aside = false → c.raises .place = true → c.raises .back = true →
        Q .os { w with disk := aside }) ∧
      (c.raises .aside = false → c.raises .place = true → c.raises .back = false →
        Q .os { w with disk := moved aside (oldLink g.path) g.path (.link src) }) ∧
      (c.raises .aside = false → c.raises .place = false → c.raises .unlink = true →
        Q .os { w with disk := placed }) ∧
      (c.raises .aside = false → c.raises .place = false → c.raises .unlink = false →
        c.raises .record = true → Q .os { w with disk := unlinked }) ∧
      (c.raises .aside = false → c.raises .place = false → c.raises .unlink = false →
        c.raises .record = false →
        (c.raises .remove = true → Q .os ⟨unlinked.put src (.dir c.remains), record⟩) ∧
        (c.raises .remove = false → P ⟨⟩ ⟨unlinked.remove src, record⟩))) :
    Ends (bringBack g c src g.path stage) w P Q := by
  have holdPath : oldLink g.path ≠ g.path := oldLink_ne_self
  have hsrcPath : src ≠ g.path := by
    rintro rfl
    rw [hlink] at hsrc
    cases hsrc
  have hasidePath : aside g.path = none := by
    rw [haside, moved, Disk.put_of_ne holdPath.symm, Disk.remove_self]
  have hasideOld : aside (oldLink g.path) = some (.link src) := by
    rw [haside, moved, Disk.put_self]
  have hasideStage : aside stage = some (.dir copied) := by
    rw [haside, moved, Disk.put_of_ne hstageOld, Disk.remove_of_ne hstagePath, hstage]
  have hplacedOld : placed (oldLink g.path) = some (.link src) := by
    rw [hplaced, moved, Disk.put_of_ne holdPath, Disk.remove_of_ne hstageOld.symm, hasideOld]
  have hunlinkedSrc : unlinked src = some (.dir t) := by
    rw [hunlinked, Disk.remove_of_ne hsrcOld, hplaced, moved, Disk.put_of_ne hsrcPath,
      Disk.remove_of_ne hstageSrc, haside, moved, Disk.put_of_ne hsrcOld,
      Disk.remove_of_ne hsrcPath, hsrc]
  rw [bringBack, ends_bind, ends_get, ends_bind, ends_ensure, Disk.there_or_isSymlink]
  refine ⟨fun hfree => ?_, fun hthere => hblocked (fun hnone => ?_) _⟩
  · rw [Bool.not_eq_true', Option.isSome_eq_false_iff, Option.isNone_iff_eq_none] at hfree
    obtain ⟨haside', hback, hundone, hunlink, hwrite, hrest⟩ := hgo hfree
    rw [ends_bind, ends_move_of_free hlink hfree, ← haside]
    refine ⟨fun hset => ?_, haside'⟩
    rw [ends_bind, ends_tryCatch, ends_move_of_free hasideStage hasidePath]
    refine ⟨fun hput => ?_, fun hfail => ?_⟩
    · change Ends _ ⟨moved aside stage g.path (.dir copied), w.index⟩ P Q
      rw [← hplaced, ends_bind, ends_onDisk]
      have hunlinks : placed.unlink (oldLink g.path) = some unlinked :=
        (Disk.unlink_of_link hplacedOld).trans (congrArg some hunlinked.symm)
      refine ⟨fun d hgone hd => ?_, fun hfail => hunlink hset hput <|
        hfail.resolve_right fun hd => Option.some_ne_none _ (hunlinks.symm.trans hd)⟩
      obtain rfl := Option.some.inj (hunlinks.symm.trans hd)
      rw [ends_bind, ends_writeIndex]
      refine ⟨fun hwritten => ?_, hwrite hset hput hgone⟩
      obtain ⟨hremove, hdone⟩ := hrest hset hput hgone hwritten
      rw [← hrecord]
      exact (ends_rmtree hunlinkedSrc).mpr ⟨hdone, hremove⟩
    · rw [ends_bind]
      refine (ends_move_of_free hasideOld hasidePath).mpr
        ⟨fun hundo => hundone hset hfail hundo, fun hundo => hback hset hfail hundo⟩
  · rw [hnone] at hthere
    cases hthere

/-- A call moves the game once it has a verified copy. -/
theorem ends_relocate {P : Plan → World → Prop} {Q : Err → World → Prop}
    (hsrc : ∀ p, plan sys g w c = .ok p → ∃ t, w.disk p.source = some (.dir t))
    (hbad : ¬Copied sys g w c → ∀ e, Q e w)
    (hleft : ¬Copied sys g w c → ∀ p, plan sys g w c = .ok p →
      w.disk (stagePath p.destination c.now) = none → ∀ e,
      Q e { w with disk := w.disk.put (stagePath p.destination c.now) (.dir c.copied) })
    (hmove : Copied sys g w c → ∀ p, plan sys g w c = .ok p →
      w.disk (stagePath p.destination c.now) = none →
      Ends (move g c p (stagePath p.destination c.now))
        { w with disk := w.disk.put (stagePath p.destination c.now) (.dir c.copied) }
        (fun _ u => (c.raises .audit = false → P p u) ∧ (c.raises .audit = true → Q .os u)) Q) :
    Ends (relocate sys g c) w P Q := by
  rw [relocate, ends_bind, ends_pass]
  refine ⟨fun hstopped => ?_, fun hstopped => hbad (fun hc => ?_) _⟩
  · rw [ends_bind, ends_pass]
    refine ⟨fun hplan => ?_, fun hplan => hbad (fun hc => ?_) _⟩
    · rw [ends_bind, ends_get, ends_bind, ends_result]
      refine ⟨fun p hp => ?_, fun e he => hbad (fun hc => ?_) _⟩
      · rw [ends_bind, ends_ensure]
        refine ⟨fun hspace => ?_, fun hspace => hbad (fun hc => ?_) _⟩
        · obtain ⟨t, ht⟩ := hsrc p hp
          have hv : Copied sys g w c → Verified sys w c t (stagePath p.destination c.now) := by
            rintro ⟨-, -, ⟨p', hp', -, hv⟩, -⟩
            cases hp'.symm.trans hp
            rwa [walk_of_dir ht] at hv
          rw [ends_bind]
          refine ends_verifiedCopy ht (fun hverified => ?_)
            (fun hnot => hbad fun hc => hnot (hv hc))
            fun hnot hfree => hleft (fun hc => hnot (hv hc)) p hp hfree
          have hfree := hverified.2.2.1
          rw [ends_bind, ends_pass]
          refine ⟨fun hcheck => ?_, fun hcheck => hleft (fun hc => ?_) p hp hfree _⟩
          · rw [ends_bind, ends_pass]
            refine ⟨fun hread => ?_, fun hread => hleft (fun hc => ?_) p hp hfree _⟩
            · have hcopied : Copied sys g w c := by
                refine ⟨hstopped, hplan, ⟨p, hp, hspace, ?_⟩, hcheck, hread⟩
                rwa [walk_of_dir ht]
              rw [ends_bind]
              refine (hmove hcopied p hp hfree).imp (fun _ u hu => ?_) fun _ _ => id
              rw [ends_bind, ends_pass]
              exact hu
            · cases hread.symm.trans hc.2.2.2.2
          · cases hcheck.symm.trans hc.2.2.2.1
        · obtain ⟨-, -, ⟨p', hp', hspace', -⟩, -⟩ := hc
          cases hp'.symm.trans hp
          cases hspace.symm.trans hspace'
      · obtain ⟨-, -, ⟨p, hp, -⟩, -⟩ := hc
        cases he.symm.trans hp
    · cases hplan.symm.trans hc.2.1
  · cases hstopped.symm.trans hc.1

end Parts

end MindOS.Games.Storage
