import NginxTools.Library.FileWalk

/-!
# Removing a tree

`utils_rmpath` walks through a tree twice, first for the files and then for the directories:

    nftw(path, unlink_files, 4, 0);
    nftw(path, rm_dirs, 4, FTW_DEPTH);

The callbacks look at the type of what they are given by its bits:

    if(sb->st_mode & S_IFREG) unlink(fpath);
    if(sb->st_mode & S_IFDIR) rmdir(fpath);

The flag `FTW_PHYS` is not among those given, so that the walks follow symbolic links, and what is
below a link to a directory is removed like what is below `path`.

## The model

`utilsRmpath` is the system of both walks, one after the other, over all orders in which the
directories may yield their names.

## What is proved

`rmpath_contained_iff` — nothing outside the tree is removed exactly if every directory outside that
the walks can reach holds nothing but directories that are not empty and links, to directories or in
circles.
-/

namespace NginxTools.UtilsFiles

open Library FileTree

/-! ### The code -/

/-- `unlink_files`. -/
def unlinkFiles (fs : FileSystem) (fpath : Path) (stMode : ℕ) : FileSystem :=
  if stMode &&& sIfreg ≠ 0 then fs.unlink fpath else fs

/-- `rm_dirs`. -/
def rmDirs (fs : FileSystem) (fpath : Path) (stMode : ℕ) : FileSystem :=
  if stMode &&& sIfdir ≠ 0 then fs.rmdir fpath else fs

/-- What the first call of `nftw` is given. -/
def unlinkPass : Nftw := ⟨unlinkFiles, false⟩

/-- What the second call of `nftw` is given. -/
def rmPass : Nftw := ⟨rmDirs, true⟩

/-- The two calls. -/
inductive Pass where
  | unlinkFiles
  | rmDirs
deriving DecidableEq

/-- Where `utils_rmpath` stands. -/
structure Rmpath where
  pass : Pass
  walk : Walk

/-- What happens next. -/
inductive RmAct where
  | walk (a : WalkAct)
  /-- The first call of `nftw` has returned, and the second is made. -/
  | nextPass
deriving DecidableEq

/-- `utils_rmpath`. -/
def utilsRmpath (fs : FileSystem) (path : Path) : Sys Rmpath RmAct where
  init s := s = ⟨.unlinkFiles, unlinkPass.start fs path⟩
  step s a :=
    match s.pass, a with
    | .unlinkFiles, .walk a => (unlinkPass.step s.walk a).map (⟨.unlinkFiles, ·⟩)
    | .unlinkFiles, .nextPass =>
      if s.walk.stack.isEmpty then some ⟨.rmDirs, rmPass.start s.walk.fs path⟩ else none
    | .rmDirs, .walk a => (rmPass.step s.walk a).map (⟨.rmDirs, ·⟩)
    | .rmDirs, .nextPass => none

/-! ### The callbacks -/

variable {fs fs₀ : FileSystem} {path q d : Path} {w u : Walk} {a : WalkAct} {n : String} {mode : ℕ}

theorem unlinkPass_shrinks : Shrinks unlinkPass := by
  intro fs q mode
  show (unlinkFiles fs q mode).Sub fs
  unfold unlinkFiles
  split
  · exact FileSystem.unlink_sub fs q
  · exact .refl fs

theorem rmPass_shrinks : Shrinks rmPass := by
  intro fs q mode
  show (rmDirs fs q mode).Sub fs
  unfold rmDirs
  split
  · exact FileSystem.rmdir_sub fs q
  · exact .refl fs

theorem unlinkPass_quiet : Quiet unlinkPass := fun _ _ _ => rfl

theorem rmPass_quiet : Quiet rmPass := fun h => absurd h (by decide)

/-- The type of whatever is reported has the bit of a regular file, that of a socket or a link
included. -/
theorem unlinkFiles_of_reported (h : Reported fs q mode) : unlinkFiles fs q mode = fs.unlink q := by
  unfold unlinkFiles
  cases h with
  | missing h => rfl
  | @found e k h hk =>
    cases k with
    | dir => exact absurd rfl hk
    | reg | sock => rfl
    | link t => exact absurd rfl ((FileSystem.find_of_stat h).2 t)

/-- What is reported is no directory. -/
theorem find_ne_dir_of_reported (h : Reported fs q mode) : fs.find q ≠ some .dir := by
  intro hd
  have hst := FileSystem.stat_of_find hd fun t => Node.noConfusion
  cases h with
  | missing h => exact absurd (h.symm.trans hst) FileSystem.Stat.noConfusion
  | found h hk => exact hk (FileSystem.Stat.found.inj (h.symm.trans hst)).2

theorem rmdir_of_ne_dir (h : fs.find q ≠ some .dir) : fs.rmdir q = fs := by
  unfold FileSystem.rmdir
  exact dif_neg fun hd => h hd.2.1

/-- What is reported is not removed by `rmdir`, whatever the bits of its type. -/
theorem rmDirs_of_reported (h : Reported fs q mode) : rmDirs fs q mode = fs := by
  unfold rmDirs
  split
  · exact rmdir_of_ne_dir (find_ne_dir_of_reported h)
  · rfl

/-! ### What is kept -/

/-- Neither walk removes this when it comes to it. -/
def Kept (fs : FileSystem) (q : Path) : Prop :=
  fs.find q = some .dir ∧ fs.names q ≠ [] ∨
    (∃ t, fs.find q = some (.link t)) ∧ ((∃ e, fs.stat q = .found e .dir) ∨ fs.stat q = .loop)

/-- The directories outside the tree that the walks can reach hold only what neither removes. -/
def Harmless (fs : FileSystem) (path : Path) : Prop :=
  ∀ d n, Reaches fs path d → fs.find (d ++ [n]) ≠ none → ¬path <+: d ++ [n] → Kept fs (d ++ [n])

/-- Everything outside the tree is as it was. -/
def Contained (fs : FileSystem) (path : Path) (s : Rmpath) : Prop :=
  ∀ q, ¬path <+: q → s.walk.fs.find q = fs.find q

theorem Contained.congr {s t : Rmpath} (h : Contained fs path s) (hfs : t.walk.fs = s.walk.fs) :
    Contained fs path t := by
  intro q hq
  rw [hfs]
  exact h q hq

/-- What is not kept is reported, or is an empty directory. -/
theorem not_kept (hq : fs.find q ≠ none) (h : ¬Kept fs q) :
    (∃ mode, Reported fs q mode) ∨ fs.find q = some .dir ∧ fs.names q = [] := by
  obtain ⟨k, hk⟩ := Option.ne_none_iff_exists'.mp hq
  cases k with
  | dir =>
    refine .inr ⟨hk, ?_⟩
    by_contra hne
    exact h (.inl ⟨hk, hne⟩)
  | reg => exact .inl ⟨_, .found (FileSystem.stat_of_find hk fun t => Node.noConfusion) (by decide)⟩
  | sock =>
      exact .inl ⟨_, .found (FileSystem.stat_of_find hk fun t => Node.noConfusion) (by decide)⟩
  | link t =>
    cases hst : fs.stat q with
    | missing => exact .inl ⟨_, .missing hst⟩
    | loop => exact absurd (.inr ⟨⟨t, hk⟩, .inr hst⟩) h
    | found e k =>
      by_cases hkd : k = .dir
      · subst hkd
        exact absurd (.inr ⟨⟨t, hk⟩, .inl ⟨e, hst⟩⟩) h
      · exact .inl ⟨_, .found hst hkd⟩

/-! ### The first walk -/

/-- Where the first walk stands: no directory, link to a directory or circle of links has gone. -/
structure FirstPass (fs₀ : FileSystem) (path : Path) (w : Walk) : Prop where
  visiting : Visiting fs₀ path w
  dirs : ∀ q e, fs₀.stat q = .found e .dir → w.fs.stat q = .found e .dir
  loops : ∀ q, fs₀.stat q = .loop → w.fs.stat q = .loop

/-- A name that is reported does not lead to a directory, nor round in a circle. -/
theorem FirstPass.unlink (hI : FirstPass fs₀ path w) (h : Reported w.fs q mode) :
    (∀ p e, fs₀.stat p = .found e .dir → (w.fs.unlink q).stat p = .found e .dir) ∧
      ∀ p, fs₀.stat p = .loop → (w.fs.unlink q).stat p = .loop := by
  have hne : ∀ p, w.fs.stat p = .loop ∨ (∃ e, w.fs.stat p = .found e .dir) →
      (w.fs.unlink q).find p = w.fs.find p := by
    intro p hp
    rw [FileSystem.find_unlink, if_neg]
    rintro ⟨rfl, -⟩
    cases h with
    | missing h =>
        rcases hp with hp | ⟨e, hp⟩ <;> exact absurd (h.symm.trans hp) FileSystem.Stat.noConfusion
    | found h hk =>
      rcases hp with hp | ⟨e, hp⟩
      · exact absurd (h.symm.trans hp) FileSystem.Stat.noConfusion
      · exact hk (FileSystem.Stat.found.inj (h.symm.trans hp)).2
  constructor
  · intro p e hp
    exact FileSystem.stat_found_of_keep (fun p' hp' => hne p' (.inr ⟨e, hp'⟩)) (hI.dirs p e hp)
  · intro p hp
    exact FileSystem.stat_loop_of_keep (FileSystem.unlink_sub _ _)
      (fun p' hp' => hne p' (.inl hp')) (hI.loops p hp)

theorem start_firstPass (fs : FileSystem) (path : Path) :
    FirstPass fs path (unlinkPass.start fs path) := by
  have hvis : Visiting fs path (unlinkPass.start fs path) :=
    start_visiting unlinkPass_shrinks (.refl fs)
  rcases start_cases unlinkPass fs path with ⟨e, hst, hstart⟩ | ⟨mode, hm, hstart⟩ | hstart
  · rw [hstart] at hvis ⊢
    exact ⟨hvis, fun _ _ h => h, fun _ h => h⟩
  · have hrefl : FirstPass fs path ⟨fs, [], [], []⟩ :=
      ⟨⟨.refl fs, by simp⟩, fun _ _ h => h, fun _ h => h⟩
    obtain ⟨hdirs, hloops⟩ := hrefl.unlink hm
    have hfs : (unlinkPass.start fs path).fs = fs.unlink path := by
      rw [hstart]
      exact unlinkFiles_of_reported hm
    exact ⟨hvis, by rwa [hfs], by rwa [hfs]⟩
  · rw [hstart] at hvis ⊢
    exact ⟨hvis, fun _ _ h => h, fun _ h => h⟩

theorem FirstPass.step (hI : FirstPass fs₀ path w) (h : Step unlinkPass w a u) :
    FirstPass fs₀ path u := by
  have hvis := hI.visiting.step unlinkPass_shrinks h
  cases h with
  | again hs hn hr hst he => exact ⟨hvis, hI.dirs, hI.loops⟩
  | enter hs hn hr hst he =>
    refine ⟨hvis, ?_, ?_⟩ <;> rw [enter_fs unlinkPass_quiet]
    · exact hI.dirs
    · exact hI.loops
  | @report fr frs n mode hs hn hr hm =>
    have hfs : (unlinkPass.report (fr.dir ++ [n]) mode (w.mark (fr.dir ++ [n]))).fs =
        w.fs.unlink (fr.dir ++ [n]) :=
      unlinkFiles_of_reported hm
    obtain ⟨hdirs, hloops⟩ := hI.unlink hm
    exact ⟨hvis, by rwa [hfs], by rwa [hfs]⟩
  | giveUp hs hn hr hst => exact ⟨hvis, hI.dirs, hI.loops⟩
  | close hs hall => exact ⟨hvis, hI.dirs, hI.loops⟩

/-- What is kept has gone nowhere in the first walk. -/
theorem FirstPass.not_reported (hI : FirstPass fs₀ path w) (hk : Kept fs₀ q) :
    ¬Reported w.fs q mode := by
  intro hm
  have hst : (∃ e, w.fs.stat q = .found e .dir) ∨ w.fs.stat q = .loop := by
    rcases hk with ⟨hd, -⟩ | ⟨-, ⟨e, hst⟩ | hst⟩
    · exact .inl ⟨q, hI.dirs q q (FileSystem.stat_of_find hd fun t => Node.noConfusion)⟩
    · exact .inl ⟨e, hI.dirs q e hst⟩
    · exact .inr (hI.loops q hst)
  cases hm with
  | missing h =>
      rcases hst with ⟨e, hst⟩ | hst <;> exact absurd (h.symm.trans hst) FileSystem.Stat.noConfusion
  | found h hk =>
    rcases hst with ⟨e, hst⟩ | hst
    · exact hk (FileSystem.Stat.found.inj (h.symm.trans hst)).2
    · exact absurd (h.symm.trans hst) FileSystem.Stat.noConfusion

/-- **The first walk removes nothing outside the tree** that it may not. -/
theorem FirstPass.contained_step (hH : Harmless fs₀ path) (hI : FirstPass fs₀ path w)
    (hc : Contained fs₀ path ⟨.unlinkFiles, w⟩) (h : Step unlinkPass w a u) :
    Contained fs₀ path ⟨.unlinkFiles, u⟩ := by
  cases h with
  | again hs hn hr hst he => exact hc
  | enter hs hn hr hst he => exact hc.congr (enter_fs unlinkPass_quiet _ _ _)
  | @report fr frs n mode hs hn hr hm =>
    intro q hq
    have hfs : (unlinkPass.report (fr.dir ++ [n]) mode (w.mark (fr.dir ++ [n]))).fs =
        w.fs.unlink (fr.dir ++ [n]) :=
      unlinkFiles_of_reported hm
    show (unlinkPass.report (fr.dir ++ [n]) mode (w.mark (fr.dir ++ [n]))).fs.find q = _
    rw [hfs, FileSystem.find_unlink, if_neg]
    · exact hc q hq
    · rintro ⟨rfl, -⟩
      have hd := (hI.visiting.reached fr (by simp [hs])).dir
      have hn₀ : fs₀.find (fr.dir ++ [n]) ≠ none :=
        fun hnone => hn (hI.visiting.sub.find_eq_none hnone)
      exact hI.not_reported (hH fr.dir n hd hn₀ hq) hm
  | giveUp hs hn hr hst => exact hc
  | close hs hall => exact hc

/-! ### The second walk -/

/-- Where the second walk stands: only the outermost directory was come to as `path`, and it is
there to the end. -/
structure SecondPass (fs₀ : FileSystem) (path : Path) (w : Walk) : Prop where
  visiting : Visiting fs₀ path w
  contained : Contained fs₀ path ⟨.rmDirs, w⟩
  there : w.stack ≠ [] → w.fs.find path = some .dir ∧ path ∈ w.seen
  names : w.stack.Pairwise fun fr _ => fr.name ≠ path

/-- **The second walk does not remove a directory outside the tree** that it may not. -/
theorem SecondPass.rmdir (hH : Harmless fs₀ path) (hI : SecondPass fs₀ path w) {fr : Frame}
    {frs : List Frame} (hs : w.stack = fr :: frs) (hq : ¬path <+: fr.name) :
    w.fs.rmdir fr.name = w.fs := by
  unfold FileSystem.rmdir
  rw [dif_neg]
  rintro ⟨-, hdir, hnil⟩
  have hr := hI.visiting.reached fr (by simp [hs])
  rcases hr.name with hname | ⟨d, n, hd, hname⟩
  · exact hq (hname ▸ List.prefix_refl _)
  · have hdir₀ := hI.visiting.sub _ _ hdir
    have hkept := hH d n hd (by simp [← hname, hdir₀]) (by rwa [← hname])
    rw [← hname] at hkept
    rcases hkept with ⟨-, hne⟩ | ⟨⟨t, ht⟩, -⟩
    · -- Something was in it, and is still: either it is outside as well, or it is the tree itself.
      obtain ⟨m, hm⟩ := List.exists_mem_of_ne_nil _ hne
      have hgone : w.fs.find (fr.name ++ [m]) = none := by
        by_contra hm'
        have hmem := FileSystem.mem_names.mpr hm'
        simp [hnil] at hmem
      by_cases hpath : path <+: fr.name ++ [m]
      · rcases List.prefix_concat_iff.mp hpath with rfl | hpre
        · exact absurd ((hI.there (by simp [hs])).1.symm.trans hgone) (by simp)
        · exact hq hpre
      · exact FileSystem.mem_names.mp hm ((hI.contained _ hpath).symm.trans hgone)
    · exact absurd (hdir₀.symm.trans ht) (by simp)

theorem SecondPass.step (hH : Harmless fs₀ path) (hI : SecondPass fs₀ path w)
    (h : Step rmPass w a u) :
    SecondPass fs₀ path u := by
  have hvis := hI.visiting.step rmPass_shrinks h
  cases h with
  | again hs hn hr hst he => exact ⟨hvis, hI.contained, hI.there, hI.names⟩
  | @enter fr frs n e hs hn hr hst he =>
    obtain ⟨hfind, hseen⟩ := hI.there (by simp [hs])
    have hne : fr.dir ++ [n] ≠ path := by
      intro heq
      have hst' := FileSystem.stat_of_find hfind fun t => Node.noConfusion
      rw [← heq, hst] at hst'
      obtain ⟨rfl, -⟩ := FileSystem.Stat.found.inj hst'
      exact he (heq ▸ hseen)
    refine ⟨hvis, hI.contained.congr (enter_fs rmPass_quiet _ _ _), ?_, ?_⟩
    · intro _
      rw [enter_fs rmPass_quiet, enter_seen]
      exact ⟨hfind, List.mem_cons_of_mem _ hseen⟩
    · rw [enter_stack]
      exact List.pairwise_cons.mpr ⟨fun _ _ => hne, hI.names⟩
  | @report fr frs n mode hs hn hr hm =>
    have hfs : (rmPass.report (fr.dir ++ [n]) mode (w.mark (fr.dir ++ [n]))).fs = w.fs :=
      rmDirs_of_reported hm
    refine ⟨hvis, hI.contained.congr hfs, ?_, hI.names⟩
    intro hne
    rw [hfs]
    exact hI.there hne
  | giveUp hs hn hr hst => exact ⟨hvis, hI.contained, fun h => absurd rfl h, .nil⟩
  | @close fr frs hs hall =>
    have hfs : (rmPass.leave fr.name { w with stack := frs }).fs = w.fs.rmdir fr.name := rfl
    obtain ⟨hfind, hseen⟩ := hI.there (by simp [hs])
    have hnames := hI.names
    rw [hs] at hnames
    obtain ⟨hhead, htail⟩ := List.pairwise_cons.mp hnames
    refine ⟨hvis, ?_, ?_, by rw [leave_stack]; exact htail⟩
    · intro q hq
      show (rmPass.leave fr.name { w with stack := frs }).fs.find q = _
      rw [hfs]
      by_cases hqn : q = fr.name
      · subst hqn
        rw [hI.rmdir hH hs hq]
        exact hI.contained _ hq
      · rw [FileSystem.find_rmdir, if_neg fun h => hqn h.1]
        exact hI.contained q hq
    · intro hne
      rw [leave_stack] at hne
      obtain ⟨fr', hfr'⟩ := List.exists_mem_of_ne_nil _ hne
      rw [hfs, FileSystem.find_rmdir, if_neg fun h => hhead fr' hfr' h.1.symm, leave_seen]
      exact ⟨hfind, hseen⟩

/-- The second walk begins on what the first has left. -/
theorem start_secondPass (hroot : ∀ t, fs₀.find path ≠ some (.link t)) (hsub : fs.Sub fs₀)
    (hc : ∀ q, ¬path <+: q → fs.find q = fs₀.find q) :
    SecondPass fs₀ path (rmPass.start fs path) := by
  have hvis : Visiting fs₀ path (rmPass.start fs path) := start_visiting rmPass_shrinks hsub
  have hc : Contained fs₀ path ⟨.rmDirs, ⟨fs, [], [], []⟩⟩ := hc
  rcases start_cases rmPass fs path with ⟨e, hst, hstart⟩ | ⟨mode, hm, hstart⟩ | hstart
    <;> rw [hstart] at hvis ⊢
  · have hfind : fs.find path = some .dir ∧ e = path := by
      cases FileSystem.stat_eq_found_iff.mp hst with
      | here h _ => exact ⟨h, rfl⟩
      | link h _ => exact absurd (hsub _ _ h) (hroot _)
    obtain ⟨hfind, rfl⟩ := hfind
    refine ⟨hvis, hc.congr (enter_fs rmPass_quiet _ _ _), ?_,
      by rw [enter_stack]; exact List.pairwise_singleton _ _⟩
    intro _
    rw [enter_fs rmPass_quiet, enter_seen]
    exact ⟨hfind, List.mem_cons_self⟩
  · have hfs : (rmPass.report path mode ⟨fs, [], [], []⟩).fs = fs := rmDirs_of_reported hm
    exact ⟨hvis, hc.congr hfs, fun h => absurd rfl h, .nil⟩
  · exact ⟨hvis, hc, fun h => absurd rfl h, .nil⟩

/-! ### Both walks -/

/-- Where `utils_rmpath` stands when nothing outside the tree can be removed. -/
def Standing (fs₀ : FileSystem) (path : Path) (s : Rmpath) : Prop :=
  match s.pass with
  | .unlinkFiles => FirstPass fs₀ path s.walk ∧ Contained fs₀ path ⟨.unlinkFiles, s.walk⟩
  | .rmDirs => SecondPass fs₀ path s.walk

theorem Standing.contained {s : Rmpath} (h : Standing fs₀ path s) : Contained fs₀ path s := by
  obtain ⟨pass, w⟩ := s
  cases pass with
  | unlinkFiles => exact h.2
  | rmDirs => exact SecondPass.contained h

theorem start_contained (fs : FileSystem) (path : Path) :
    Contained fs path ⟨.unlinkFiles, unlinkPass.start fs path⟩ := by
  have hrefl : Contained fs path ⟨.unlinkFiles, ⟨fs, [], [], []⟩⟩ := fun _ _ => rfl
  rcases start_cases unlinkPass fs path with ⟨e, hst, hstart⟩ | ⟨mode, hm, hstart⟩ | hstart
    <;> rw [hstart]
  · exact hrefl.congr (enter_fs unlinkPass_quiet _ _ _)
  · intro q hq
    have hfs : (unlinkPass.report path mode ⟨fs, [], [], []⟩).fs = fs.unlink path :=
      unlinkFiles_of_reported hm
    show (unlinkPass.report path mode ⟨fs, [], [], []⟩).fs.find q = _
    rw [hfs, FileSystem.find_unlink, if_neg]
    rintro ⟨rfl, -⟩
    exact hq (List.prefix_refl _)
  · exact hrefl

theorem Standing.step (hH : Harmless fs₀ path) (hroot : ∀ t, fs₀.find path ≠ some (.link t))
    {s t : Rmpath} {b : RmAct} (hI : Standing fs₀ path s)
    (h : (utilsRmpath fs₀ path).step s b = some t) : Standing fs₀ path t := by
  obtain ⟨pass, w⟩ := s
  cases pass with
  | unlinkFiles =>
    obtain ⟨hfirst, hc⟩ := hI
    cases b with
    | walk a =>
      obtain ⟨u, hu, rfl⟩ := Option.map_eq_some_iff.mp h
      have hstep := step_cases hu
      exact ⟨hfirst.step hstep, hfirst.contained_step hH hc hstep⟩
    | nextPass =>
      simp only [utilsRmpath] at h
      split at h
      · obtain rfl := Option.some.inj h
        exact start_secondPass hroot hfirst.visiting.sub hc
      · cases h
  | rmDirs =>
    cases b with
    | walk a =>
      obtain ⟨u, hu, rfl⟩ := Option.map_eq_some_iff.mp h
      exact SecondPass.step hH hI (step_cases hu)
    | nextPass => cases h

/-- Nothing outside is removed if there is nothing that may not be. -/
theorem contained_of_harmless (hH : Harmless fs path) (hroot : ∀ t, fs.find path ≠ some (.link t))
    {s : Rmpath} (h : (utilsRmpath fs path).Reach Any s) : Contained fs path s := by
  refine (Sys.Reach.invariant (I := Standing fs path) ?_ ?_ h).contained
  · rintro s rfl
    exact ⟨start_firstPass fs path, start_contained fs path⟩
  · intro s a t _ _ hI hst
    exact hI.step hH hroot hst

/-! ### What escapes -/

/-- A walk of one of the calls is a run of `utils_rmpath`. -/
theorem run_walk {f : Nftw} {pass : Pass} {fs' : FileSystem} {as : List WalkAct}
    (hstep : ∀ w a, (utilsRmpath fs path).step ⟨pass, w⟩ (.walk a) = (f.step w a).map (⟨pass, ·⟩))
    (h : (f.walks fs' path).Run Any w as u) :
    (utilsRmpath fs path).Run Any ⟨pass, w⟩ (as.map .walk) ⟨pass, u⟩ := by
  induction h with
  | nil => exact .nil
  | @snoc t u as a hr hC hs ih =>
    have hs : f.step t a = some u := hs
    rw [List.map_append]
    refine ih.snoc trivial ?_
    rw [hstep, hs]
    rfl

theorem run_unlinkFiles {as : List WalkAct} (h : (unlinkPass.walks fs path).Run Any w as u) :
    (utilsRmpath fs path).Run Any ⟨.unlinkFiles, w⟩ (as.map .walk) ⟨.unlinkFiles, u⟩ :=
  run_walk (fun _ _ => rfl) h

theorem run_rmDirs {fs' : FileSystem} {as : List WalkAct}
    (h : (rmPass.walks fs' path).Run Any w as u) :
    (utilsRmpath fs path).Run Any ⟨.rmDirs, w⟩ (as.map .walk) ⟨.rmDirs, u⟩ :=
  run_walk (fun _ _ => rfl) h

/-- A name that is reported, in a directory that can be reached, can be unlinked. -/
theorem exists_unlinked (hd : Reaches fs path d) (hm : Reported fs (d ++ [n]) mode)
    (hn : fs.find (d ++ [n]) ≠ none) :
    ∃ s, (utilsRmpath fs path).Reach Any s ∧ s.walk.fs.find (d ++ [n]) = none := by
  obtain ⟨ds, hds⟩ := hd.exists_descent
  obtain ⟨as, w, hrun, hw⟩ := hds.exists_run unlinkPass_quiet
  obtain ⟨name, frs, hs⟩ := hw.stack
  have hstep := step_read (f := unlinkPass) hs (by rw [hw.fs]; exact hn) (hw.not_read hds n)
  rw [process_reported (w := w.mark (d ++ [n])) (hw.fs ▸ hm)] at hstep
  have hrun : (unlinkPass.walks fs path).Run Any (unlinkPass.start fs path) (as ++ [.read n]) _ :=
    hrun.snoc trivial hstep
  refine ⟨_, ⟨_, _, rfl, run_unlinkFiles hrun⟩, ?_⟩
  show (unlinkFiles w.fs (d ++ [n]) mode).find (d ++ [n]) = none
  rw [hw.fs, unlinkFiles_of_reported hm, FileSystem.find_unlink,
    if_pos ⟨rfl, find_ne_dir_of_reported hm⟩]

/-- An empty directory, in a directory that can be reached, can be removed; or the first walk has
removed it. -/
theorem exists_removed (hd : Reaches fs path d) (hnil : fs.names (d ++ [n]) = []) :
    ∃ s, (utilsRmpath fs path).Reach Any s ∧ s.walk.fs.find (d ++ [n]) ≠ some .dir := by
  -- The first walk is taken to an end.
  obtain ⟨as, w, hrun, hend⟩ := exists_finish unlinkPass_shrinks fs path (unlinkPass.start fs path)
  have hfirst : FirstPass fs path w :=
    hrun.invariant (fun _ _ _ _ hI hst => hI.step (step_cases hst)) (start_firstPass fs path)
  have hreach : (utilsRmpath fs path).Reach Any ⟨.unlinkFiles, w⟩ :=
    ⟨_, _, rfl, run_unlinkFiles hrun⟩
  by_cases hw : w.fs.find (d ++ [n]) = some .dir
  · -- The second walk goes straight to the directory, enters and closes it.
    have hnil := hfirst.visiting.sub.names_eq_nil hnil
    obtain ⟨ds, hds⟩ := (hd.mono hfirst.dirs).exists_descent
    obtain ⟨bs, u, hrun', hu⟩ := hds.exists_run rmPass_quiet
    obtain ⟨name, frs, hs⟩ := hu.stack
    have hst : u.fs.stat (d ++ [n]) = .found (d ++ [n]) .dir := by
      rw [hu.fs]
      exact FileSystem.stat_of_find hw fun t => Node.noConfusion
    have hseen : d ++ [n] ∉ u.seen := by
      rw [hu.seen]
      intro hmem
      rcases List.mem_cons.mp hmem with heq | hmem
      · simpa using congrArg List.length heq
      · exact hds.names_ne_nil.2 _ hmem hnil
    have henter :=
      step_read (f := rmPass) hs (by rw [hu.fs, hw]; exact Option.some_ne_none _)
        (hu.not_read hds n)
    rw [process_enter (w := u.mark (d ++ [n])) hst hseen] at henter
    have hfs : (rmPass.enter (d ++ [n]) (d ++ [n]) (u.mark (d ++ [n]))).fs = w.fs := hu.fs
    have hclose :=
      step_close (f := rmPass) (enter_stack (f := rmPass) (d ++ [n]) (d ++ [n]) (u.mark (d ++ [n])))
      (by rw [hfs]; simp [hnil])
    have hrun₁ : (rmPass.walks w.fs path).Run Any (rmPass.start w.fs path) (bs ++ [.read n]) _ :=
      hrun'.snoc trivial henter
    have hrun₂ : (rmPass.walks w.fs path).Run Any (rmPass.start w.fs path)
        (bs ++ [.read n] ++ [.close]) _ :=
      hrun₁.snoc trivial hclose
    have hnext : (utilsRmpath fs path).step ⟨.unlinkFiles, w⟩ .nextPass =
        some ⟨.rmDirs, rmPass.start w.fs path⟩ := by
      simp [utilsRmpath, hend]
    refine ⟨_, (hreach.run (Sys.Run.single trivial hnext)).run (run_rmDirs hrun₂), ?_⟩
    show ((rmPass.enter (d ++ [n]) (d ++ [n]) (u.mark (d ++ [n]))).fs.rmdir (d ++ [n])).find
      (d ++ [n]) ≠ some .dir
    rw [hfs, FileSystem.find_rmdir, if_pos ⟨rfl, by simp, hw, hnil⟩]
    simp
  · exact ⟨_, hreach, hw⟩

/-- **`utils_rmpath` stays inside its tree**, `path` not being a link, exactly if the directories
outside that the walks can reach hold nothing but directories that are not empty and links, to
directories or in circles. -/
theorem rmpath_contained_iff (fs : FileSystem) (path : Path)
    (hroot : ∀ t, fs.find path ≠ some (.link t)) :
    (∀ s, (utilsRmpath fs path).Reach Any s → Contained fs path s) ↔ Harmless fs path := by
  constructor
  · intro h d n hd hn hout
    by_contra hk
    rcases not_kept hn hk with ⟨mode, hm⟩ | ⟨hdir, hnil⟩
    · obtain ⟨s, hs, hgone⟩ := exists_unlinked hd hm hn
      exact hn ((h s hs _ hout).symm.trans hgone)
    · obtain ⟨s, hs, hgone⟩ := exists_removed hd hnil
      exact hgone ((h s hs _ hout).trans hdir)
  · intro hH s hs
    exact contained_of_harmless hH hroot hs

/-- A directory `t` with a link to a directory `o`, in which there is a file. -/
def linkedTree : FileSystem :=
  .ofNodes [([], .dir), (["t"], .dir), (["t", "l"], .link ["o"]), (["o"], .dir),
    (["o", "f"], .reg)] (by decide)

theorem find_linkedTree_ne_link (t : Path) : linkedTree.find ["t"] ≠ some (.link t) := by
  have hdir : linkedTree.find ["t"] = some .dir := by decide
  simp [hdir]

/-- The file is removed with the tree `t`. -/
theorem outside_file_removed : ¬∀ fs path, (∀ t, fs.find path ≠ some (.link t)) →
    ∀ s, (utilsRmpath fs path).Reach Any s → Contained fs path s := by
  intro h
  have hexec :
      ((utilsRmpath linkedTree ["t"]).exec ⟨.unlinkFiles, unlinkPass.start linkedTree ["t"]⟩
        [.walk (.read "l"), .walk (.read "f")]).map (fun s => s.walk.fs.find ["o", "f"]) =
      some none := by decide
  obtain ⟨s, hs, hgone⟩ := Option.map_eq_some_iff.mp hexec
  have hreach : (utilsRmpath linkedTree ["t"]).Reach Any s := ⟨_, _, rfl, Sys.run_of_exec hs⟩
  have hfile : linkedTree.find ["o", "f"] = some .reg := by decide
  have hc := h linkedTree ["t"] find_linkedTree_ne_link s hreach ["o", "f"] (by decide)
  rw [hgone, hfile] at hc
  cases hc

/-- The same tree: its file system is not harmless. -/
theorem rmpath_contained_iff_linkedTree :
    (∀ s, (utilsRmpath linkedTree ["t"]).Reach Any s → Contained linkedTree ["t"] s) ↔
      Harmless linkedTree ["t"] :=
  rmpath_contained_iff linkedTree ["t"] find_linkedTree_ne_link

end NginxTools.UtilsFiles
