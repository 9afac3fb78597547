import Mathlib.Data.Nat.Bitwise
import NginxTools.Library.TreeWalk
import NginxTools.UtilsFiles.Rmpath

/-!
# Nothing of a tree is left

`utils_rmpath` reports no error: if something of the tree at `path` were not removed, `rmdir` would
fail on every directory above it, and nobody would hear of it.

## The model

The tree is one without links: directories, regular files and sockets, however deep. The walks are
those of `utilsRmpath`, over all orders in which the directories may yield their names.

## What is proved

`rmpath_removes_tree` — every run of `utils_rmpath` comes to an end, and then nothing of the tree is
there. The first walk leaves its directories and nothing else (`Unlinking`): what it has left so far
is due. The second closes a directory when nothing is in it any more (`Removing`): what is there is
being read, or is due. The bits of the types overlap, `S_IFSOCK` having that of `S_IFREG` and that
of `S_IFDIR`, but `rmdir` fails on a socket, which is not there any more anyway.
-/

namespace NginxTools.UtilsFiles

open Library FileTree

variable {fs fs₀ fs₁ : FileSystem} {path q : Path} {k : Node} {w u : Walk} {a : WalkAct}
    {s : Rmpath}

/-! ### The bits of a type -/

/-- The permissions and the bits above them, below those of the type, are no part of the tests. -/
theorem and_type_of_perm {mode perm i : ℕ} (hi : 12 ≤ i) (hperm : perm < 2 ^ 12) :
    (mode ||| perm) &&& 2 ^ i = mode &&& 2 ^ i := by
  have hlt : perm < 2 ^ i := lt_of_lt_of_le hperm (Nat.pow_le_pow_right (by decide) hi)
  rw [Nat.and_or_distrib_right, Nat.and_two_pow perm i, Nat.testBit_lt_two_pow hlt]
  simp

theorem unlinkFiles_perm {mode perm : ℕ} (hperm : perm < 2 ^ 12) :
    unlinkFiles fs q (mode ||| perm) = unlinkFiles fs q mode := by
  have hreg : sIfreg = 2 ^ 15 := rfl
  rw [unlinkFiles, unlinkFiles, hreg, and_type_of_perm (by omega) hperm]

theorem rmDirs_perm {mode perm : ℕ} (hperm : perm < 2 ^ 12) :
    rmDirs fs q (mode ||| perm) = rmDirs fs q mode := by
  have hdir : sIfdir = 2 ^ 14 := rfl
  rw [rmDirs, rmDirs, hdir, and_type_of_perm (by omega) hperm]

/-! ### The first walk -/

/-- Where the first walk stands: the directories are there, and what else is there is due. -/
structure Unlinking (fs₀ : FileSystem) (path : Path) (w : Walk) : Prop where
  sub : w.fs.Sub fs₀
  orderly : Orderly path w
  dirs : ∀ q, fs₀.find q = some .dir → w.fs.find q = some .dir
  due : ∀ q k, path <+: q → w.fs.find q = some k → k ≠ .dir → Due w q

theorem start_unlinking (hl : Linkless fs path) : Unlinking fs path (unlinkPass.start fs path) := by
  have hsub : (unlinkPass.start fs path).fs.Sub fs :=
    (start_visiting unlinkPass_shrinks (.refl fs)).sub
  have hord : Orderly path (unlinkPass.start fs path) := orderly_start hl
  cases hpath : fs.find path with
  | none =>
    rw [start_none hpath] at hsub hord ⊢
    refine ⟨hsub, hord, fun _ h => h, ?_⟩
    intro q k hq hk
    have hthere :=
      FileSystem.find_ne_none_of_prefix hq (by rw [show fs.find q = some k from hk]; simp)
    exact absurd hpath hthere
  | some k =>
    by_cases hk : k = .dir
    · subst hk
      rw [start_dir hl hpath] at hsub hord ⊢
      refine ⟨hsub, hord, fun _ h => h, ?_⟩
      intro q k hq hk hne
      apply due_enter_root _ rfl hq
      rintro rfl
      exact hne (Option.some.inj (hk.symm.trans hpath))
    · -- The path itself is unlinked.
      have hfs : (unlinkPass.start fs path).fs = fs.unlink path := by
        rw [start_file hl hpath hk]
        exact unlinkFiles_of_reported (.found (hl.stat (List.prefix_refl _) hpath) hk)
      have hnot : fs.find path ≠ some .dir := fun hd => hk (Option.some.inj (hpath.symm.trans hd))
      refine ⟨hsub, hord, ?_, ?_⟩
      · intro q hq
        rw [hfs, FileSystem.find_unlink, if_neg, hq]
        rintro ⟨rfl, -⟩
        exact hnot hq
      · intro q k hq hk
        rw [hfs, FileSystem.find_unlink] at hk
        split at hk
        · cases hk
        · next hother =>
          rw [FileSystem.find_below_of_ne_dir hq (fun heq => hother ⟨heq, hnot⟩) hnot] at hk
          cases hk

/-- **The first walk**: what is no directory is unlinked when it is no longer due. -/
theorem Unlinking.step (hl : Linkless fs₀ path) (hI : Unlinking fs₀ path w)
    (h : FileTree.Step unlinkPass w a u) :
    Unlinking fs₀ path u := by
  have hsub := (h.sub unlinkPass_shrinks).trans hI.sub
  have htree := hI.orderly.step_cases (hl.sub hI.sub) h
  have hord := hI.orderly.step htree
  cases htree with
  | @enter fr frs n hs hd hr =>
    refine ⟨hsub, hord, ?_, ?_⟩ <;> rw [enter_fs unlinkPass_quiet]
    · exact hI.dirs
    · intro q k hq hk hne
      apply (hI.due q k hq hk hne).enter hI.orderly hs hr
      rintro rfl
      exact hne (Option.some.inj (hk.symm.trans hd))
  | @report fr frs n k hs hk hne hr =>
    have hpre : path <+: fr.dir ++ [n] :=
      (hI.orderly.inside fr (by simp [hs])).2.trans (List.prefix_append _ _)
    have hfs : (unlinkPass.report (fr.dir ++ [n]) k.mode (w.mark (fr.dir ++ [n]))).fs =
        w.fs.unlink (fr.dir ++ [n]) :=
      unlinkFiles_of_reported (.found ((hl.sub hI.sub).stat hpre hk) hne)
    have hnot : w.fs.find (fr.dir ++ [n]) ≠ some .dir :=
      fun hd => hne (Option.some.inj (hk.symm.trans hd))
    refine ⟨hsub, hord, ?_, ?_⟩ <;> rw [hfs]
    · intro q hq
      rw [FileSystem.find_unlink, if_neg, hI.dirs q hq]
      rintro ⟨rfl, -⟩
      exact hnot (hI.dirs _ hq)
    · intro q k' hq hk' hne'
      rw [FileSystem.find_unlink] at hk'
      split at hk'
      · cases hk'
      · next hother =>
        apply (hI.due q k' hq hk' hne').report
        intro hpre
        have hnone := FileSystem.find_below_of_ne_dir hpre (fun heq => hother ⟨heq, hnot⟩) hnot
        exact absurd (hnone.symm.trans hk') (by simp)
  | @close fr frs hs hall =>
    refine ⟨hsub, hord, hI.dirs, ?_⟩
    intro q k hq hk hne
    exact (hI.due q k hq hk hne).close hs hall (by rw [show w.fs.find q = some k from hk]; simp)

/-- **The first walk leaves the directories**, and nothing else. -/
theorem Unlinking.find_iff (hI : Unlinking fs₀ path w) (hend : w.stack = []) (hq : path <+: q) :
    w.fs.find q = some k ↔ k = .dir ∧ fs₀.find q = some .dir := by
  constructor
  · intro hk
    have hdir : k = .dir := by
      by_contra hne
      exact not_due_of_over hend (hI.due q k hq hk hne)
    subst hdir
    exact ⟨rfl, hI.sub _ _ hk⟩
  · rintro ⟨rfl, hd⟩
    exact hI.dirs q hd

/-! ### The second walk -/

/-- Where the second walk stands: there are directories only, and each is being read, or due. -/
structure Removing (path : Path) (w : Walk) : Prop where
  orderly : Orderly path w
  dirs : ∀ q k, path <+: q → w.fs.find q = some k → k = .dir
  due : ∀ q, path <+: q → q ≠ [] → w.fs.find q ≠ none → (∃ fr ∈ w.stack, fr.dir = q) ∨ Due w q

theorem Removing.linkless (hI : Removing path w) : Linkless w.fs path := by
  intro q t hq hk
  exact Node.noConfusion (hI.dirs q _ hq hk)

theorem start_removing (hdirs : ∀ q k, path <+: q → fs.find q = some k → k = .dir) :
    Removing path (rmPass.start fs path) := by
  have hl : Linkless fs path := fun q t hq hk => Node.noConfusion (hdirs q _ hq hk)
  have hord : Orderly path (rmPass.start fs path) := orderly_start hl
  by_cases hthere : fs.find path = none
  · rw [start_none hthere] at hord ⊢
    exact ⟨hord, hdirs, fun q hq _ hne => absurd hthere (FileSystem.find_ne_none_of_prefix hq hne)⟩
  · obtain ⟨k, hk⟩ := Option.ne_none_iff_exists'.mp hthere
    obtain rfl := hdirs path k (List.prefix_refl _) hk
    rw [start_dir hl hk] at hord ⊢
    refine ⟨hord, hdirs, ?_⟩
    intro q hq _ _
    by_cases heq : q = path
    · exact .inl ⟨⟨path, path⟩, by simp, heq.symm⟩
    · exact .inr (due_enter_root _ rfl hq heq)

/-- **A directory is closed when nothing is in it.** -/
theorem Removing.names_eq_nil (hI : Removing path w) {fr : Frame} {frs : List Frame}
    (hs : w.stack = fr :: frs) (hall : ∀ n ∈ w.fs.names fr.dir, fr.dir ++ [n] ∈ w.read) :
    w.fs.names fr.dir = [] := by
  apply List.eq_nil_iff_forall_not_mem.mpr
  intro n hn
  have hpre : path <+: fr.dir ++ [n] :=
    (hI.orderly.inside fr (by simp [hs])).2.trans (List.prefix_append _ _)
  rcases hI.due _ hpre (by simp) (FileSystem.mem_names.mp hn) with ⟨fr', hfr', heq⟩ | hdue
  · exact hI.orderly.not_inside hs hfr' n heq
  · exact hI.orderly.not_read_of_due hs hdue (hall n hn)

/-- It is removed then, but for the root directory. -/
theorem Removing.find_leave (hI : Removing path w) {fr : Frame} {frs : List Frame}
    (hs : w.stack = fr :: frs) (hall : ∀ n ∈ w.fs.names fr.dir, fr.dir ++ [n] ∈ w.read)
    (hne : fr.dir ≠ []) : (rmPass.leave fr.name { w with stack := frs }).fs.find fr.dir = none := by
  obtain ⟨hname, hpre⟩ := hI.orderly.inside fr (by simp [hs])
  have hfs : (rmPass.leave fr.name { w with stack := frs }).fs = w.fs.rmdir fr.dir := by
    rw [← hname]
    rfl
  rw [hfs, FileSystem.find_rmdir]
  cases hk : w.fs.find fr.dir with
  | none => exact ite_self _
  | some k =>
    obtain rfl := hI.dirs _ k hpre hk
    exact if_pos ⟨rfl, hne, rfl, hI.names_eq_nil hs hall⟩

/-- **The second walk**: a directory is removed when it is neither read nor due any more. -/
theorem Removing.step (hI : Removing path w) (h : FileTree.Step rmPass w a u) :
    Removing path u := by
  have hsub := h.sub rmPass_shrinks
  have htree := hI.orderly.step_cases hI.linkless h
  have hord := hI.orderly.step htree
  have hdirs : ∀ q k, path <+: q → u.fs.find q = some k → k = .dir :=
    fun q k hq hk => hI.dirs q k hq (hsub q k hk)
  cases htree with
  | @enter fr frs n hs hd hr =>
    refine ⟨hord, hdirs, ?_⟩
    intro q hq hne hthere
    rw [enter_fs rmPass_quiet] at hthere
    rw [enter_stack]
    by_cases heq : q = fr.dir ++ [n]
    · exact .inl ⟨_, List.mem_cons_self, heq.symm⟩
    · rcases hI.due q hq hne hthere with ⟨fr', hfr', hq'⟩ | hdue
      · exact .inl ⟨fr', List.mem_cons_of_mem _ hfr', hq'⟩
      · exact .inr (hdue.enter hI.orderly hs hr heq)
  | @report fr frs n k hs hk hne hr =>
    have hpre : path <+: fr.dir ++ [n] :=
      (hI.orderly.inside fr (by simp [hs])).2.trans (List.prefix_append _ _)
    exact absurd (hI.dirs _ k hpre hk) hne
  | @close fr frs hs hall =>
    refine ⟨hord, hdirs, ?_⟩
    intro q hq hne hthere
    have hthere' : w.fs.find q ≠ none := fun hnone => hthere (hsub.find_eq_none hnone)
    rw [leave_stack]
    rcases hI.due q hq hne hthere' with ⟨fr', hfr', rfl⟩ | hdue
    · rw [hs] at hfr'
      rcases List.mem_cons.mp hfr' with rfl | hfr'
      · exact absurd (hI.find_leave hs hall hne) hthere
      · exact .inl ⟨fr', hfr', rfl⟩
    · exact .inr (hdue.close hs hall hthere')

/-! ### Both walks -/

/-- Where `utils_rmpath` stands. -/
def Clearing (fs₀ : FileSystem) (path : Path) (s : Rmpath) : Prop :=
  match s.pass with
  | .unlinkFiles => Unlinking fs₀ path s.walk
  | .rmDirs => Removing path s.walk

theorem Clearing.step (hl : Linkless fs₀ path) {t : Rmpath} {b : RmAct} (hI : Clearing fs₀ path s)
    (h : (utilsRmpath fs₀ path).step s b = some t) : Clearing fs₀ path t := by
  obtain ⟨pass, w⟩ := s
  cases pass with
  | unlinkFiles =>
    have hI : Unlinking fs₀ path w := hI
    cases b with
    | walk a =>
      obtain ⟨u, hu, rfl⟩ := Option.map_eq_some_iff.mp h
      exact hI.step hl (step_cases hu)
    | nextPass =>
      simp only [utilsRmpath] at h
      split at h
      · next hend =>
        obtain rfl := Option.some.inj h
        exact start_removing fun q k hq hk => ((hI.find_iff (List.isEmpty_iff.mp hend) hq).mp hk).1
      · cases h
  | rmDirs =>
    cases b with
    | walk a =>
      obtain ⟨u, hu, rfl⟩ := Option.map_eq_some_iff.mp h
      exact Removing.step hI (step_cases hu)
    | nextPass => cases h

theorem clearing_of_reach (hl : Linkless fs path) (h : (utilsRmpath fs path).Reach Any s) :
    Clearing fs path s := by
  refine Sys.Reach.invariant ?_ (fun s a t _ _ hI hst => hI.step hl hst) h
  rintro s rfl
  exact start_unlinking hl

/-- The function has returned. -/
def Finished (s : Rmpath) : Prop := s.pass = .rmDirs ∧ s.walk.stack = []

/-- Until it has returned there is a next step. -/
theorem exists_next (h : ¬Finished s) : ∃ b t, (utilsRmpath fs path).step s b = some t := by
  obtain ⟨pass, w⟩ := s
  cases hs : w.stack with
  | nil =>
    cases pass with
    | unlinkFiles => exact ⟨.nextPass, ⟨.rmDirs, rmPass.start w.fs path⟩, by simp [utilsRmpath, hs]⟩
    | rmDirs => exact absurd ⟨rfl, hs⟩ h
  | cons fr frs =>
    cases pass with
    | unlinkFiles =>
      obtain ⟨a, u, hu⟩ := exists_step (f := unlinkPass) hs
      exact ⟨.walk a, ⟨.unlinkFiles, u⟩, by simp [utilsRmpath, hu]⟩
    | rmDirs =>
      obtain ⟨a, u, hu⟩ := exists_step (f := rmPass) hs
      exact ⟨.walk a, ⟨.rmDirs, u⟩, by simp [utilsRmpath, hu]⟩

/-- What is left to do, of both walks. -/
def leftToDo (l : List Path) (s : Rmpath) : ℕ :=
  match s.pass with
  | .unlinkFiles => left l s.walk + (2 * l.length + 2)
  | .rmDirs => left l s.walk

theorem left_start_le (f : Nftw) (l : List Path) (fs : FileSystem) (path : Path) :
    left l (f.start fs path) ≤ 2 * l.length + 1 := by
  have hread : ∀ w : Walk, (unread l w).length ≤ l.length := fun w => List.length_filter_le _ _
  have hstack : (f.start fs path).stack.length ≤ 1 := by
    rcases start_cases f fs path with ⟨e, hst, hstart⟩ | ⟨mode, hm, hstart⟩ | hstart <;> rw [hstart]
    · simp
    · simp [Nftw.report]
    · simp
  have := hread (f.start fs path)
  simp only [left]
  omega

/-- Every step leaves less to do. -/
theorem leftToDo_lt {l : List Path} {t : Rmpath} {b : RmAct}
    (hl : ∀ q, s.walk.fs.find q ≠ none → q ∈ l) (h : (utilsRmpath fs path).step s b = some t) :
    (∀ q, t.walk.fs.find q ≠ none → q ∈ l) ∧ leftToDo l t < leftToDo l s := by
  have hsub : ∀ {fs' : FileSystem}, fs'.Sub s.walk.fs → ∀ q, fs'.find q ≠ none → q ∈ l := by
    intro fs' hsub q hq
    exact hl q fun hnone => hq (hsub.find_eq_none hnone)
  obtain ⟨pass, w⟩ := s
  cases pass with
  | unlinkFiles =>
    cases b with
    | walk a =>
      obtain ⟨u, hu, rfl⟩ := Option.map_eq_some_iff.mp h
      have hstep := step_cases hu
      refine ⟨hsub (hstep.sub unlinkPass_shrinks), ?_⟩
      have hlt : left l u < left l w := hstep.left_lt hl
      simp only [leftToDo]
      omega
    | nextPass =>
      simp only [utilsRmpath] at h
      split at h
      · obtain rfl := Option.some.inj h
        refine ⟨hsub (start_visiting rmPass_shrinks (.refl w.fs)).sub, ?_⟩
        have hle := left_start_le rmPass l w.fs path
        simp only [leftToDo]
        omega
      · cases h
  | rmDirs =>
    cases b with
    | walk a =>
      obtain ⟨u, hu, rfl⟩ := Option.map_eq_some_iff.mp h
      have hstep := step_cases hu
      exact ⟨hsub (hstep.sub rmPass_shrinks), hstep.left_lt hl⟩
    | nextPass => cases h

/-- No run goes on for ever. -/
theorem run_bounded (fs : FileSystem) (path : Path) :
    ∃ N, ∀ s₀ as s, (utilsRmpath fs path).init s₀ → (utilsRmpath fs path).Run Any s₀ as s →
      as.length ≤ N := by
  have hl : ∀ q, fs.find q ≠ none → q ∈ fs.nodes.map (·.1) := by
    intro q hq
    obtain ⟨e, he, rfl⟩ := FileSystem.isSome_lookup.mp (Option.isSome_iff_ne_none.mpr hq)
    exact List.mem_map_of_mem he
  refine ⟨leftToDo (fs.nodes.map (·.1)) ⟨.unlinkFiles, unlinkPass.start fs path⟩, ?_⟩
  rintro s₀ as s rfl hrun
  have hstart : ∀ q, (unlinkPass.start fs path).fs.find q ≠ none → q ∈ fs.nodes.map (·.1) := by
    intro q hq
    exact hl q fun hnone =>
      hq ((start_visiting unlinkPass_shrinks (.refl fs)).sub.find_eq_none hnone)
  have hle := (hrun.length_add_le (fun s b t hs hst => leftToDo_lt hs hst) hstart).2
  omega

/-- What `utils_rmpath` does to the tree at `path`. -/
structure RemovesTree (fs : FileSystem) (path : Path) : Prop where
  /-- It comes to an end, -/
  ends : ∃ N, ∀ s₀ as s, (utilsRmpath fs path).init s₀ → (utilsRmpath fs path).Run Any s₀ as s →
    as.length ≤ N
  /-- which is where it returns, -/
  returns : ∀ s, (utilsRmpath fs path).Reach Any s → ¬Finished s →
    ∃ b t, (utilsRmpath fs path).step s b = some t
  /-- and then nothing is at the path or below it. The root directory cannot be removed. -/
  gone : ∀ s, (utilsRmpath fs path).Reach Any s → Finished s → ∀ q, path <+: q → q ≠ [] →
    s.walk.fs.find q = none
  /-- The first walk leaves the directories, and nothing else. -/
  directories : ∀ s, (utilsRmpath fs path).Reach Any s → s.pass = .unlinkFiles → s.walk.stack = [] →
    ∀ q k, path <+: q → (s.walk.fs.find q = some k ↔ k = .dir ∧ fs.find q = some .dir)
  /-- The second comes to the end of a directory when there is nothing in it, and removes it. -/
  children : ∀ s t fr frs, (utilsRmpath fs path).Reach Any s → s.pass = .rmDirs →
    s.walk.stack = fr :: frs → (utilsRmpath fs path).step s (.walk .close) = some t →
      s.walk.fs.names fr.dir = [] ∧ (fr.dir ≠ [] → t.walk.fs.find fr.dir = none)
  /-- The callbacks do not look at the permissions. -/
  perm : ∀ (fs : FileSystem) (q : Path) (mode perm : ℕ), perm < 2 ^ 12 →
    unlinkFiles fs q (mode ||| perm) = unlinkFiles fs q mode ∧
    rmDirs fs q (mode ||| perm) = rmDirs fs q mode

/-- **`utils_rmpath` removes the whole tree**, if there are no links in it. -/
theorem rmpath_removes_tree (hl : Linkless fs path) : RemovesTree fs path where
  ends := run_bounded fs path
  returns _ _ h := exists_next h
  gone s h hfin q hq hne := by
    have hI := clearing_of_reach hl h
    obtain ⟨pass, w⟩ := s
    obtain ⟨rfl, hend⟩ := hfin
    have hI : Removing path w := hI
    by_contra hthere
    rcases hI.due q hq hne hthere with ⟨fr, hfr, -⟩ | hdue
    · rw [show w.stack = [] from hend] at hfr
      cases hfr
    · exact not_due_of_over hend hdue
  directories s h hpass hend q k hq := by
    have hI := clearing_of_reach hl h
    obtain ⟨pass, w⟩ := s
    obtain rfl : pass = .unlinkFiles := hpass
    exact Unlinking.find_iff hI hend hq
  children s t fr frs h hpass hs hstep := by
    have hI := clearing_of_reach hl h
    obtain ⟨pass, w⟩ := s
    obtain rfl : pass = .rmDirs := hpass
    have hI : Removing path w := hI
    obtain ⟨u, hu, rfl⟩ := Option.map_eq_some_iff.mp hstep
    have hs : w.stack = fr :: frs := hs
    cases step_cases hu with
    | @close fr' frs' hs' hall =>
      obtain ⟨rfl, rfl⟩ := List.cons.inj (hs'.symm.trans hs)
      exact ⟨hI.names_eq_nil hs hall, fun hne => hI.find_leave hs hall hne⟩
  perm _ _ _ _ h := ⟨unlinkFiles_perm h, rmDirs_perm h⟩

/-- A directory `t` with a file, and a directory in which there are a socket and an empty
directory. -/
def plainTree : FileSystem :=
  .ofNodes [([], .dir), (["t"], .dir), (["t", "f"], .reg), (["t", "d"], .dir),
    (["t", "d", "s"], .sock), (["t", "d", "e"], .dir), (["o"], .reg)] (by decide)

/-- It is removed. -/
theorem rmpath_removes_tree_plainTree : RemovesTree plainTree ["t"] :=
  rmpath_removes_tree (linkless_of_nodes (by simp [plainTree, FileSystem.ofNodes]))

end NginxTools.UtilsFiles
