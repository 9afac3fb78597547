import NginxTools.Library.FileWalk

/-!
# A walk through a tree without links

Below a directory below which there are no links every name is its own place, so that a walk comes
to every place by one name, and enters every directory that it comes to.

## The model

`TreeStep` is a step of a walk through a tree that is `Linkless`: a directory is entered, something
else is reported, or a directory is closed.

## What is proved

`Orderly` — the directories being read lie one below the other, and what they have not yielded has
not been come to. A place is `Due` while a name above it, or its own, has yet to be yielded. A step
takes from what is due only the directory it enters (`Due.enter`), or what it reports
(`Due.report`): a directory is closed when nothing in it is due (`Due.close`), and none of its
subdirectories is being read (`Orderly.not_inside`).
-/

namespace NginxTools.Library.FileTree

variable {f : Nftw} {w u : Walk} {a : WalkAct} {fs fs' : FileSystem} {root q d : Path} {k : Node}
    {n : String}

/-! ### The steps -/

/-- A step of a walk through a tree without links. -/
inductive TreeStep (f : Nftw) (w : Walk) : WalkAct → Walk → Prop where
  /-- A directory. -/
  | enter {fr : Frame} {frs : List Frame} {n : String} (hs : w.stack = fr :: frs)
      (hd : w.fs.find (fr.dir ++ [n]) = some .dir) (hr : fr.dir ++ [n] ∉ w.read) :
    TreeStep f w (.read n) (f.enter (fr.dir ++ [n]) (fr.dir ++ [n]) (w.mark (fr.dir ++ [n])))
  /-- Anything else. -/
  | report {fr : Frame} {frs : List Frame} {n : String} {k : Node} (hs : w.stack = fr :: frs)
      (hk : w.fs.find (fr.dir ++ [n]) = some k) (hne : k ≠ .dir) (hr : fr.dir ++ [n] ∉ w.read) :
    TreeStep f w (.read n) (f.report (fr.dir ++ [n]) k.mode (w.mark (fr.dir ++ [n])))
  | close {fr : Frame} {frs : List Frame} (hs : w.stack = fr :: frs)
      (hall : ∀ n ∈ w.fs.names fr.dir, fr.dir ++ [n] ∈ w.read) :
    TreeStep f w .close (f.leave fr.name { w with stack := frs })

/-- Where a walk stands in a tree without links. -/
structure Orderly (root : Path) (w : Walk) : Prop where
  /-- The directories being read are in the tree, and were come to by their own names. -/
  inside : ∀ fr ∈ w.stack, fr.name = fr.dir ∧ root <+: fr.dir
  /-- They have been entered. -/
  entered : ∀ fr ∈ w.stack, fr.dir ∈ w.seen
  /-- They lie one below the other. -/
  deeper : w.stack.Pairwise fun fr fr' => fr'.dir.length < fr.dir.length
  /-- What is above them in the tree has been yielded. -/
  passed : ∀ fr ∈ w.stack, ∀ p, root <+: p → p <+: fr.dir → p = root ∨ p ∈ w.read
  /-- A directory that has been entered has been yielded. -/
  seen : ∀ e ∈ w.seen, e = root ∨ e ∈ w.read
  /-- A directory whose names have been yielded has been entered. -/
  read : ∀ d n, d ++ [n] ∈ w.read → d ∈ w.seen

/-- A name that has not been yielded is that of a place that has not been entered. -/
theorem Orderly.not_seen (ho : Orderly root w) {fr : Frame} (hfr : fr ∈ w.stack)
    (hr : fr.dir ++ [n] ∉ w.read) :
    fr.dir ++ [n] ∉ w.seen := by
  intro hmem
  rcases ho.seen _ hmem with heq | hmem
  · have hle := (ho.inside fr hfr).2.length_le
    rw [← heq, List.length_append, List.length_singleton] at hle
    omega
  · exact hr hmem

/-- **The steps of a walk through a tree without links.** -/
theorem Orderly.step_cases (hl : Linkless w.fs root) (ho : Orderly root w) (h : Step f w a u) :
    TreeStep f w a u := by
  have hpre : ∀ {fr : Frame} {frs : List Frame} {n : String}, w.stack = fr :: frs →
      root <+: fr.dir ++ [n] := by
    intro fr frs n hs
    exact (ho.inside fr (by simp [hs])).2.trans (List.prefix_append _ _)
  cases h with
  | @again fr frs n e hs hn hr hst he =>
    obtain ⟨k, hk⟩ := Option.ne_none_iff_exists'.mp hn
    rw [hl.stat (hpre hs) hk] at hst
    obtain ⟨rfl, rfl⟩ := FileSystem.Stat.found.inj hst
    exact absurd he (ho.not_seen (by simp [hs]) hr)
  | @enter fr frs n e hs hn hr hst he =>
    obtain ⟨k, hk⟩ := Option.ne_none_iff_exists'.mp hn
    rw [hl.stat (hpre hs) hk] at hst
    obtain ⟨rfl, rfl⟩ := FileSystem.Stat.found.inj hst
    exact .enter hs hk hr
  | @report fr frs n mode hs hn hr hm =>
    obtain ⟨k, hk⟩ := Option.ne_none_iff_exists'.mp hn
    have hst := hl.stat (hpre hs) hk
    cases hm with
    | found h hne =>
      obtain ⟨-, rfl⟩ := FileSystem.Stat.found.inj (h.symm.trans hst)
      exact .report hs hk hne hr
    | missing h => exact absurd (h.symm.trans hst) FileSystem.Stat.noConfusion
  | @giveUp fr frs n hs hn hr hst =>
    obtain ⟨k, hk⟩ := Option.ne_none_iff_exists'.mp hn
    exact absurd ((hl.stat (hpre hs) hk).symm.trans hst) FileSystem.Stat.noConfusion
  | close hs hall => exact .close hs hall

/-- The walk begins at a directory, -/
theorem start_dir (hl : Linkless fs root) (h : fs.find root = some .dir) :
    f.start fs root = f.enter root root ⟨fs, [], [], []⟩ := by
  simp only [Nftw.start, hl.stat (List.prefix_refl _) h]

/-- or with what is reported and the walk is over, -/
theorem start_file (hl : Linkless fs root) (h : fs.find root = some k) (hne : k ≠ .dir) :
    f.start fs root = f.report root k.mode ⟨fs, [], [], []⟩ := by
  have hst := hl.stat (List.prefix_refl _) h
  cases k with
  | dir => exact absurd rfl hne
  | reg | sock | link t => simp only [Nftw.start, hst]

/-- or with nothing. -/
theorem start_none (h : fs.find root = none) : f.start fs root = ⟨fs, [], [], []⟩ := by
  simp only [Nftw.start, FileSystem.stat_eq_missing_iff.mpr (.here h), h, if_true]

theorem orderly_enter_root (w : Walk) (hstack : w.stack = []) (hseen : w.seen = [])
    (hread : w.read = []) :
    Orderly root (f.enter root root w) where
  inside fr hfr := by
    rw [enter_stack, hstack, List.mem_singleton] at hfr
    subst hfr
    exact ⟨rfl, List.prefix_refl _⟩
  entered fr hfr := by
    rw [enter_stack, hstack, List.mem_singleton] at hfr
    simp [hfr]
  deeper := by rw [enter_stack, hstack]; exact List.pairwise_singleton ..
  passed fr hfr p hp hp' := by
    rw [enter_stack, hstack, List.mem_singleton] at hfr
    subst hfr
    exact .inl (hp'.eq_of_length_le hp.length_le)
  seen e he := by
    rw [enter_seen, hseen, List.mem_singleton] at he
    exact .inl he
  read d n h := by simp [hread] at h

/-- A walk over which nothing is left to do. -/
theorem orderly_over (w : Walk) (hstack : w.stack = []) (hseen : w.seen = [])
    (hread : w.read = []) : Orderly root w :=
  ⟨by simp [hstack], by simp [hstack], by simp [hstack], by simp [hstack], by simp [hseen],
    by simp [hread]⟩

theorem orderly_start (hl : Linkless fs root) : Orderly root (f.start fs root) := by
  cases hk : fs.find root with
  | none =>
    rw [start_none hk]
    exact orderly_over _ rfl rfl rfl
  | some k =>
    by_cases hne : k = .dir
    · rw [start_dir hl (hne ▸ hk)]
      exact orderly_enter_root _ rfl rfl rfl
    · rw [start_file hl hk hne]
      exact orderly_over _ rfl rfl rfl

/-- **Every step keeps the order.** -/
theorem Orderly.step (ho : Orderly root w) (h : TreeStep f w a u) : Orderly root u := by
  cases h with
  | @enter fr frs n hs hd hr =>
    have htop : fr ∈ w.stack := by simp [hs]
    have hdeeper := ho.deeper
    rw [hs] at hdeeper
    refine ⟨?_, ?_, ?_, ?_, ?_, ?_⟩
    · rw [enter_stack]
      rintro fr' hfr'
      rcases List.mem_cons.mp hfr' with rfl | hfr'
      · exact ⟨rfl, (ho.inside fr htop).2.trans (List.prefix_append _ _)⟩
      · exact ho.inside fr' hfr'
    · rw [enter_stack, enter_seen]
      rintro fr' hfr'
      rcases List.mem_cons.mp hfr' with rfl | hfr'
      · exact List.mem_cons_self
      · exact List.mem_cons_of_mem _ (ho.entered fr' hfr')
    · rw [enter_stack]
      refine List.pairwise_cons.mpr ⟨?_, ho.deeper⟩
      intro fr' hfr'
      have hfr' : fr' ∈ fr :: frs := by rwa [← hs]
      rw [List.length_append, List.length_singleton]
      rcases List.mem_cons.mp hfr' with rfl | hfr'
      · omega
      · have hlt := (List.pairwise_cons.mp hdeeper).1 fr' hfr'
        omega
    · rw [enter_stack, enter_read]
      intro fr' hfr' p hp hp'
      rcases List.mem_cons.mp hfr' with rfl | hfr'
      · rcases List.prefix_concat_iff.mp hp' with rfl | hp'
        · exact .inr List.mem_cons_self
        · exact (ho.passed fr htop p hp hp').imp id (List.mem_cons_of_mem _)
      · exact (ho.passed fr' hfr' p hp hp').imp id (List.mem_cons_of_mem _)
    · rw [enter_seen, enter_read]
      intro e he
      rcases List.mem_cons.mp he with rfl | he
      · exact .inr List.mem_cons_self
      · exact (ho.seen e he).imp id (List.mem_cons_of_mem _)
    · rw [enter_seen, enter_read]
      intro d m hmem
      rcases List.mem_cons.mp hmem with heq | hmem
      · obtain ⟨rfl, -⟩ := List.append_inj' heq rfl
        exact List.mem_cons_of_mem _ (ho.entered fr htop)
      · exact List.mem_cons_of_mem _ (ho.read d m hmem)
  | @report fr frs n k hs hk hne hr =>
    have htop : fr ∈ w.stack := by simp [hs]
    refine ⟨ho.inside, ho.entered, ho.deeper, ?_, ?_, ?_⟩
    · intro fr' hfr' p hp hp'
      exact (ho.passed fr' hfr' p hp hp').imp id (List.mem_cons_of_mem _)
    · intro e he
      exact (ho.seen e he).imp id (List.mem_cons_of_mem _)
    · intro d m hmem
      rcases List.mem_cons.mp hmem with heq | hmem
      · obtain ⟨rfl, -⟩ := List.append_inj' heq rfl
        exact ho.entered fr htop
      · exact ho.read d m hmem
  | @close fr frs hs hall =>
    have hmem : ∀ fr' ∈ frs, fr' ∈ w.stack := fun fr' h => by simp [hs, h]
    have hdeeper := ho.deeper
    rw [hs] at hdeeper
    refine ⟨?_, ?_, ?_, ?_, ?_, ?_⟩
    · rw [leave_stack]
      exact fun fr' h => ho.inside fr' (hmem fr' h)
    · rw [leave_stack, leave_seen]
      exact fun fr' h => ho.entered fr' (hmem fr' h)
    · rw [leave_stack]
      exact (List.pairwise_cons.mp hdeeper).2
    · rw [leave_stack, leave_read]
      exact fun fr' h => ho.passed fr' (hmem fr' h)
    · rw [leave_seen, leave_read]
      exact ho.seen
    · rw [leave_seen, leave_read]
      exact ho.read

/-! ### What is due -/

/-- A name at or above the place has yet to be yielded. -/
def Due (w : Walk) (q : Path) : Prop :=
  ∃ fr ∈ w.stack, ∃ n, fr.dir ++ [n] <+: q ∧ fr.dir ++ [n] ∉ w.read

/-- Everything below the root is due at the start. -/
theorem due_enter_root (w : Walk) (hread : w.read = []) (hq : root <+: q) (hne : q ≠ root) :
    Due (f.enter root root w) q := by
  obtain ⟨rest, rfl⟩ := hq
  cases rest with
  | nil => simp at hne
  | cons m rest =>
    refine ⟨⟨root, root⟩, by simp, m, ?_, by simp [hread]⟩
    exact ⟨rest, by simp⟩

/-- A directory that is entered is no longer due, but what is below it still is. -/
theorem Due.enter (ho : Orderly root w) {fr : Frame} {frs : List Frame} (hs : w.stack = fr :: frs)
    (hr : fr.dir ++ [n] ∉ w.read) (hq : Due w q) (hne : q ≠ fr.dir ++ [n]) :
    Due (f.enter (fr.dir ++ [n]) (fr.dir ++ [n]) (w.mark (fr.dir ++ [n]))) q := by
  obtain ⟨fr', hfr', m, hpre, hm⟩ := hq
  by_cases heq : fr'.dir ++ [m] = fr.dir ++ [n]
  · rw [heq] at hpre
    obtain ⟨rest, rfl⟩ := hpre
    cases rest with
    | nil => simp at hne
    | cons l rest =>
      refine ⟨⟨fr.dir ++ [n], fr.dir ++ [n]⟩, by simp, l, ⟨rest, by simp⟩, ?_⟩
      rw [enter_read]
      intro hmem
      rcases List.mem_cons.mp hmem with heq' | hmem
      · simp at heq'
      · exact ho.not_seen (by simp [hs]) hr (ho.read _ _ hmem)
  · refine ⟨fr', ?_, m, hpre, ?_⟩
    · rw [enter_stack]
      exact List.mem_cons_of_mem _ hfr'
    · rw [enter_read]
      intro hmem
      rcases List.mem_cons.mp hmem with heq' | hmem
      · exact heq heq'
      · exact hm hmem

/-- What is reported is no longer due. -/
theorem Due.report {fr : Frame} {mode : ℕ} (hq : Due w q) (hne : ¬fr.dir ++ [n] <+: q) :
    Due (f.report (fr.dir ++ [n]) mode (w.mark (fr.dir ++ [n]))) q := by
  obtain ⟨fr', hfr', m, hpre, hm⟩ := hq
  refine ⟨fr', hfr', m, hpre, ?_⟩
  intro hmem
  rcases List.mem_cons.mp hmem with heq | hmem
  · exact hne (heq ▸ hpre)
  · exact hm hmem

/-- When a directory is closed, what is there and due is due elsewhere. -/
theorem Due.close {fr : Frame} {frs : List Frame} (hs : w.stack = fr :: frs)
    (hall : ∀ n ∈ w.fs.names fr.dir, fr.dir ++ [n] ∈ w.read) (hq : Due w q)
    (hthere : w.fs.find q ≠ none) :
    Due (f.leave fr.name { w with stack := frs }) q := by
  obtain ⟨fr', hfr', m, hpre, hm⟩ := hq
  rw [hs] at hfr'
  rcases List.mem_cons.mp hfr' with rfl | hfr'
  · have hmem := FileSystem.mem_names.mpr (FileSystem.find_ne_none_of_prefix hpre hthere)
    exact absurd (hall m hmem) hm
  · exact ⟨fr', by rw [leave_stack]; exact hfr', m, hpre, by rw [leave_read]; exact hm⟩

/-- Nothing is due any more when the walk is over. -/
theorem not_due_of_over (h : w.stack = []) : ¬Due w q := by
  rintro ⟨fr, hfr, -⟩
  simp [h] at hfr

/-- Of the directories being read none lies in the innermost. -/
theorem Orderly.not_inside (ho : Orderly root w) {fr fr' : Frame} {frs : List Frame}
    (hs : w.stack = fr :: frs) (hfr' : fr' ∈ w.stack) (n : String) : fr'.dir ≠ fr.dir ++ [n] := by
  intro heq
  have hdeeper := ho.deeper
  rw [hs] at hdeeper hfr'
  rcases List.mem_cons.mp hfr' with rfl | hfr'
  · simp at heq
  · have hlt := (List.pairwise_cons.mp hdeeper).1 fr' hfr'
    rw [heq, List.length_append] at hlt
    omega

/-- What is due in the innermost directory has itself not been yielded. -/
theorem Orderly.not_read_of_due (ho : Orderly root w) {fr : Frame} {frs : List Frame}
    (hs : w.stack = fr :: frs) (h : Due w (fr.dir ++ [n])) : fr.dir ++ [n] ∉ w.read := by
  obtain ⟨fr', hfr', m, hpre, hm⟩ := h
  rcases List.prefix_concat_iff.mp hpre with heq | hpre
  · rwa [← heq]
  · -- a name above the innermost directory has been yielded
    have hroot := (ho.inside fr' hfr').2
    rcases ho.passed fr (by simp [hs]) _ (hroot.trans (List.prefix_append _ _)) hpre with heq | hmem
    · have hle := hroot.length_le
      rw [← heq, List.length_append, List.length_singleton] at hle
      omega
    · exact absurd hmem hm

end NginxTools.Library.FileTree
