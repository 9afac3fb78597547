import NginxTools.Library.FileTree
import NginxTools.Library.TransitionSystem

/-!
# A walk through a tree of files

`nftw` without `FTW_PHYS`: everything below a directory is reported to a callback, links being
followed. The callback is given the name by which something was come to, and the `st_mode` of what
is there. A directory is entered once: one that is come to by a second name is passed over. With
`FTW_DEPTH` it is reported after what is below it.

## The model

* `Nftw` — a callback and the flag. A name is given by its place, and the callback changes the file
  system.
* `Walk` — what has been visited, and the directories being read, the innermost first.
* `Nftw.step` — the innermost directory yields a name that is in it and that it has not yielded
  before, in any order; or all of them have been yielded, and it is closed. Links that go round in a
  circle end the walk, as any error does.

## What is proved

For a callback that takes places away only: `exists_finish` — every walk can go on to an end.
`Visiting.step` — every directory being read can be reached in the file system there was at first.
`Reaches.exists_descent` and `Descent.exists_run` — some walk goes straight to a directory that can
be reached.
-/

namespace NginxTools.Library.FileTree

/-! ### `st_mode` -/

/-- `S_IFSOCK`. -/
def sIfsock : ℕ := 0o140000

/-- `S_IFLNK`. -/
def sIflnk : ℕ := 0o120000

/-- `S_IFREG`. -/
def sIfreg : ℕ := 0o100000

/-- `S_IFDIR`. -/
def sIfdir : ℕ := 0o040000

/-- The type of a file in its `st_mode`. -/
def Node.mode : Node → ℕ
  | .dir => sIfdir
  | .reg => sIfreg
  | .sock => sIfsock
  | .link _ => sIflnk

/-! ### The walk -/

/-- What `nftw` is given. -/
structure Nftw where
  /-- The callback: what it makes of the file system, given the place of a name and an `st_mode`. -/
  fn : FileSystem → Path → ℕ → FileSystem
  /-- `FTW_DEPTH`. -/
  depth : Bool

/-- A directory that is being read. -/
structure Frame where
  dir : Path
  /-- The place of the name by which it was come to. -/
  name : Path

/-- Where a walk stands. -/
structure Walk where
  fs : FileSystem
  /-- The directories that have been entered. -/
  seen : List Path
  /-- The places of the names that have been yielded. -/
  read : List Path
  /-- The directories being read, the innermost first. -/
  stack : List Frame

/-- What the innermost directory does next. -/
inductive WalkAct where
  /-- It yields a name. -/
  | read (n : String)
  /-- It has no more names. -/
  | close
deriving DecidableEq

/-- A name has been yielded. -/
def Walk.mark (w : Walk) (q : Path) : Walk := { w with read := q :: w.read }

namespace Nftw

variable (f : Nftw)

/-- The callback is called. -/
def report (name : Path) (mode : ℕ) (w : Walk) : Walk := { w with fs := f.fn w.fs name mode }

/-- A directory is entered. -/
def enter (dir name : Path) (w : Walk) : Walk :=
  let w := if f.depth then w else f.report name sIfdir w
  { w with
    seen := dir :: w.seen
    stack := ⟨dir, name⟩ :: w.stack }

/-- A directory is left. -/
def leave (name : Path) (w : Walk) : Walk := if f.depth then f.report name sIfdir w else w

/-- What is at a name is looked up, and entered or reported. -/
def process (q : Path) (w : Walk) : Walk :=
  match w.fs.stat q with
  | .found e .dir => if e ∈ w.seen then w else f.enter e q w
  | .found _ k => f.report q k.mode w
  | .missing => f.report q sIflnk w
  | .loop => { w with stack := [] }

/-- The next step of a walk. -/
def step (w : Walk) : WalkAct → Option Walk
  | .read n =>
    match w.stack with
    | [] => none
    | fr :: _ =>
      if w.fs.find (fr.dir ++ [n]) ≠ none ∧ fr.dir ++ [n] ∉ w.read then
        some (f.process (fr.dir ++ [n]) (w.mark (fr.dir ++ [n])))
      else none
  | .close =>
    match w.stack with
    | [] => none
    | fr :: frs =>
      if ∀ n ∈ w.fs.names fr.dir, fr.dir ++ [n] ∈ w.read then
        some (f.leave fr.name { w with stack := frs })
      else none

/-- The walk begins at a place. -/
def start (fs : FileSystem) (root : Path) : Walk :=
  match fs.stat root with
  | .found e .dir => f.enter e root ⟨fs, [], [], []⟩
  | .found _ k => f.report root k.mode ⟨fs, [], [], []⟩
  | .missing =>
      if fs.find root = none then ⟨fs, [], [], []⟩ else f.report root sIflnk ⟨fs, [], [], []⟩
  | .loop => ⟨fs, [], [], []⟩

/-- The walks from a place. -/
def walks (fs : FileSystem) (root : Path) : Sys Walk WalkAct where
  init w := w = f.start fs root
  step := f.step

end Nftw

/-! ### The steps -/

/-- What is reported of a name: what is no directory, and a link to nothing as itself. -/
inductive Reported (fs : FileSystem) (q : Path) : ℕ → Prop where
  | found {e : Path} {k : Node} (h : fs.stat q = .found e k) (hk : k ≠ .dir) : Reported fs q k.mode
  | missing (h : fs.stat q = .missing) : Reported fs q sIflnk

/-- A step of a walk. -/
inductive Step (f : Nftw) (w : Walk) : WalkAct → Walk → Prop where
  /-- A directory by a second name. -/
  | again {fr : Frame} {frs : List Frame} {n : String} {e : Path} (hs : w.stack = fr :: frs)
      (hn : w.fs.find (fr.dir ++ [n]) ≠ none) (hr : fr.dir ++ [n] ∉ w.read)
      (hst : w.fs.stat (fr.dir ++ [n]) = .found e .dir) (he : e ∈ w.seen) :
    Step f w (.read n) (w.mark (fr.dir ++ [n]))
  /-- A directory. -/
  | enter {fr : Frame} {frs : List Frame} {n : String} {e : Path} (hs : w.stack = fr :: frs)
      (hn : w.fs.find (fr.dir ++ [n]) ≠ none) (hr : fr.dir ++ [n] ∉ w.read)
      (hst : w.fs.stat (fr.dir ++ [n]) = .found e .dir) (he : e ∉ w.seen) :
    Step f w (.read n) (f.enter e (fr.dir ++ [n]) (w.mark (fr.dir ++ [n])))
  /-- Anything else. -/
  | report {fr : Frame} {frs : List Frame} {n : String} {mode : ℕ} (hs : w.stack = fr :: frs)
      (hn : w.fs.find (fr.dir ++ [n]) ≠ none) (hr : fr.dir ++ [n] ∉ w.read)
      (hm : Reported w.fs (fr.dir ++ [n]) mode) :
    Step f w (.read n) (f.report (fr.dir ++ [n]) mode (w.mark (fr.dir ++ [n])))
  /-- A circle of links. -/
  | giveUp {fr : Frame} {frs : List Frame} {n : String} (hs : w.stack = fr :: frs)
      (hn : w.fs.find (fr.dir ++ [n]) ≠ none) (hr : fr.dir ++ [n] ∉ w.read)
      (hst : w.fs.stat (fr.dir ++ [n]) = .loop) :
    Step f w (.read n) { w.mark (fr.dir ++ [n]) with stack := [] }
  | close {fr : Frame} {frs : List Frame} (hs : w.stack = fr :: frs)
      (hall : ∀ n ∈ w.fs.names fr.dir, fr.dir ++ [n] ∈ w.read) :
    Step f w .close (f.leave fr.name { w with stack := frs })

variable {f : Nftw} {w u : Walk} {a : WalkAct} {fs : FileSystem} {root : Path}

theorem process_again {q e : Path} (h : w.fs.stat q = .found e .dir) (he : e ∈ w.seen) :
    f.process q w = w := by
  simp only [Nftw.process, h]
  exact if_pos he

theorem process_enter {q e : Path} (h : w.fs.stat q = .found e .dir) (he : e ∉ w.seen) :
    f.process q w = f.enter e q w := by
  simp only [Nftw.process, h]
  exact if_neg he

theorem process_reported {q : Path} {mode : ℕ} (h : Reported w.fs q mode) :
    f.process q w = f.report q mode w := by
  cases h with
  | missing h => simp only [Nftw.process, h]
  | @found e k h hk =>
    cases k with
    | dir => exact absurd rfl hk
    | reg | sock | link t => simp only [Nftw.process, h]

/-- A name that is there and has not been yielded can be yielded. -/
theorem step_read {fr : Frame} {frs : List Frame} {n : String} (hs : w.stack = fr :: frs)
    (hn : w.fs.find (fr.dir ++ [n]) ≠ none) (hr : fr.dir ++ [n] ∉ w.read) :
    f.step w (.read n) = some (f.process (fr.dir ++ [n]) (w.mark (fr.dir ++ [n]))) := by
  simp only [Nftw.step, hs]
  exact if_pos ⟨hn, hr⟩

/-- A directory all of whose names have been yielded can be closed. -/
theorem step_close {fr : Frame} {frs : List Frame} (hs : w.stack = fr :: frs)
    (hall : ∀ n ∈ w.fs.names fr.dir, fr.dir ++ [n] ∈ w.read) :
    f.step w .close = some (f.leave fr.name { w with stack := frs }) := by
  simp only [Nftw.step, hs]
  exact if_pos hall

/-- The steps, by what they do. -/
theorem step_cases (h : f.step w a = some u) : Step f w a u := by
  cases a with
  | read n =>
    simp only [Nftw.step] at h
    split at h
    · cases h
    · next fr frs hs =>
      split at h
      · next hc =>
        obtain rfl := Option.some.inj h
        have hfs : (w.mark (fr.dir ++ [n])).fs = w.fs := rfl
        cases hst : w.fs.stat (fr.dir ++ [n]) with
        | loop =>
          simp only [Nftw.process, hfs, hst]
          exact .giveUp hs hc.1 hc.2 hst
        | missing =>
          rw [process_reported (w := w.mark (fr.dir ++ [n])) (.missing hst)]
          exact .report hs hc.1 hc.2 (.missing hst)
        | found e k =>
          by_cases hk : k = .dir
          · subst hk
            by_cases he : e ∈ w.seen
            · rw [process_again (w := w.mark (fr.dir ++ [n])) hst he]
              exact .again hs hc.1 hc.2 hst he
            · rw [process_enter (w := w.mark (fr.dir ++ [n])) hst he]
              exact .enter hs hc.1 hc.2 hst he
          · rw [process_reported (w := w.mark (fr.dir ++ [n])) (.found hst hk)]
            exact .report hs hc.1 hc.2 (.found hst hk)
      · cases h
  | close =>
    simp only [Nftw.step] at h
    split at h
    · cases h
    · next fr frs hs =>
      split at h
      · next hall =>
        obtain rfl := Option.some.inj h
        exact .close hs hall
      · cases h

/-- How a walk begins: with a directory, with what is reported and the walk is over, or with
nothing. -/
theorem start_cases (f : Nftw) (fs : FileSystem) (root : Path) :
    (∃ e, fs.stat root = .found e .dir ∧ f.start fs root = f.enter e root ⟨fs, [], [], []⟩) ∨
      (∃ mode, Reported fs root mode ∧ f.start fs root = f.report root mode ⟨fs, [], [], []⟩) ∨
      f.start fs root = ⟨fs, [], [], []⟩ := by
  cases hst : fs.stat root with
  | found e k =>
    by_cases hk : k = .dir
    · subst hk
      exact .inl ⟨e, rfl, by simp only [Nftw.start, hst]⟩
    · refine .inr (.inl ⟨k.mode, .found hst hk, ?_⟩)
      cases k with
      | dir => exact absurd rfl hk
      | reg | sock | link t => simp only [Nftw.start, hst]
  | missing =>
    by_cases hnone : fs.find root = none
    · refine .inr (.inr ?_)
      simp only [Nftw.start, hst]
      exact if_pos hnone
    · refine .inr (.inl ⟨sIflnk, .missing hst, ?_⟩)
      simp only [Nftw.start, hst]
      exact if_neg hnone
  | loop => exact .inr (.inr (by simp only [Nftw.start, hst]))

/-! ### A callback that takes away -/

/-- The callback takes places away, and nothing else. -/
def Shrinks (f : Nftw) : Prop := ∀ fs q mode, (f.fn fs q mode).Sub fs

/-- A directory that is entered stays as it is. -/
def Quiet (f : Nftw) : Prop := f.depth = false → ∀ fs q, f.fn fs q sIfdir = fs

theorem report_sub (hf : Shrinks f) (q : Path) (mode : ℕ) (w : Walk) :
    (f.report q mode w).fs.Sub w.fs := hf _ _ _

theorem enter_fs (hq : Quiet f) (e q : Path) (w : Walk) : (f.enter e q w).fs = w.fs := by
  cases hd : f.depth with
  | true => simp [Nftw.enter, hd]
  | false => simp [Nftw.enter, Nftw.report, hd, hq hd]

theorem enter_sub (hf : Shrinks f) (e q : Path) (w : Walk) : (f.enter e q w).fs.Sub w.fs := by
  cases hd : f.depth with
  | true => simpa [Nftw.enter, hd] using FileSystem.Sub.refl w.fs
  | false => simpa [Nftw.enter, hd] using report_sub hf q sIfdir w

theorem leave_sub (hf : Shrinks f) (q : Path) (w : Walk) : (f.leave q w).fs.Sub w.fs := by
  cases hd : f.depth with
  | true => simpa [Nftw.leave, hd] using report_sub hf q sIfdir w
  | false => simpa [Nftw.leave, hd] using FileSystem.Sub.refl w.fs

@[simp]
theorem enter_seen (e q : Path) (w : Walk) : (f.enter e q w).seen = e :: w.seen := by
  cases hd : f.depth <;> simp [Nftw.enter, Nftw.report, hd]

@[simp]
theorem enter_read (e q : Path) (w : Walk) : (f.enter e q w).read = w.read := by
  cases hd : f.depth <;> simp [Nftw.enter, Nftw.report, hd]

@[simp]
theorem enter_stack (e q : Path) (w : Walk) : (f.enter e q w).stack = ⟨e, q⟩ :: w.stack := by
  cases hd : f.depth <;> simp [Nftw.enter, Nftw.report, hd]

@[simp]
theorem leave_stack (q : Path) (w : Walk) : (f.leave q w).stack = w.stack := by
  cases hd : f.depth <;> simp [Nftw.leave, Nftw.report, hd]

@[simp]
theorem leave_read (q : Path) (w : Walk) : (f.leave q w).read = w.read := by
  cases hd : f.depth <;> simp [Nftw.leave, Nftw.report, hd]

@[simp]
theorem leave_seen (q : Path) (w : Walk) : (f.leave q w).seen = w.seen := by
  cases hd : f.depth <;> simp [Nftw.leave, Nftw.report, hd]

/-- Every step takes away only. -/
theorem Step.sub (hf : Shrinks f) (h : Step f w a u) : u.fs.Sub w.fs := by
  cases h with
  | again hs hn hr hst he => exact FileSystem.Sub.refl _
  | enter hs hn hr hst he => exact enter_sub hf _ _ _
  | report hs hn hr hm => exact report_sub hf _ _ _
  | giveUp hs hn hr hst => exact FileSystem.Sub.refl _
  | close hs hall => exact leave_sub hf _ _

/-! ### Every walk ends -/

/-- The places of a list that have not been yielded. -/
def unread (l : List Path) (w : Walk) : List Path := l.filter (· ∉ w.read)

theorem unread_mark_lt {l : List Path} {q : Path} (hq : q ∈ l) (hr : q ∉ w.read) :
    (unread l (w.mark q)).length < (unread l w).length := by
  have hfilter : unread l (w.mark q) = (unread l w).filter (· ≠ q) := by
    rw [unread, unread, List.filter_filter]
    exact List.filter_congr fun p _ => by simp [Walk.mark]
  rw [hfilter, List.length_filter_lt_length_iff_exists]
  exact ⟨q, List.mem_filter.mpr ⟨hq, by simpa using hr⟩, by simp⟩

/-- What is left to do, the places of a list being those at which there may be something. -/
def left (l : List Path) (w : Walk) : ℕ := 2 * (unread l w).length + w.stack.length

theorem Step.left_lt {l : List Path} (hl : ∀ q, w.fs.find q ≠ none → q ∈ l) (h : Step f w a u) :
    left l u < left l w := by
  cases h with
  | @again fr frs n e hs hn hr hst he =>
    have hlt := unread_mark_lt (hl _ hn) hr
    have hstack : (w.mark (fr.dir ++ [n])).stack = w.stack := rfl
    simp only [left, hstack]
    omega
  | @enter fr frs n e hs hn hr hst he =>
    have hlt := unread_mark_lt (hl _ hn) hr
    have hread : unread l (f.enter e (fr.dir ++ [n]) (w.mark (fr.dir ++ [n]))) =
        unread l (w.mark (fr.dir ++ [n])) := by
      simp [unread]
    have hstack : (w.mark (fr.dir ++ [n])).stack = w.stack := rfl
    simp only [left, hread, enter_stack, hstack, List.length_cons]
    omega
  | @report fr frs n mode hs hn hr hm =>
    have hlt := unread_mark_lt (hl _ hn) hr
    have hread : unread l (f.report (fr.dir ++ [n]) mode (w.mark (fr.dir ++ [n]))) =
        unread l (w.mark (fr.dir ++ [n])) := rfl
    have hstack : (f.report (fr.dir ++ [n]) mode (w.mark (fr.dir ++ [n]))).stack = w.stack := rfl
    simp only [left, hread, hstack]
    omega
  | @giveUp fr frs n hs hn hr hst =>
    have hlt := unread_mark_lt (hl _ hn) hr
    have hread : unread l { w.mark (fr.dir ++ [n]) with stack := [] } =
        unread l (w.mark (fr.dir ++ [n])) := rfl
    simp only [left, hread, List.length_nil]
    omega
  | @close fr frs hs hall =>
    have hread : unread l (f.leave fr.name { w with stack := frs }) = unread l w := by simp [unread]
    simp only [left, hread, leave_stack, hs, List.length_cons]
    omega

/-- While a directory is being read, there is a next step. -/
theorem exists_step {fr : Frame} {frs : List Frame} (hs : w.stack = fr :: frs) :
    ∃ a u, f.step w a = some u := by
  by_cases hall : ∀ n ∈ w.fs.names fr.dir, fr.dir ++ [n] ∈ w.read
  · exact ⟨.close, _, step_close hs hall⟩
  · obtain ⟨n, hn⟩ := not_forall.mp hall
    obtain ⟨hmem, hr⟩ := Classical.not_imp.mp hn
    exact ⟨.read n, _, step_read hs (FileSystem.mem_names.mp hmem) hr⟩

/-- **Every walk can go on to an end.** -/
theorem exists_finish (hf : Shrinks f) (fs : FileSystem) (root : Path) (w : Walk) :
    ∃ as u, (f.walks fs root).Run Any w as u ∧ u.stack = [] := by
  have hl : ∃ l : List Path, ∀ q, w.fs.find q ≠ none → q ∈ l := by
    refine ⟨w.fs.nodes.map (·.1), fun q hq => ?_⟩
    obtain ⟨e, he, rfl⟩ := FileSystem.isSome_lookup.mp (Option.isSome_iff_ne_none.mpr hq)
    exact List.mem_map_of_mem he
  obtain ⟨l, hl⟩ := hl
  induction hm : left l w using Nat.strong_induction_on generalizing w with
  | _ m ih =>
    cases hs : w.stack with
    | nil => exact ⟨[], w, .nil, hs⟩
    | cons fr frs =>
      obtain ⟨a, u, hu⟩ := exists_step (f := f) hs
      have hstep := step_cases hu
      have hlu : ∀ q, u.fs.find q ≠ none → q ∈ l := by
        intro q hq
        apply hl q
        intro hnone
        exact hq ((hstep.sub hf).find_eq_none hnone)
      obtain ⟨as, v, hrun, hv⟩ := ih _ (hm ▸ hstep.left_lt hl) u hlu rfl
      exact ⟨[a] ++ as, v, (Sys.Run.single trivial hu).trans hrun, hv⟩

/-! ### What can be reached -/

/-- The directories that a walk from a place can come to, through directories and links to
directories. -/
inductive Reaches (fs : FileSystem) (root : Path) : Path → Prop where
  | root {e : Path} (h : fs.stat root = .found e .dir) : Reaches fs root e
  | entry {d e : Path} {n : String} (hd : Reaches fs root d)
      (h : fs.stat (d ++ [n]) = .found e .dir) : Reaches fs root e

variable {fs₀ : FileSystem} {d e : Path}

/-- What can be reached stays so if all ways to directories do. -/
theorem Reaches.mono (hkeep : ∀ q e, fs.stat q = .found e .dir → fs₀.stat q = .found e .dir)
    (h : Reaches fs root d) :
    Reaches fs₀ root d := by
  induction h with
  | root h => exact .root (hkeep _ _ h)
  | entry _ h ih => exact .entry ih (hkeep _ _ h)

/-- A frame is of a directory that can be reached, by a name in one. -/
structure Frame.Reached (fs₀ : FileSystem) (root : Path) (fr : Frame) : Prop where
  dir : Reaches fs₀ root fr.dir
  name : fr.name = root ∨ ∃ d n, Reaches fs₀ root d ∧ fr.name = d ++ [n]
  /-- The name leads to the directory. -/
  leads : fs₀.stat fr.name = .found fr.dir .dir

/-- Where a walk stands in the file system that there was at first. -/
structure Visiting (fs₀ : FileSystem) (root : Path) (w : Walk) : Prop where
  sub : w.fs.Sub fs₀
  reached : ∀ fr ∈ w.stack, fr.Reached fs₀ root

theorem start_visiting (hf : Shrinks f) (hsub : fs.Sub fs₀) :
    Visiting fs₀ root (f.start fs root) := by
  rcases start_cases f fs root with ⟨e, hst, hstart⟩ | ⟨mode, hm, hstart⟩ | hstart <;> rw [hstart]
  · refine ⟨(enter_sub hf _ _ _).trans hsub, ?_⟩
    intro fr hfr
    have hst := FileSystem.stat_mono hsub hst
    rw [enter_stack, List.mem_singleton] at hfr
    subst hfr
    exact ⟨.root hst, .inl rfl, hst⟩
  · exact ⟨(report_sub hf _ _ _).trans hsub, by simp [Nftw.report]⟩
  · exact ⟨hsub, by simp⟩

/-- **The directories being read can be reached** in the file system that there was at first. -/
theorem Visiting.step (hf : Shrinks f) (hI : Visiting fs₀ root w) (h : Step f w a u) :
    Visiting fs₀ root u := by
  refine ⟨(h.sub hf).trans hI.sub, ?_⟩
  cases h with
  | again hs hn hr hst he => exact hI.reached
  | @enter fr frs n e hs hn hr hst he =>
    intro fr' hfr'
    have hst := FileSystem.stat_mono hI.sub hst
    have hdir := (hI.reached fr (by simp [hs])).dir
    rw [enter_stack] at hfr'
    rcases List.mem_cons.mp hfr' with rfl | hfr'
    · exact ⟨.entry hdir hst, .inr ⟨fr.dir, n, hdir, rfl⟩, hst⟩
    · exact hI.reached fr' hfr'
  | report hs hn hr hm => exact hI.reached
  | giveUp hs hn hr hst => simp
  | @close fr frs hs hall =>
    intro fr' hfr'
    rw [leave_stack] at hfr'
    exact hI.reached fr' (by simp [hs, hfr'])

/-! ### Going straight to a directory -/

/-- A way down, the innermost directory first, that comes to no directory twice. -/
inductive Descent (fs : FileSystem) (root : Path) : List Path → Prop where
  | root {e : Path} (h : fs.stat root = .found e .dir) : Descent fs root [e]
  | entry {d e : Path} {ds : List Path} {n : String} (hd : Descent fs root (d :: ds))
      (h : fs.stat (d ++ [n]) = .found e .dir) (he : e ∉ d :: ds) : Descent fs root (e :: d :: ds)

/-- A way down passes the directories above as a way down. -/
theorem Descent.of_append {ds es : List Path} (h : Descent fs root (es ++ ds)) (hds : ds ≠ []) :
    Descent fs root ds := by
  induction es with
  | nil => exact h
  | cons e es ih =>
    apply ih
    rw [List.cons_append] at h
    generalize hl : es ++ ds = l at h
    cases h with
    | root => simp [hds] at hl
    | entry hd _ _ => exact hd

/-- **What can be reached can be gone to straight.** -/
theorem Reaches.exists_descent (h : Reaches fs root d) : ∃ ds, Descent fs root (d :: ds) := by
  induction h with
  | root h => exact ⟨[], .root h⟩
  | @entry d e n _ h ih =>
    obtain ⟨ds, hds⟩ := ih
    by_cases he : e ∈ d :: ds
    · obtain ⟨es, fs', hsplit⟩ := List.append_of_mem he
      rw [hsplit] at hds
      exact ⟨fs', hds.of_append (by simp)⟩
    · exact ⟨d :: ds, .entry hds h he⟩

/-- All but the innermost directory of a way down have something in them. -/
theorem Descent.names_ne_nil {ds : List Path} (h : Descent fs root (d :: ds)) :
    d ∉ ds ∧ ∀ p ∈ ds, fs.names p ≠ [] := by
  generalize hl : d :: ds = l at h
  induction h generalizing d ds with
  | root => cases hl; simp
  | @entry d' e ds' n hd h he ih =>
    cases hl
    refine ⟨he, ?_⟩
    intro p hp
    rcases List.mem_cons.mp hp with rfl | hp
    · have hfind : fs.find (p ++ [n]) ≠ none := by
        intro hnone
        exact absurd (FileSystem.stat_eq_missing_iff.mpr (.here hnone)) (by simp [h])
      exact List.ne_nil_of_mem (FileSystem.mem_names.mpr hfind)
    · exact (ih rfl).2 p hp

/-- What a walk is like when it has gone straight to a directory. -/
structure Gone (fs : FileSystem) (d : Path) (ds : List Path) (w : Walk) : Prop where
  fs : w.fs = fs
  stack : ∃ name frs, w.stack = ⟨d, name⟩ :: frs
  seen : w.seen = d :: ds
  read : ∀ q ∈ w.read, ∃ p ∈ ds, ∃ n, q = p ++ [n]

/-- The directory gone to has not yielded a name. -/
theorem Gone.not_read {ds : List Path} (hw : Gone fs d ds w) (h : Descent fs root (d :: ds))
    (n : String) :
    d ++ [n] ∉ w.read := by
  intro hmem
  obtain ⟨p, hp, m, heq⟩ := hw.read _ hmem
  obtain ⟨rfl, -⟩ := List.append_inj' heq rfl
  exact h.names_ne_nil.1 hp

/-- **Some walk goes straight to the directory**, changing nothing. -/
theorem Descent.exists_run (hq : Quiet f) {ds : List Path} (h : Descent fs root (d :: ds)) :
    ∃ as w, (f.walks fs root).Run Any (f.start fs root) as w ∧ Gone fs d ds w := by
  generalize hl : d :: ds = l at h
  induction h generalizing d ds with
  | @root e h =>
    cases hl
    refine ⟨[], _, .nil, ?_⟩
    have hstart : f.start fs root = f.enter e root ⟨fs, [], [], []⟩ := by simp [Nftw.start, h]
    rw [hstart]
    exact ⟨enter_fs hq _ _ _, ⟨root, [], by simp⟩, by simp, by simp⟩
  | @entry d' e ds' n hd h he ih =>
    cases hl
    obtain ⟨as, w, hrun, hw⟩ := ih rfl
    obtain ⟨name, frs, hs⟩ := hw.stack
    have hfind : fs.find (d' ++ [n]) ≠ none := by
      intro hnone
      exact absurd (FileSystem.stat_eq_missing_iff.mpr (.here hnone)) (by simp [h])
    have hr := hw.not_read hd n
    have hstep : f.step w (.read n) = some (f.enter e (d' ++ [n]) (w.mark (d' ++ [n]))) := by
      rw [step_read hs (by rw [hw.fs]; exact hfind) hr, process_enter]
      · rw [← h, ← hw.fs]
        rfl
      · rw [← hw.seen] at he
        exact he
    have hrun : (f.walks fs root).Run Any (f.start fs root) (as ++ [.read n]) _ :=
      hrun.snoc trivial hstep
    refine ⟨as ++ [.read n], f.enter e (d' ++ [n]) (w.mark (d' ++ [n])), hrun, ?_,
      ⟨d' ++ [n], w.stack, by simp [Walk.mark]⟩, ?_, ?_⟩
    · rw [enter_fs hq]
      exact hw.fs
    · rw [enter_seen]
      exact congrArg (e :: ·) hw.seen
    · intro q hmem
      rw [enter_read] at hmem
      rcases List.mem_cons.mp hmem with rfl | hmem
      · exact ⟨d', by simp, n, rfl⟩
      · obtain ⟨p, hp, m, heq⟩ := hw.read q hmem
        exact ⟨p, by simp [hp], m, heq⟩

end NginxTools.Library.FileTree
