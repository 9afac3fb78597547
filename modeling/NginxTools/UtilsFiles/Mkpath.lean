import NginxTools.Library.PathName

/-!
# Making a path

`utils_files_mkpath` makes the folders of a path one after the other. It cuts the path at either of
two separators, and takes a folder that cannot be made because something of its name exists for one
that is there:

    do
    {
        pathFolderIdx = pathStr.find_first_of("\\/", pathFolderIdx + 1);
        std::string pathFolder = pathStr.substr(0, pathFolderIdx);
        if(mkdir(pathFolder.c_str(), ..) != 0)
        {
            if(errno != EEXIST)
                return -1;
        }
    } while (pathFolderIdx != std::string::npos);

To `mkdir` a backslash is a character like any other, so that the folder before one need not be
above the path; and what exists need not be a directory.

## The model

`utilsFilesMkpath` is the function on a file system, from a directory of the process. Permissions
are left out, and with them `mkdirMode`.

## What is proved

`mkpathFrom_spec` — the loop makes each folder that nothing stands in the way of (`Unobstructed`),
and returns `0` exactly if that is all of them. `mkpath_makes_iff` — so it makes the path and
nothing else exactly if the path does not name a file, and what comes before a backslash is there,
or is above the path.
-/

namespace NginxTools.UtilsFiles

open Library FileTree

/-! ### The code -/

/-- `find_first_of("\\/", pos)`, `none` for `npos`. -/
def findFirstOf (s : List Char) (pos : ℕ) : Option ℕ :=
  ((s.drop pos).findIdx? fun c => c = '\\' ∨ c = '/').map (pos + ·)

/-- A position of a separator. -/
def IsSep (s : List Char) (j : ℕ) : Prop := s[j]? = some '\\' ∨ s[j]? = some '/'

variable {s : List Char} {pos i j : ℕ}

/-- The first separator from a position on. -/
theorem findFirstOf_cases (s : List Char) (pos : ℕ) :
    (findFirstOf s pos = none ∧ ∀ i, pos ≤ i → ¬IsSep s i) ∨
      ∃ j, findFirstOf s pos = some j ∧ pos ≤ j ∧ IsSep s j ∧
        ∀ i, pos ≤ i → i < j → ¬IsSep s i := by
  have hsep : ∀ i, pos ≤ i →
      (IsSep s i ↔ ∃ c, (s.drop pos)[i - pos]? = some c ∧ (c = '\\' ∨ c = '/')) := by
    intro i hi
    rw [List.getElem?_drop, Nat.add_sub_cancel' hi, IsSep]
    constructor
    · rintro (h | h)
      · exact ⟨_, h, .inl rfl⟩
      · exact ⟨_, h, .inr rfl⟩
    · rintro ⟨c, h, rfl | rfl⟩
      · exact .inl h
      · exact .inr h
  unfold findFirstOf
  cases hfind : (s.drop pos).findIdx? fun c => c = '\\' ∨ c = '/' with
  | none =>
    refine .inl ⟨rfl, fun i hi h => ?_⟩
    obtain ⟨c, hc, hsepc⟩ := (hsep i hi).mp h
    have hno := List.findIdx?_eq_none_iff.mp hfind c (List.mem_of_getElem? hc)
    simp [hsepc] at hno
  | some k =>
    obtain ⟨hk, hp, hbefore⟩ := List.findIdx?_eq_some_iff_getElem.mp hfind
    refine .inr ⟨pos + k, rfl, Nat.le_add_right _ _, ?_, ?_⟩
    · refine (hsep _ (Nat.le_add_right _ _)).mpr ⟨(s.drop pos)[k], ?_, by simpa using hp⟩
      rw [Nat.add_sub_cancel_left, List.getElem?_eq_getElem hk]
    · intro i hi hlt h
      obtain ⟨c, hc, hsepc⟩ := (hsep i hi).mp h
      have hik : i - pos < k := by omega
      obtain ⟨hlen, rfl⟩ := List.getElem?_eq_some_iff.mp hc
      exact hbefore (i - pos) hik (by simpa using hsepc)

theorem IsSep.lt (h : IsSep s j) : j < s.length := by
  rcases h with h | h <;> exact (List.getElem?_eq_some_iff.mp h).1

theorem findFirstOf_lt (h : findFirstOf s pos = some j) : pos ≤ j ∧ j < s.length := by
  rcases findFirstOf_cases s pos with ⟨hnone, -⟩ | ⟨j', hj, hle, hsep, -⟩
  · cases hnone.symm.trans h
  · obtain rfl := Option.some.inj (hj.symm.trans h)
    exact ⟨hle, hsep.lt⟩

/-- `mkdir` of a folder, `none` if it fails with an error other than `EEXIST`. -/
def mkdirFolder (fs : FileSystem) (cwd : Path) (pathFolder : List Char) : Option FileSystem :=
  match fs.mkdir cwd pathFolder with
  | .ok fs => some fs
  | .error e => if e ≠ .eexist then none else some fs

/-- The loop of `utils_files_mkpath`, the last separator having been found at `pathFolderIdx`. -/
def mkpathFrom (cwd : Path) (pathStr : List Char) (pathFolderIdx : ℕ) (fs : FileSystem) :
    ℤ × FileSystem :=
  match _h : findFirstOf pathStr (pathFolderIdx + 1) with
  | none =>
    match mkdirFolder fs cwd pathStr with
    | none => (-1, fs)
    | some fs => (0, fs)
  | some idx =>
    match mkdirFolder fs cwd (pathStr.take idx) with
    | none => (-1, fs)
    | some fs => mkpathFrom cwd pathStr idx fs
termination_by pathStr.length - pathFolderIdx
decreasing_by
  obtain ⟨hle, hlt⟩ := findFirstOf_lt ‹_›
  omega

theorem mkpathFrom_last {cwd : Path} {fs : FileSystem} (h : findFirstOf s (pos + 1) = none) :
    mkpathFrom cwd s pos fs = match mkdirFolder fs cwd s with
    | none => (-1, fs)
    | some fs => (0, fs) := by
  rw [mkpathFrom]
  split
  · rfl
  · next j hj => cases h.symm.trans hj

theorem mkpathFrom_next {cwd : Path} {fs : FileSystem} (h : findFirstOf s (pos + 1) = some j) :
    mkpathFrom cwd s pos fs = match mkdirFolder fs cwd (s.take j) with
    | none => (-1, fs)
    | some fs => mkpathFrom cwd s j fs := by
  rw [mkpathFrom]
  split
  · next hnone => cases h.symm.trans hnone
  · next j' hj =>
    obtain rfl := Option.some.inj (h.symm.trans hj)
    rfl

/-- `utils_files_mkpath`: what it returns, and what it makes of the file system. -/
def utilsFilesMkpath (cwd : Path) (path : Option (List Char)) (fs : FileSystem) : ℤ × FileSystem :=
  match path with
  | none => (-1, fs)
  | some pathStr => mkpathFrom cwd pathStr 0 fs

/-! ### What stands in the way -/

variable {fs fs₀ : FileSystem} {cwd q : Path} {t : List Char} {m : ℕ}

/-- None of what the last name is in is anything but a directory. -/
def Unobstructed (fs : FileSystem) (cwd : Path) (s : List Char) : Prop :=
  ∀ m < (components s).length, ∀ k,
    fs.find (place (FileSystem.origin cwd s) ((components s).take m)) = some k → k = .dir

theorem origin_take (hj : 0 < j) : FileSystem.origin cwd (s.take j) = FileSystem.origin cwd s := by
  cases s with
  | nil => simp
  | cons c s =>
    obtain ⟨j, rfl⟩ : ∃ i, j = i + 1 := ⟨j - 1, by omega⟩
    simp [FileSystem.origin]

/-- A folder is cut out of the next. -/
theorem take_eq_append (hij : i ≤ j) : s.take j = s.take i ++ (s.take j).drop i := by
  have htake : s.take i = (s.take j).take i := by rw [List.take_take, Nat.min_eq_left hij]
  rw [htake, List.take_append_drop]

/-- What stands in the way of a folder stands in the way of the next. -/
theorem Unobstructed.take (h : Unobstructed fs cwd (s.take j)) (hi : 0 < i) (hij : i ≤ j) :
    Unobstructed fs cwd (s.take i) := by
  intro m hm k hk
  have hsplit := take_eq_append (s := s) hij
  rw [origin_take hi, ← take_components hm ((s.take j).drop i), ← hsplit,
    ← origin_take (Nat.lt_of_lt_of_le hi hij)] at hk
  refine h m (Nat.lt_of_lt_of_le hm ?_) k hk
  rw [hsplit]
  exact length_components_le _ _

/-- **What `mkdir` makes of a folder**: it is there afterwards, unless something stands in the
way. -/
theorem mkdirFolder_cases (hl : Linkless fs []) (hcwd : fs.find cwd = some .dir) (hs : s ≠ []) :
    (InDirectory fs cwd s ∧ ∃ fs', mkdirFolder fs cwd s = some fs' ∧
      Adds fs (placeOf cwd s = ·) fs') ∨ ¬InDirectory fs cwd s ∧ mkdirFolder fs cwd s = none := by
  unfold mkdirFolder
  rcases mkdir_cases hl hcwd hs with
      ⟨hin, -, fs', hmk, hadds⟩ | ⟨hin, hthere, hmk⟩ | ⟨hin, e, he, hmk⟩ <;> rw [hmk]
  · exact .inl ⟨hin, fs', rfl, hadds⟩
  · refine .inl ⟨hin, fs, by simp, (Adds.none fs fun q => not_false).congr fun q hnone => ?_⟩
    refine (iff_of_false not_false ?_)
    rintro rfl
    exact hthere hnone
  · exact .inr ⟨hin, by simp [he]⟩

/-! ### The loop -/

/-- The place of a folder up to a position. -/
def FolderTo (cwd : Path) (s : List Char) (idx : ℕ) (q : Path) : Prop :=
  ∃ j, 0 < j ∧ j ≤ idx ∧ IsSep s j ∧ placeOf cwd (s.take j) = q

/-- The folders up to a position have been made. -/
structure MadeTo (fs₀ : FileSystem) (cwd : Path) (s : List Char) (idx : ℕ)
    (fs : FileSystem) : Prop where
  /-- Nothing stands in their way. -/
  clear : ∀ j, 0 < j → j ≤ idx → IsSep s j → Unobstructed fs₀ cwd (s.take j)
  /-- They are there, and nothing else has changed. -/
  adds : Adds fs₀ (FolderTo cwd s idx) fs

/-- What stands in the way of the next folder stood there at first. -/
theorem MadeTo.inDirectory_iff {idx : ℕ} (h : MadeTo fs₀ cwd s idx fs)
    (hcwd : fs₀.find cwd = some .dir) (hnext : ∀ i, 0 < i → i < j → IsSep s i → i ≤ idx) :
    InDirectory fs cwd (s.take j) ↔ Unobstructed fs₀ cwd (s.take j) := by
  constructor
  · intro hin m hm k hk
    have hdir := hin m hm
    rw [h.adds.sub _ _ hk] at hdir
    exact Option.some.inj hdir
  · intro hclear m hm
    rcases Nat.eq_zero_or_pos m with rfl | hpos
    · exact h.adds.sub _ _ (find_origin hcwd _)
    · -- The first names make up a folder that has been made.
      obtain ⟨t, u, htu, hne, hcomp⟩ := exists_slash hpos hm
      have hlen : t.length < j := by
        have hle := congrArg List.length htu
        simp only [List.length_append, List.length_cons, List.length_take] at hle
        omega
      have ht : s.take t.length = t := by
        have htake : s.take t.length = (s.take j).take t.length := by
          rw [List.take_take, Nat.min_eq_left hlen.le]
        rw [htake, htu, List.take_left]
      have hsep : IsSep s t.length := by
        right
        rw [← List.getElem?_take_of_lt hlen, htu]
        simp
      have hclear' := hclear m hm
      have hpos' : 0 < t.length := List.length_pos_iff.mpr hne
      have hplace : placeOf cwd (s.take t.length) =
          place (FileSystem.origin cwd (s.take j)) ((components (s.take j)).take m) := by
        rw [placeOf, origin_take hpos', origin_take (hpos'.trans hlen), ht, hcomp]
      rw [← hplace] at hclear' ⊢
      apply (h.adds _ _).mpr
      by_cases hnone : fs₀.find (placeOf cwd (s.take t.length)) = none
      · exact .inr ⟨hnone, ⟨t.length, hpos', hnext _ hpos' hlen hsep, hsep, rfl⟩, rfl⟩
      · obtain ⟨k, hk⟩ := Option.ne_none_iff_exists'.mp hnone
        obtain rfl := hclear' k hk
        exact .inl hk

/-- A position at which the path is cut: of a separator, or the end. -/
def IsCut (s : List Char) (j : ℕ) : Prop := 0 < j ∧ (IsSep s j ∨ j = s.length)

/-- The place of a folder that nothing stands in the way of. -/
def ClearFolder (fs : FileSystem) (cwd : Path) (s : List Char) (q : Path) : Prop :=
  ∃ j, IsCut s j ∧ Unobstructed fs cwd (s.take j) ∧ placeOf cwd (s.take j) = q

/-- What the function makes of the file system. -/
structure MadeAll (fs₀ : FileSystem) (cwd : Path) (s : List Char) (r : ℤ × FileSystem) : Prop where
  /-- It succeeds exactly if nothing stands in the way. -/
  ret : r.1 = 0 ∧ Unobstructed fs₀ cwd s ∨ r.1 = -1 ∧ ¬Unobstructed fs₀ cwd s
  /-- The folders that nothing stands in the way of are there, and nothing else has changed. -/
  adds : Adds fs₀ (ClearFolder fs₀ cwd s) r.2

/-- The next folder is made. -/
theorem MadeTo.next {idx : ℕ} {fs' : FileSystem} (h : MadeTo fs₀ cwd s idx fs) (hj : idx < j)
    (hnext : ∀ i, 0 < i → i < j → IsSep s i → i ≤ idx) (hclear : Unobstructed fs₀ cwd (s.take j))
    (hsep : IsSep s j) (hadds : Adds fs (placeOf cwd (s.take j) = ·) fs') :
    MadeTo fs₀ cwd s j fs' := by
  constructor
  · intro i hi hij hs
    rcases Nat.lt_or_eq_of_le hij with hlt | rfl
    · exact h.clear i hi (hnext i hi hlt hs) hs
    · exact hclear
  · refine (h.adds.trans hadds).congr fun q _ => ⟨?_, ?_⟩
    · rintro (⟨i, hi, hij, hs, hq⟩ | hq)
      · exact ⟨i, hi, by omega, hs, hq⟩
      · exact ⟨j, by omega, le_rfl, hsep, hq⟩
    · rintro ⟨i, hi, hij, hs, hq⟩
      rcases Nat.lt_or_eq_of_le hij with hlt | rfl
      · exact .inl ⟨i, hi, hnext i hi hlt hs, hs, hq⟩
      · exact .inr hq

/-- The loop stops at a folder that something stands in the way of: of the later ones as well. -/
theorem MadeTo.stop {idx : ℕ} (h : MadeTo fs₀ cwd s idx fs) (hj : 0 < j) (hlen : j ≤ s.length)
    (hnext : ∀ i, 0 < i → i < j → IsSep s i → i ≤ idx) (hclear : ¬Unobstructed fs₀ cwd (s.take j)) :
    MadeAll fs₀ cwd s (-1, fs) := by
  have hlater : ∀ i, j ≤ i → ¬Unobstructed fs₀ cwd (s.take i) :=
    fun i hji hi => hclear (hi.take hj hji)
  refine ⟨.inr ⟨rfl, ?_⟩, h.adds.congr fun q _ => ⟨?_, ?_⟩⟩
  · have hall := hlater s.length hlen
    rwa [List.take_length] at hall
  · rintro ⟨i, hi, hij, hs, hq⟩
    exact ⟨i, ⟨hi, .inl hs⟩, h.clear i hi hij hs, hq⟩
  · rintro ⟨i, ⟨hi, hs⟩, hcl, hq⟩
    have hlt : i < j := by
      by_contra hle
      exact hlater i (by omega) hcl
    rcases hs with hs | rfl
    · exact ⟨i, hi, hnext i hi hlt hs, hs, hq⟩
    · omega

/-- The path itself is made last. -/
theorem MadeTo.last {idx : ℕ} {fs' : FileSystem} (h : MadeTo fs₀ cwd s idx fs) (hs : s ≠ [])
    (hnext : ∀ i, 0 < i → IsSep s i → i ≤ idx) (hclear : Unobstructed fs₀ cwd s)
    (hadds : Adds fs (placeOf cwd s = ·) fs') : MadeAll fs₀ cwd s (0, fs') := by
  have htake : s.take s.length = s := List.take_length
  refine ⟨.inl ⟨rfl, hclear⟩, (h.adds.trans hadds).congr fun q _ => ⟨?_, ?_⟩⟩
  · rintro (⟨i, hi, hij, hsep, hq⟩ | hq)
    · exact ⟨i, ⟨hi, .inl hsep⟩, h.clear i hi hij hsep, hq⟩
    · exact ⟨s.length, ⟨List.length_pos_iff.mpr hs, .inr rfl⟩, by rwa [htake], by rwa [htake]⟩
  · rintro ⟨i, ⟨hi, hsep | rfl⟩, -, hq⟩
    · exact .inl ⟨i, hi, hnext i hi hsep, hsep, hq⟩
    · rw [htake] at hq
      exact .inr hq

/-- The next folder is made, unless something stands in its way. -/
theorem MadeTo.folder {idx : ℕ} (h : MadeTo fs₀ cwd s idx fs) (hl : Linkless fs₀ [])
    (hcwd : fs₀.find cwd = some .dir) (hs : s.take j ≠ [])
    (hnext : ∀ i, 0 < i → i < j → IsSep s i → i ≤ idx) :
    (Unobstructed fs₀ cwd (s.take j) ∧ ∃ fs', mkdirFolder fs cwd (s.take j) = some fs' ∧
        Adds fs (placeOf cwd (s.take j) = ·) fs') ∨
      ¬Unobstructed fs₀ cwd (s.take j) ∧ mkdirFolder fs cwd (s.take j) = none := by
  rw [← h.inDirectory_iff hcwd hnext]
  exact mkdirFolder_cases (h.adds.linkless hl) (h.adds.sub _ _ hcwd) hs

/-- **What the loop makes of the file system.** -/
theorem mkpathFrom_spec (hl : Linkless fs₀ []) (hcwd : fs₀.find cwd = some .dir) (hs : s ≠ [])
    {idx : ℕ} (h : MadeTo fs₀ cwd s idx fs) : MadeAll fs₀ cwd s (mkpathFrom cwd s idx fs) := by
  induction hleft : s.length - idx using Nat.strong_induction_on generalizing idx fs with
  | _ left ih =>
    rcases findFirstOf_cases s (idx + 1) with ⟨hfind, hno⟩ | ⟨j, hfind, hle, hsep, hno⟩
    · -- There is no separator left.
      have hnext : ∀ i, 0 < i → IsSep s i → i ≤ idx := by
        intro i _ hi
        by_contra hlt
        exact hno i (by omega) hi
      have hfolder := h.folder hl hcwd (j := s.length) (by rwa [List.take_length]) fun i hi _ =>
        hnext i hi
      rw [List.take_length] at hfolder
      rw [mkpathFrom_last hfind]
      rcases hfolder with ⟨hclear, fs', hmk, hadds⟩ | ⟨hclear, hmk⟩ <;> rw [hmk]
      · exact h.last hs hnext hclear hadds
      · refine h.stop (List.length_pos_iff.mpr hs) le_rfl (fun i hi _ => hnext i hi) ?_
        rwa [List.take_length]
    · have hnext : ∀ i, 0 < i → i < j → IsSep s i → i ≤ idx := by
        intro i _ hij hi
        by_contra hlt
        exact hno i (by omega) hij hi
      have hlt := hsep.lt
      have htake : s.take j ≠ [] := by
        rw [ne_eq, List.take_eq_nil_iff]
        rintro (hj | hnil)
        · omega
        · exact hs hnil
      rw [mkpathFrom_next hfind]
      rcases h.folder hl hcwd htake hnext with ⟨hclear, fs', hmk, hadds⟩ | ⟨hclear, hmk⟩
        <;> rw [hmk]
      · exact ih (s.length - j) (by omega) (h.next hle hnext hclear hsep hadds) rfl
      · exact h.stop (by omega) hlt.le hnext hclear

/-- What `utils_files_mkpath` makes of the file system. -/
theorem utilsFilesMkpath_spec (hl : Linkless fs []) (hcwd : fs.find cwd = some .dir) (hs : s ≠ []) :
    MadeAll fs cwd s (utilsFilesMkpath cwd (some s) fs) := by
  refine mkpathFrom_spec hl hcwd hs ⟨?_, Adds.none fs ?_⟩
  · intro j hj hle
    omega
  · rintro q ⟨j, hj, hle, -⟩
    omega

/-! ### The path, and nothing else -/

/-- A place that a path is at, or below. -/
def OnPath (cwd : Path) (s : List Char) (q : Path) : Prop :=
  ∃ m ≤ (components s).length, place (FileSystem.origin cwd s) ((components s).take m) = q

/-- The function makes the path and nothing else. -/
structure MakesPath (fs : FileSystem) (cwd : Path) (s : List Char) : Prop where
  /-- If it succeeds, the path names a directory, and so does everything above it. -/
  directories : (utilsFilesMkpath cwd (some s) fs).1 = 0 → ∀ q, OnPath cwd s q →
    (utilsFilesMkpath cwd (some s) fs).2.find q = some .dir
  /-- What is new is the path or above it. -/
  only : ∀ q, fs.find q = none → (utilsFilesMkpath cwd (some s) fs).2.find q ≠ none → OnPath cwd s q
  /-- Nothing is removed or replaced. -/
  kept : fs.Sub (utilsFilesMkpath cwd (some s) fs).2
  /-- If it succeeds, a second call does as well, and changes nothing. -/
  again : (utilsFilesMkpath cwd (some s) fs).1 = 0 →
    (utilsFilesMkpath cwd (some s) (utilsFilesMkpath cwd (some s) fs).2).1 = 0 ∧
      ∀ q, (utilsFilesMkpath cwd (some s) (utilsFilesMkpath cwd (some s) fs).2).2.find q =
        (utilsFilesMkpath cwd (some s) fs).2.find q

/-- When it does. -/
structure Plain (fs : FileSystem) (cwd : Path) (s : List Char) : Prop where
  /-- The path names nothing but a directory, unless something else stands in the way. -/
  last : Unobstructed fs cwd s → ∀ k, fs.find (placeOf cwd s) = some k → k = .dir
  /-- What comes before a backslash is there, or is the path or above it, unless something stands in
  the way. -/
  backslash : ∀ j, 0 < j → s[j]? = some '\\' → Unobstructed fs cwd (s.take j) →
    fs.find (placeOf cwd (s.take j)) = none → OnPath cwd s (placeOf cwd (s.take j))

theorem onPath_placeOf (cwd : Path) (s : List Char) : OnPath cwd s (placeOf cwd s) :=
  ⟨(components s).length, le_rfl, by rw [List.take_length, placeOf]⟩

/-- What comes before a slash is above the path. -/
theorem onPath_of_slash (hj : 0 < j) (h : s[j]? = some '/') :
    OnPath cwd s (placeOf cwd (s.take j)) := by
  obtain ⟨hlt, hget⟩ := List.getElem?_eq_some_iff.mp h
  have hsplit : s = s.take j ++ '/' :: s.drop (j + 1) := by
    rw [← hget, ← List.drop_eq_getElem_cons hlt, List.take_append_drop]
  have hpre : components (s.take j) <+: components s := by
    have hpre := components_prefix (s.take j) (s.drop (j + 1))
    rwa [← hsplit] at hpre
  refine ⟨(components (s.take j)).length, hpre.length_le, ?_⟩
  rw [← List.prefix_iff_eq_take.mp hpre, placeOf, origin_take hj]

/-- What is above the path is where it begins, the path itself, or what comes before a slash. -/
theorem OnPath.cases (h : OnPath cwd s q) :
    q = FileSystem.origin cwd s ∨ q = placeOf cwd s ∨ ∃ j, 0 < j ∧ IsSep s j ∧
      q = placeOf cwd (s.take j) := by
  obtain ⟨m, hm, rfl⟩ := h
  rcases Nat.lt_or_eq_of_le hm with hlt | rfl
  · rcases Nat.eq_zero_or_pos m with rfl | hpos
    · exact .inl rfl
    · obtain ⟨t, u, htu, hne, hcomp⟩ := exists_slash hpos hlt
      have hpos' : 0 < t.length := List.length_pos_iff.mpr hne
      refine .inr (.inr ⟨t.length, hpos', ?_, ?_⟩)
      · right
        rw [htu]
        simp
      · have ht : s.take t.length = t := by rw [htu, List.take_left]
        rw [placeOf, origin_take hpos', ht, hcomp]
  · exact .inr (.inl (by rw [List.take_length, placeOf]))

/-- What is above a path that nothing stands in the way of is a folder of it. -/
theorem OnPath.clearFolder (h : OnPath cwd s q) (hs : s ≠ []) (hclear : Unobstructed fs cwd s) :
    q = FileSystem.origin cwd s ∨ ClearFolder fs cwd s q := by
  have htake : s.take s.length = s := List.take_length
  rcases h.cases with rfl | rfl | ⟨j, hj, hsep, rfl⟩
  · exact .inl rfl
  · exact .inr ⟨s.length, ⟨List.length_pos_iff.mpr hs, .inr rfl⟩, by rwa [htake], by rw [htake]⟩
  · have hclear : Unobstructed fs cwd (s.take s.length) := by rwa [htake]
    exact .inr ⟨j, ⟨hj, .inl hsep⟩, hclear.take hj hsep.lt.le, rfl⟩

/-- What is above it is no file, if it is none itself. -/
theorem OnPath.eq_dir {k : Node} (h : OnPath cwd s q) (hclear : Unobstructed fs cwd s)
    (hlast : ∀ k, fs.find (placeOf cwd s) = some k → k = .dir) (hk : fs.find q = some k) :
    k = .dir := by
  obtain ⟨m, hm, rfl⟩ := h
  rcases Nat.lt_or_eq_of_le hm with hlt | rfl
  · exact hclear m hlt k hk
  · rw [List.take_length] at hk
    exact hlast k hk

section Calls

variable {r : ℤ × FileSystem}

theorem MadeAll.ret_iff (h : MadeAll fs cwd s r) : r.1 = 0 ↔ Unobstructed fs cwd s := by
  rcases h.ret with ⟨hr, hclear⟩ | ⟨hr, hclear⟩
  · exact iff_of_true hr hclear
  · exact iff_of_false (by rw [hr]; decide) hclear

theorem MadeAll.directories (h : MadeAll fs cwd s r) (hcwd : fs.find cwd = some .dir) (hs : s ≠ [])
    (hplain : Plain fs cwd s) (hr : r.1 = 0) (hq : OnPath cwd s q) : r.2.find q = some .dir := by
  have hclear := h.ret_iff.mp hr
  rcases hq.clearFolder hs hclear with rfl | hfolder
  · exact h.adds.sub _ _ (find_origin hcwd s)
  · apply (h.adds q .dir).mpr
    by_cases hnone : fs.find q = none
    · exact .inr ⟨hnone, hfolder, rfl⟩
    · obtain ⟨k, hk⟩ := Option.ne_none_iff_exists'.mp hnone
      obtain rfl := hq.eq_dir hclear (hplain.last hclear) hk
      exact .inl hk

theorem MadeAll.only (h : MadeAll fs cwd s r) (hplain : Plain fs cwd s) (hnone : fs.find q = none)
    (hnew : r.2.find q ≠ none) :
    OnPath cwd s q := by
  obtain ⟨k, hk⟩ := Option.ne_none_iff_exists'.mp hnew
  rcases (h.adds q k).mp hk with hk | ⟨-, ⟨j, ⟨hj, (hback | hslash) | rfl⟩, hclear, rfl⟩, -⟩
  · exact absurd (hnone.symm.trans hk) (by simp)
  · exact hplain.backslash j hj hback hclear hnone
  · exact onPath_of_slash hj hslash
  · rw [List.take_length]
    exact onPath_placeOf cwd s

/-- A second call finds everything there. -/
theorem MadeAll.again {r' : ℤ × FileSystem} (h : MadeAll fs cwd s r) (h' : MadeAll r.2 cwd s r')
    (hr : r.1 = 0) :
    r'.1 = 0 ∧ ∀ q, r'.2.find q = r.2.find q := by
  have hclear := h.ret_iff.mp hr
  constructor
  · refine h'.ret_iff.mpr fun m hm k hk => ?_
    by_contra hne
    exact hne (hclear m hm k (h.adds.find_of_ne_dir hk hne))
  · intro q
    by_cases hnone : r.2.find q = none
    · rw [hnone, h'.adds.find_eq_none_iff]
      refine ⟨hnone, ?_⟩
      rintro ⟨j, hcut, -, rfl⟩
      have hlen : j ≤ s.length := by
        rcases hcut.2 with hsep | rfl
        · exact hsep.lt.le
        · exact le_rfl
      have hclear : Unobstructed fs cwd (s.take s.length) := by rwa [List.take_length]
      exact (h.adds.find_eq_none_iff.mp hnone).2 ⟨j, hcut, hclear.take hcut.1 hlen, rfl⟩
    · obtain ⟨k, hk⟩ := Option.ne_none_iff_exists'.mp hnone
      rw [hk, h'.adds.sub _ _ hk]

end Calls

/-- The empty path names nothing. -/
theorem utilsFilesMkpath_nil (cwd : Path) (fs : FileSystem) :
    utilsFilesMkpath cwd (some []) fs = (-1, fs) := by
  rw [utilsFilesMkpath, mkpathFrom_last (by rfl)]
  rfl

/-- **`utils_files_mkpath` makes the path and nothing else** exactly if the path does not name a
file, and what comes before each backslash is there or on the path. -/
theorem mkpath_makes_iff (hl : Linkless fs []) (hcwd : fs.find cwd = some .dir) (s : List Char) :
    MakesPath fs cwd s ↔ Plain fs cwd s := by
  by_cases hs : s = []
  · subst hs
    have hcall := utilsFilesMkpath_nil cwd fs
    refine iff_of_true ⟨?_, ?_, ?_, ?_⟩ ⟨?_, ?_⟩
    · rw [hcall]
      exact fun h => absurd (show (-1 : ℤ) = 0 from h) (by decide)
    · rw [hcall]
      exact fun q hnone hnew => absurd hnone hnew
    · rw [hcall]
      exact .refl fs
    · rw [hcall]
      exact fun h => absurd (show (-1 : ℤ) = 0 from h) (by decide)
    · intro _ k hk
      exact Option.some.inj (hk.symm.trans hcwd)
    · intro j _ h
      simp at h
  · have hspec := utilsFilesMkpath_spec hl hcwd hs
    constructor
    · intro h
      constructor
      · intro hclear k hk
        have hdir := h.directories (hspec.ret_iff.mpr hclear) _ (onPath_placeOf cwd s)
        exact Option.some.inj ((hspec.adds.sub _ _ hk).symm.trans hdir)
      · intro j hj hback hclear hnone
        apply h.only _ hnone
        have hmade :=
          (hspec.adds _ .dir).mpr (.inr ⟨hnone, ⟨j, ⟨hj, .inl (.inl hback)⟩, hclear, rfl⟩, rfl⟩)
        rw [hmade]
        simp
    · intro hplain
      refine ⟨fun hr q hq => hspec.directories hcwd hs hplain hr hq, fun q hnone hnew =>
        hspec.only hplain hnone hnew, hspec.adds.sub, fun hr => ?_⟩
      exact hspec.again
        (utilsFilesMkpath_spec (hspec.adds.linkless hl) (hspec.adds.sub _ _ hcwd) hs) hr

/-- A file `f`. -/
def oneFile : FileSystem := .ofNodes [([], .dir), (["f"], .reg)] (by decide)

theorem linkless_oneFile : Linkless oneFile [] :=
  linkless_of_nodes (by simp [oneFile, FileSystem.ofNodes])

/-- A path with a separator of each kind. -/
theorem mkpath_makes_iff_oneFile :
    MakesPath oneFile [] "a/b\\c".toList ↔ Plain oneFile [] "a/b\\c".toList :=
  mkpath_makes_iff linkless_oneFile (by decide) _

/-- A file is taken for the directory that was to be made. -/
theorem file_taken_for_path : ¬∀ (fs : FileSystem) (cwd : Path) (s : List Char), Linkless fs [] →
    fs.find cwd = some .dir → MakesPath fs cwd s := by
  intro h
  have hroot : oneFile.find [] = some .dir := by decide
  have hspec := utilsFilesMkpath_spec linkless_oneFile hroot (s := ['f']) (by simp)
  have hclear : Unobstructed oneFile [] ['f'] := by
    intro m hm k hk
    have hlen : (components ['f']).length = 1 := by decide
    obtain rfl : m = 0 := by omega
    exact Option.some.inj (hk.symm.trans hroot)
  have hdir :=
    (h oneFile [] ['f'] linkless_oneFile hroot).directories (hspec.ret_iff.mpr hclear) _
      (onPath_placeOf _ _)
  have hfile : oneFile.find (placeOf [] ['f']) = some .reg := by decide
  exact absurd ((hspec.adds.sub _ _ hfile).symm.trans hdir) (by decide)

end NginxTools.UtilsFiles
