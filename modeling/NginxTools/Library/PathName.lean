import NginxTools.Library.FileTree

/-!
# Pathnames

A pathname is a string, cut into names at its slashes; empty names do not count. It is resolved name
by name from a directory, that of the process or the root: `.` stays where it is, `..` goes up, and
any other name is looked up.

## The model

* `components` — the names of a pathname, found in one go from left to right: `split` keeps the
  names that are complete, and the one that has been begun on.
* `walkTo` — the directory that a list of names leads to, or why there is none.
* `mkdir` — the call. It fails with `EEXIST` if there is anything of the name, with another error if
  what the name is in is no directory.

## What is proved

`take_components` — a name that is complete, or another one, stays as it is when the pathname goes
on. `exists_slash` — all the names before the last are those of what comes before a slash. Where
there are no links a list of names leads to its `place`, if all on the way are directories
(`walkTo_cases`), and `mkdir_cases` says what `mkdir` does.
-/

namespace NginxTools.Library.FileTree

/-! ### Names -/

/-- A name, if it is not empty. -/
def word (cur : List Char) : List String := if cur = [] then [] else [String.ofList cur]

/-- One more character: of the names that are complete and the name begun on. -/
def splitStep (st : List String × List Char) (c : Char) : List String × List Char :=
  if c = '/' then (st.1 ++ word st.2, []) else (st.1, st.2 ++ [c])

/-- The names of a pathname that are complete, and the one that has been begun on. -/
def split (s : List Char) : List String × List Char := s.foldl splitStep ([], [])

/-- The names of a pathname. -/
def components (s : List Char) : List String := (split s).1 ++ word (split s).2

variable {s t : List Char} {c : Char} {m i j : ℕ}

@[simp]
theorem split_concat (s : List Char) (c : Char) : split (s ++ [c]) = splitStep (split s) c := by
  simp [split]

theorem length_word_le (cur : List Char) : (word cur).length ≤ 1 := by
  unfold word
  split <;> simp

/-- A slash completes the name begun on. -/
@[simp]
theorem components_slash (s : List Char) : components (s ++ ['/']) = components s := by
  simp [components, splitStep, word]

theorem components_concat (hc : c ≠ '/') :
    components (s ++ [c]) = (split s).1 ++ [String.ofList ((split s).2 ++ [c])] := by
  simp [components, splitStep, hc, word]

/-- No name is begun on at the start, or after a slash. -/
theorem exists_slash_of_begun (h : (split s).2 = []) : s = [] ∨ ∃ t, s = t ++ ['/'] := by
  induction s using List.reverseRecOn with
  | nil => exact .inl rfl
  | append_singleton t c _ =>
    refine .inr ⟨t, ?_⟩
    by_cases hc : c = '/'
    · rw [hc]
    · rw [split_concat, splitStep, if_neg hc] at h
      simp at h

/-- A name that is complete stays as it is. -/
theorem split_fst_append (s t : List Char) : (split s).1 <+: (split (s ++ t)).1 := by
  induction t using List.reverseRecOn with
  | nil => rw [List.append_nil]
  | append_singleton t c ih =>
    rw [← List.append_assoc, split_concat, splitStep]
    split
    · exact ih.trans (List.prefix_append _ _)
    · exact ih

theorem length_components_le (s t : List Char) :
    (components s).length ≤ (components (s ++ t)).length := by
  induction t using List.reverseRecOn with
  | nil => rw [List.append_nil]
  | append_singleton t c ih =>
    rw [← List.append_assoc]
    by_cases hc : c = '/'
    · rw [hc, components_slash]
      exact ih
    · refine ih.trans ?_
      have hle := length_word_le (split (s ++ t)).2
      rw [components_concat hc, components, List.length_append, List.length_append,
        List.length_singleton]
      omega

/-- The names before the last are complete. -/
theorem take_components_eq (h : m < (components s).length) :
    (components s).take m = (split s).1.take m := by
  have hle := length_word_le (split s).2
  rw [components, List.length_append] at h
  rw [components, List.take_append_of_le_length (by omega)]

/-- **The names before the last stay as they are.** -/
theorem take_components (h : m < (components s).length) (t : List Char) :
    (components (s ++ t)).take m = (components s).take m := by
  have hle := length_word_le (split s).2
  have hlen : m ≤ (split s).1.length := by
    rw [components, List.length_append] at h
    omega
  obtain ⟨more, hmore⟩ := split_fst_append s t
  rw [take_components_eq h, components, ← hmore, List.append_assoc,
    List.take_append_of_le_length hlen]

/-- After a slash all names do. -/
theorem components_prefix (s t : List Char) : components s <+: components (s ++ '/' :: t) := by
  have hsplit : components s = (split (s ++ ['/'])).1 := by
    rw [← components_slash, components]
    simp [splitStep, word]
  have hassoc : s ++ '/' :: t = s ++ ['/'] ++ t := by simp
  rw [hsplit, hassoc]
  exact (split_fst_append (s ++ ['/']) t).trans (List.prefix_append _ _)

/-- **The names before the last are those of what comes before some slash.** -/
theorem exists_slash (hm : 0 < m) (h : m < (components s).length) :
    ∃ t u, s = t ++ '/' :: u ∧ t ≠ [] ∧ components t = (components s).take m := by
  induction s using List.reverseRecOn with
  | nil => simp [components, split, word] at h
  | append_singleton s c ih =>
    by_cases hlt : m < (components s).length
    · obtain ⟨t, u, rfl, hne, ht⟩ := ih hlt
      refine ⟨t, u ++ [c], by simp, hne, ?_⟩
      rw [take_components hlt, ht]
    · -- The last name is begun on here.
      have hc : c ≠ '/' := by
        rintro rfl
        rw [components_slash] at h
        exact hlt h
      have hbegun : (split s).2 = [] := by
        by_contra hne
        rw [components_concat hc] at h
        have hword : (word (split s).2).length = 1 := by simp [word, hne]
        simp only [components, List.length_append, List.length_singleton] at h hlt
        omega
      have hm' : m = (components s).length := by
        have hword : word (split s).2 = [] := by simp [word, hbegun]
        rw [components_concat hc] at h
        simp only [components, hword, List.length_append, List.length_singleton,
          List.length_nil] at h hlt ⊢
        omega
      rcases exists_slash_of_begun hbegun with rfl | ⟨t, rfl⟩
      · simp [components, split, word] at hm'
        omega
      · refine ⟨t, [c], by simp, ?_, ?_⟩
        · rintro rfl
          simp [components, split, splitStep, word] at hm'
          omega
        · rw [take_components_eq h, split_concat, splitStep, if_neg hc, hm', components_slash]
          simp [components, splitStep, word]

/-! ### Places -/

/-- Where a name leads from a directory, as there are no links. -/
def placeStep (d : Path) (n : String) : Path :=
  if n = "." then d else if n = ".." then d.dropLast else d ++ [n]

/-- Where a list of names leads from a directory, as there are no links. -/
def place (d : Path) (ns : List String) : Path := ns.foldl placeStep d

/-- Why a call fails. -/
inductive Errno where
  | eexist
  | enoent
  | enotdir
  | eloop
deriving DecidableEq

namespace FileSystem

/-- The directory that a list of names leads to. -/
def walkTo (fs : FileSystem) : Path → List String → Except Errno Path
  | d, [] => .ok d
  | d, n :: ns =>
    if n = "." then walkTo fs d ns
    else if n = ".." then walkTo fs d.dropLast ns
    else
      match fs.stat (d ++ [n]) with
      | .found e .dir => walkTo fs e ns
      | .found _ _ => .error .enotdir
      | .missing => .error .enoent
      | .loop => .error .eloop

/-- Something new in a directory. -/
def create (fs : FileSystem) (d : Path) (n : String) (k : Node) : FileSystem :=
  if h : fs.find d = some .dir ∧ fs.find (d ++ [n]) = none then
    { nodes := (d ++ [n], k) :: fs.nodes
      parent := by
        intro d' n' k' hk'
        rw [List.lookup_cons] at hk' ⊢
        have hdir : fs.nodes.lookup d' = some .dir := by
          split at hk'
          · next heq =>
            obtain ⟨rfl, -⟩ := List.append_inj' (beq_iff_eq.mp heq) rfl
            exact h.1
          · exact fs.parent d' n' k' hk'
        split
        · next heq =>
          rw [beq_iff_eq.mp heq] at hdir
          exact absurd (hdir.symm.trans h.2) (by simp)
        · exact hdir }
  else fs

theorem find_create {fs : FileSystem} {d q : Path} {n : String} {k : Node}
    (hd : fs.find d = some .dir) (hn : fs.find (d ++ [n]) = none) :
    (fs.create d n k).find q = if q = d ++ [n] then some k else fs.find q := by
  rw [create, dif_pos ⟨hd, hn⟩]
  show List.lookup q ((d ++ [n], k) :: fs.nodes) = _
  rw [List.lookup_cons]
  by_cases hq : q = d ++ [n]
  · simp [hq]
  · have hne : (q == d ++ [n]) = false := by simpa using hq
    simp [hq, hne, find]

/-- Where a pathname begins: in the root directory, or in that of the process. -/
def origin (cwd : Path) (s : List Char) : Path := if s.head? = some '/' then [] else cwd

/-- `mkdir`. -/
def mkdir (fs : FileSystem) (cwd : Path) (s : List Char) : Except Errno FileSystem :=
  if s = [] then .error .enoent
  else
    match (components s).getLast? with
    | none => .error .eexist
    | some n =>
      match fs.walkTo (origin cwd s) (components s).dropLast with
      | .error e => .error e
      | .ok d =>
        if n = "." ∨ n = ".." then .error .eexist
        else if fs.find (d ++ [n]) = none then .ok (fs.create d n .dir)
        else .error .eexist

end FileSystem

/-! ### Where names lead -/

variable {fs : FileSystem} {cwd d q : Path} {n : String} {ns : List String}

@[simp]
theorem place_nil (d : Path) : place d [] = d := rfl

@[simp]
theorem place_cons (d : Path) (n : String) (ns : List String) :
    place d (n :: ns) = place (placeStep d n) ns := rfl

theorem place_concat (d : Path) (ns : List String) (n : String) :
    place d (ns ++ [n]) = placeStep (place d ns) n := by
  simp [place]

/-- What a directory is in is a directory. -/
theorem FileSystem.find_dropLast (h : fs.find d = some .dir) : fs.find d.dropLast = some .dir := by
  cases d using List.reverseRecOn with
  | nil => exact h
  | append_singleton d n =>
    rw [List.dropLast_concat]
    exact fs.parent d n _ h

/-- All on the way are directories. -/
def Passable (fs : FileSystem) (d : Path) (ns : List String) : Prop :=
  ∀ m ≤ ns.length, fs.find (place d (ns.take m)) = some .dir

theorem passable_cons :
    Passable fs d (n :: ns) ↔ fs.find d = some .dir ∧ Passable fs (placeStep d n) ns := by
  constructor
  · intro h
    refine ⟨h 0 (Nat.zero_le _), fun m hm => ?_⟩
    exact h (m + 1) (by simpa using hm)
  · rintro ⟨hd, h⟩ m hm
    cases m with
    | zero => exact hd
    | succ m => exact h m (by simpa using hm)

/-- **Where a list of names leads**: to its place, or nowhere. -/
theorem walkTo_cases (hl : Linkless fs []) (hd : fs.find d = some .dir) (ns : List String) :
    Passable fs d ns ∧ fs.walkTo d ns = .ok (place d ns) ∨
      ¬Passable fs d ns ∧ ∃ e, e ≠ .eexist ∧ fs.walkTo d ns = .error e := by
  induction ns generalizing d with
  | nil =>
    refine .inl ⟨?_, rfl⟩
    intro m _
    rw [List.take_nil]
    exact hd
  | cons n ns ih =>
    rw [passable_cons, FileSystem.walkTo, place_cons, placeStep]
    simp only [hd, true_and]
    split_ifs with hdot hup
    · exact ih hd
    · exact ih (FileSystem.find_dropLast hd)
    · cases hk : fs.find (d ++ [n]) with
      | none =>
        refine .inr ⟨fun h => ?_, .enoent, by decide, ?_⟩
        · have h0 := h 0 (Nat.zero_le _)
          simp [hk] at h0
        · rw [FileSystem.stat_eq_missing_iff.mpr (.here hk)]
      | some k =>
        rw [hl.stat (List.nil_prefix) hk]
        by_cases hk' : k = .dir
        · subst hk'
          exact ih hk
        · refine .inr ⟨fun h => ?_, .enotdir, by decide, ?_⟩
          · have h0 := h 0 (Nat.zero_le _)
            simp [hk, hk'] at h0
          · cases k with
            | dir => exact absurd rfl hk'
            | reg | sock | link t => rfl

/-! ### Making directories -/

/-- The second file system is the first with directories made at these places, where there was
nothing. -/
def Adds (fs : FileSystem) (P : Path → Prop) (fs' : FileSystem) : Prop :=
  ∀ q k, fs'.find q = some k ↔ fs.find q = some k ∨ fs.find q = none ∧ P q ∧ k = .dir

section Adds

variable {fs' fs'' : FileSystem} {P Q : Path → Prop} {k : Node}

theorem Adds.none (fs : FileSystem) (h : ∀ q, ¬P q) : Adds fs P fs := fun q k => by simp [h q]

theorem adds_create (hd : fs.find d = some .dir) (hn : fs.find (d ++ [n]) = .none) :
    Adds fs (d ++ [n] = ·) (fs.create d n .dir) := by
  intro q k
  rw [FileSystem.find_create hd hn]
  by_cases hq : q = d ++ [n]
  · simp [hq, hn, eq_comm]
  · simp [hq, Ne.symm hq]

theorem Adds.congr (h : Adds fs P fs') (hPQ : ∀ q, fs.find q = .none → (P q ↔ Q q)) :
    Adds fs Q fs' := by
  intro q k
  rw [h q k]
  refine or_congr_right (and_congr_right fun hnone => ?_)
  rw [hPQ q hnone]

theorem Adds.sub (h : Adds fs P fs') : fs.Sub fs' := fun q k hk => (h q k).mpr (.inl hk)

/-- Where there is nothing there was nothing, and nothing was made. -/
theorem Adds.find_eq_none_iff (h : Adds fs P fs') :
    fs'.find q = .none ↔ fs.find q = .none ∧ ¬P q := by
  constructor
  · intro hnone
    have hnot : ∀ k, ¬(fs.find q = some k ∨ fs.find q = .none ∧ P q ∧ k = .dir) := by
      intro k hk
      exact absurd (hnone.symm.trans ((h q k).mpr hk)) (by simp)
    have hnone₀ : fs.find q = .none := by
      by_contra hthere
      obtain ⟨k, hk⟩ := Option.ne_none_iff_exists'.mp hthere
      exact hnot k (.inl hk)
    exact ⟨hnone₀, fun hP => hnot .dir (.inr ⟨hnone₀, hP, rfl⟩)⟩
  · rintro ⟨hnone, hP⟩
    by_contra hthere
    obtain ⟨k, hk⟩ := Option.ne_none_iff_exists'.mp hthere
    rcases (h q k).mp hk with hk | ⟨-, hP', -⟩
    · exact absurd (hnone.symm.trans hk) (by simp)
    · exact hP hP'

theorem Adds.trans (h : Adds fs P fs') (h' : Adds fs' Q fs'') :
    Adds fs (fun q => P q ∨ Q q) fs'' := by
  intro q k
  rw [h' q k, h q k, h.find_eq_none_iff]
  by_cases hP : P q <;> simp [hP]

theorem Adds.linkless (h : Adds fs P fs') (hl : Linkless fs []) : Linkless fs' [] := by
  intro q t hq hk
  rcases (h q _).mp hk with hk | ⟨-, -, hk⟩
  · exact hl q t hq hk
  · cases hk

/-- What is not a directory was there already. -/
theorem Adds.find_of_ne_dir (h : Adds fs P fs') (hk : fs'.find q = some k) (hne : k ≠ .dir) :
    fs.find q = some k :=
  ((h q k).mp hk).resolve_right fun hnew => hne hnew.2.2

end Adds

/-- All that the last name of a pathname is in are directories. -/
def InDirectory (fs : FileSystem) (cwd : Path) (s : List Char) : Prop :=
  ∀ m < (components s).length, fs.find (place (FileSystem.origin cwd s) ((components s).take m)) =
    some .dir

/-- The place of a pathname. -/
def placeOf (cwd : Path) (s : List Char) : Path := place (FileSystem.origin cwd s) (components s)

theorem inDirectory_iff {ns : List String} (h : components s = ns ++ [n]) :
    InDirectory fs cwd s ↔ Passable fs (FileSystem.origin cwd s) ns := by
  have htake : ∀ m ≤ ns.length, (components s).take m = ns.take m := by
    intro m hm
    rw [h, List.take_append_of_le_length hm]
  have hlen : ∀ m, m < (components s).length ↔ m ≤ ns.length := by
    intro m
    rw [h, List.length_append, List.length_singleton]
    omega
  constructor
  · intro hd m hm
    rw [← htake m hm]
    exact hd m ((hlen m).mpr hm)
  · intro hd m hm
    rw [htake m ((hlen m).mp hm)]
    exact hd m ((hlen m).mp hm)

/-- The root directory is there, and the directory that a pathname begins in. -/
theorem find_origin (hcwd : fs.find cwd = some .dir) (s : List Char) :
    fs.find (FileSystem.origin cwd s) = some .dir := by
  unfold FileSystem.origin
  split
  · by_cases hnil : cwd = []
    · rwa [← hnil]
    · exact FileSystem.find_dir_of_below (q := []) hnil (by simp [hcwd])
  · exact hcwd

/-- **What `mkdir` does**: it makes a directory at the place, or fails, with `EEXIST` only if there
is something. -/
theorem mkdir_cases (hl : Linkless fs []) (hcwd : fs.find cwd = some .dir) (hs : s ≠ []) :
    (InDirectory fs cwd s ∧ fs.find (placeOf cwd s) = none ∧
        ∃ fs', fs.mkdir cwd s = .ok fs' ∧ Adds fs (placeOf cwd s = ·) fs') ∨
      (InDirectory fs cwd s ∧ fs.find (placeOf cwd s) ≠ none ∧ fs.mkdir cwd s = .error .eexist) ∨
      ¬InDirectory fs cwd s ∧ ∃ e, e ≠ .eexist ∧ fs.mkdir cwd s = .error e := by
  have horigin := find_origin hcwd s
  rw [FileSystem.mkdir, if_neg hs]
  cases hns : components s using List.reverseRecOn with
  | nil =>
    refine .inr (.inl ⟨?_, ?_, rfl⟩)
    · intro m hm
      simp [hns] at hm
    · rw [placeOf, hns, place_nil, horigin]
      simp
  | append_singleton ns n =>
    rw [inDirectory_iff hns, placeOf, hns, place_concat, List.getLast?_concat, List.dropLast_concat]
    simp only
    rcases walkTo_cases hl horigin ns with ⟨hpass, hwalk⟩ | ⟨hpass, e, he, hwalk⟩ <;> rw [hwalk]
      <;> simp only
    · have hd : fs.find (place (FileSystem.origin cwd s) ns) = some .dir := by
        have hlast := hpass ns.length le_rfl
        rwa [List.take_length] at hlast
      by_cases hdots : n = "." ∨ n = ".."
      · refine .inr (.inl ⟨hpass, ?_, if_pos hdots⟩)
        rw [placeStep]
        split_ifs with hdot hup
        · simp [hd]
        · simp [FileSystem.find_dropLast hd]
        · exact absurd hdots (by simp [hdot, hup])
      · have hstep : placeStep (place (FileSystem.origin cwd s) ns) n =
            place (FileSystem.origin cwd s) ns ++ [n] := by
          rw [placeStep, if_neg fun h => hdots (.inl h), if_neg fun h => hdots (.inr h)]
        rw [hstep, if_neg hdots]
        by_cases hthere : fs.find (place (FileSystem.origin cwd s) ns ++ [n]) = none
        · rw [if_pos hthere]
          exact .inl ⟨hpass, hthere, _, rfl, adds_create hd hthere⟩
        · rw [if_neg hthere]
          exact .inr (.inl ⟨hpass, hthere, rfl⟩)
    · exact .inr (.inr ⟨hpass, e, he, rfl⟩)

end NginxTools.Library.FileTree
