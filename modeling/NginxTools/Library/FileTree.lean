import Mathlib.Algebra.Order.Ring.Nat
import Mathlib.Data.List.Infix
import Mathlib.Data.List.Nodup
import Mathlib.Tactic.Common

/-!
# A tree of files with symbolic links

Directories, files, sockets and symbolic links, each at its place: the names that lead to it from
the root directory, none of them a link. A link has a target, at whose place there is something
else, another link, or nothing.

## The model

* `FileSystem` — what there is at each place, where only directories have anything below.
* `unlink`, `rmdir` — the calls, which do nothing where POSIX has them fail.
* `stat` — what is found at a place when links are followed: something that is no link, nothing, or
  no end.

## What is proved

`Leads` and `Dangles` say where a link leads without counting steps, and `stat_eq_found_iff`,
`stat_eq_missing_iff` that `stat` computes them: a way of links that has an end passes each place
once, so that there are enough steps. Both calls take away the one place they are given or nothing
(`find_unlink`, `find_rmdir`), and what is found in a part of a file system is found in the whole
(`Leads.mono`). Above whatever there is there are directories (`find_dir_of_below`). In a `Linkless`
part of a file system everything is found at its own place.
-/

namespace NginxTools.Library.FileTree

/-- Where something is: the names that lead to it, from the root directory on. -/
abbrev Path := List String

/-- What is at a place. -/
inductive Node where
  | dir
  | reg
  | sock
  /-- A symbolic link, with the place that its text leads to. -/
  | link (target : Path)
deriving DecidableEq

/-- A file system: the places at which there is something. -/
structure FileSystem where
  nodes : List (Path × Node)
  /-- Only a directory has something below it. -/
  parent : ∀ d n k, nodes.lookup (d ++ [n]) = some k → nodes.lookup d = some .dir

namespace FileSystem

variable {fs fs' : FileSystem} {p q e d : Path} {k : Node} {n : String}

/-- What there is at a place. -/
def find (fs : FileSystem) (q : Path) : Option Node := fs.nodes.lookup q

/-- The names in a directory. -/
def names (fs : FileSystem) (d : Path) : List String :=
  fs.nodes.filterMap fun e => if e.1.dropLast = d then e.1.getLast? else none

theorem isSome_lookup {β : Type} {l : List (Path × β)} :
    (l.lookup q).isSome ↔ ∃ e ∈ l, e.1 = q := by
  induction l with
  | nil => simp
  | cons e l ih =>
    rw [List.lookup_cons]
    by_cases h : e.1 = q
    · simp [h]
    · have hne : (q == e.1) = false := by simpa using fun h' => h h'.symm
      simp [hne, ih, h]

theorem lookup_filter {β : Type} {l : List (Path × β)} :
    (l.filter (·.1 ≠ q)).lookup p = if p = q then none else l.lookup p := by
  induction l with
  | nil => simp
  | cons e l ih =>
    by_cases he : e.1 = q
    · rw [List.filter_cons_of_neg (by simpa using he), ih, List.lookup_cons]
      by_cases hp : p = q
      · simp [hp]
      · have hne : (p == e.1) = false := by simpa [he] using hp
        simp [hp, hne]
    · rw [List.filter_cons_of_pos (by simpa using he), List.lookup_cons, List.lookup_cons, ih]
      by_cases hpe : p = e.1
      · subst hpe
        simp [he]
      · have hne : (p == e.1) = false := by simpa using hpe
        simp [hne]

theorem mem_names : n ∈ fs.names d ↔ fs.find (d ++ [n]) ≠ none := by
  rw [find, ← Option.isSome_iff_ne_none, isSome_lookup, names, List.mem_filterMap]
  constructor
  · rintro ⟨e, he, hn⟩
    split at hn
    · next hd =>
      refine ⟨e, he, ?_⟩
      rw [← hd]
      exact (List.dropLast_append_getLast? n hn).symm
    · cases hn
  · rintro ⟨e, he, hed⟩
    exact ⟨e, he, by simp [hed]⟩

/-- A file system from its places, each in a directory. -/
def ofNodes (nodes : List (Path × Node))
    (h : ∀ e ∈ nodes, e.1 ≠ [] → nodes.lookup e.1.dropLast = some .dir) :
    FileSystem where
  nodes := nodes
  parent d n k hk := by
    obtain ⟨e, he, hed⟩ := isSome_lookup.mp (Option.isSome_iff_exists.mpr ⟨k, hk⟩)
    simpa [hed] using h e he (by simp [hed])

/-! ### Taking away -/

/-- There is nothing at the place any more. -/
def remove (fs : FileSystem) (q : Path) (h : ∀ n, fs.find (q ++ [n]) = none) : FileSystem where
  nodes := fs.nodes.filter (·.1 ≠ q)
  parent d n k hk := by
    rw [lookup_filter] at hk ⊢
    split at hk
    · cases hk
    · have hd : d ≠ q := by
        rintro rfl
        exact Option.some_ne_none k (hk.symm.trans (h n))
      rw [if_neg hd]
      exact fs.parent d n k hk

@[simp]
theorem find_remove {h : ∀ n, fs.find (q ++ [n]) = none} :
    (fs.remove q h).find p = if p = q then none else fs.find p :=
  lookup_filter

/-- Only a directory has something below it. -/
theorem find_child (h : fs.find q ≠ some .dir) (n : String) : fs.find (q ++ [n]) = none := by
  cases hk : fs.find (q ++ [n]) with
  | none => rfl
  | some k => exact absurd (fs.parent q n k hk) h

/-- Only a directory has something below it, however deep. -/
theorem find_dir_of_below {rest : List String} (hrest : rest ≠ [])
    (h : fs.find (q ++ rest) ≠ none) :
    fs.find q = some .dir := by
  induction rest using List.reverseRecOn with
  | nil => exact absurd rfl hrest
  | append_singleton rest m ih =>
    obtain ⟨k, hk⟩ := Option.ne_none_iff_exists'.mp h
    rw [← List.append_assoc] at hk
    have hdir : fs.find (q ++ rest) = some .dir := fs.parent _ m k hk
    by_cases hnil : rest = []
    · simpa [hnil] using hdir
    · exact ih hnil (by simp [hdir])

/-- There is nothing below what is no directory. -/
theorem find_below_of_ne_dir (hpre : d <+: q) (hne : q ≠ d) (h : fs.find d ≠ some .dir) :
    fs.find q = none := by
  obtain ⟨rest, rfl⟩ := hpre
  have hrest : rest ≠ [] := by
    rintro rfl
    simp at hne
  by_contra hthere
  exact h (find_dir_of_below hrest hthere)

/-- What is above something is there. -/
theorem find_ne_none_of_prefix (hpre : d <+: q) (h : fs.find q ≠ none) : fs.find d ≠ none := by
  intro hnone
  by_cases heq : q = d
  · exact h (heq ▸ hnone)
  · exact h (find_below_of_ne_dir hpre heq (by simp [hnone]))

/-- `unlink`, which fails on a directory. -/
def unlink (fs : FileSystem) (q : Path) : FileSystem :=
  if h : fs.find q = some .dir then fs else fs.remove q (find_child h)

/-- `rmdir`, which fails on what is not an empty directory, and on the root directory. -/
def rmdir (fs : FileSystem) (q : Path) : FileSystem :=
  if h : q ≠ [] ∧ fs.find q = some .dir ∧ fs.names q = [] then
    fs.remove q fun n => by
      by_contra hn
      exact absurd (mem_names.mpr hn) (by simp [h.2.2])
  else fs

theorem find_unlink :
    (fs.unlink q).find p = if p = q ∧ fs.find q ≠ some .dir then none else fs.find p := by
  unfold unlink
  split
  · next h => simp [h]
  · next h => simp [h]

theorem find_rmdir : (fs.rmdir q).find p =
    if p = q ∧ q ≠ [] ∧ fs.find q = some .dir ∧ fs.names q = [] then none else fs.find p := by
  unfold rmdir
  split
  · next h => simp [h]
  · next h => simp [h]

/-- Everything in the one is in the other. -/
def Sub (fs fs' : FileSystem) : Prop := ∀ q k, fs.find q = some k → fs'.find q = some k

theorem Sub.refl (fs : FileSystem) : fs.Sub fs := fun _ _ h => h

theorem Sub.trans {fs₁ fs₂ fs₃ : FileSystem} (h : fs₁.Sub fs₂) (h' : fs₂.Sub fs₃) : fs₁.Sub fs₃ :=
  fun q k hk => h' q k (h q k hk)

theorem unlink_sub (fs : FileSystem) (q : Path) : (fs.unlink q).Sub fs := by
  intro p k h
  rw [find_unlink] at h
  split at h
  · cases h
  · exact h

theorem rmdir_sub (fs : FileSystem) (q : Path) : (fs.rmdir q).Sub fs := by
  intro p k h
  rw [find_rmdir] at h
  split at h
  · cases h
  · exact h

theorem Sub.find_eq_none (h : fs.Sub fs') (hq : fs'.find q = none) : fs.find q = none := by
  cases hk : fs.find q with
  | none => rfl
  | some k => exact absurd (h q k hk) (by simp [hq])

theorem Sub.names_eq_nil (h : fs.Sub fs') (hd : fs'.names d = []) : fs.names d = [] := by
  apply List.eq_nil_iff_forall_not_mem.mpr
  intro n hn
  obtain ⟨k, hk⟩ := Option.ne_none_iff_exists'.mp (mem_names.mp hn)
  have hn' : n ∈ fs'.names d := mem_names.mpr (by simp [h _ _ hk])
  simp [hd] at hn'

/-! ### Following links -/

/-- What following links from a place comes to. -/
inductive Stat where
  /-- Something that is no link, and its place. -/
  | found (q : Path) (k : Node)
  /-- A place at which there is nothing. -/
  | missing
  /-- No end: the links go round in a circle. -/
  | loop
deriving DecidableEq

/-- At most so many places are looked at. -/
def statFrom (fs : FileSystem) : ℕ → Path → Stat
  | 0, _ => .loop
  | m + 1, q =>
    match fs.find q with
    | none => .missing
    | some (.link t) => statFrom fs m t
    | some k => .found q k

/-- What is found at a place when links are followed. -/
def stat (fs : FileSystem) (q : Path) : Stat := fs.statFrom (fs.nodes.length + 1) q

/-- The links from a place lead to something that is no link. -/
inductive Leads (fs : FileSystem) : Path → Path → Node → Prop where
  | here {q : Path} {k : Node} (h : fs.find q = some k) (hk : ∀ t, k ≠ .link t) : Leads fs q q k
  | link {q t e : Path} {k : Node} (h : fs.find q = some (.link t)) (ht : Leads fs t e k) :
    Leads fs q e k

/-- The links from a place lead to where there is nothing. -/
inductive Dangles (fs : FileSystem) : Path → Prop where
  | here {q : Path} (h : fs.find q = none) : Dangles fs q
  | link {q t : Path} (h : fs.find q = some (.link t)) (ht : Dangles fs t) : Dangles fs q

/-- What is found in a part is found in the whole. -/
theorem Leads.mono (hsub : fs.Sub fs') (h : Leads fs q e k) : Leads fs' q e k := by
  induction h with
  | here h hk => exact .here (hsub _ _ h) hk
  | link h _ ih => exact .link (hsub _ _ h) ih

theorem Leads.find (h : Leads fs q e k) : fs.find e = some k ∧ ∀ t, k ≠ .link t := by
  induction h with
  | here h hk => exact ⟨h, hk⟩
  | link _ _ ih => exact ih

/-! ### Enough steps -/

theorem statFrom_succ_eq {m : ℕ} (h : fs.statFrom m q ≠ .loop) :
    fs.statFrom (m + 1) q = fs.statFrom m q := by
  induction m generalizing q with
  | zero => exact absurd rfl h
  | succ m ih =>
    rw [statFrom.eq_def fs (m + 1), statFrom.eq_def fs (m + 1 + 1)] at *
    simp only at h ⊢
    split
    · rfl
    · next t ht => exact ih (by simpa [ht] using h)
    · rfl

theorem statFrom_eq_of_le {m m' : ℕ} (h : fs.statFrom m q ≠ .loop) (hle : m ≤ m') :
    fs.statFrom m' q = fs.statFrom m q := by
  induction hle with
  | refl => rfl
  | step _ ih => rw [statFrom_succ_eq (by rwa [ih]), ih]

/-- A way that takes `m` links passes as many places, each once. -/
theorem exists_way {m : ℕ} (h : fs.statFrom (m + 1) q ≠ .loop) (hm : fs.statFrom m q = .loop) :
    ∃ l : List Path, l.Nodup ∧ l.length = m ∧ ∀ p ∈ l, fs.find p ≠ none ∧
      fs.statFrom (m + 1) p ≠ .loop := by
  induction m generalizing q with
  | zero => exact ⟨[], .nil, rfl, by simp⟩
  | succ m ih =>
    have hloop := hm
    rw [statFrom] at h hm
    cases hq : fs.find q with
    | none => simp [hq] at hm
    | some k =>
      cases k with
      | dir | reg | sock => simp [hq] at hm
      | link t =>
        simp only [hq] at h hm
        obtain ⟨l, hnd, hlen, hl⟩ := ih h hm
        have hstep : fs.statFrom (m + 1 + 1) q ≠ .loop := by rwa [statFrom, hq]
        refine ⟨q :: l, List.nodup_cons.mpr ⟨fun hmem => (hl q hmem).2 hloop, hnd⟩, by simp [hlen],
          ?_⟩
        intro p hp
        rcases List.mem_cons.mp hp with rfl | hp
        · exact ⟨by simp [hq], hstep⟩
        · refine ⟨(hl p hp).1, ?_⟩
          rw [statFrom_succ_eq (hl p hp).2]
          exact (hl p hp).2

/-- There are enough steps: a way with an end takes no more links than there are places. -/
theorem stat_eq_of_statFrom {m : ℕ} (h : fs.statFrom m q ≠ .loop) :
    fs.stat q = fs.statFrom m q := by
  induction m with
  | zero => exact absurd rfl h
  | succ m ih =>
    by_cases hm : fs.statFrom m q = .loop
    · obtain ⟨l, hnd, hlen, hl⟩ := exists_way h hm
      have hsub : l ⊆ fs.nodes.map (·.1) := by
        intro p hp
        obtain ⟨e, he, rfl⟩ := isSome_lookup.mp (Option.isSome_iff_ne_none.mpr (hl p hp).1)
        exact List.mem_map_of_mem he
      have hle := hnd.length_le_of_subset hsub
      rw [List.length_map] at hle
      exact statFrom_eq_of_le h (by omega)
    · rw [ih hm, statFrom_succ_eq hm]

theorem leads_of_statFrom {m : ℕ} (h : fs.statFrom m q = .found e k) : Leads fs q e k := by
  induction m generalizing q with
  | zero => cases h
  | succ m ih =>
    rw [statFrom] at h
    split at h
    · cases h
    · next t ht => exact .link ht (ih h)
    · next k' hnot hk =>
      cases h
      exact .here hk hnot

theorem dangles_of_statFrom {m : ℕ} (h : fs.statFrom m q = .missing) : Dangles fs q := by
  induction m generalizing q with
  | zero => cases h
  | succ m ih =>
    rw [statFrom] at h
    split at h
    · next hq => exact .here hq
    · next t ht => exact .link ht (ih h)
    · cases h

/-- **What `stat` finds** is what the links lead to. -/
theorem stat_eq_found_iff : fs.stat q = .found e k ↔ Leads fs q e k := by
  constructor
  · exact leads_of_statFrom
  · intro h
    have hm : ∃ m, fs.statFrom m q = .found e k := by
      induction h with
      | @here q k h hk =>
        refine ⟨1, ?_⟩
        cases k with
        | link t => exact absurd rfl (hk t)
        | dir | reg | sock => simp [statFrom, h]
      | link h _ ih =>
        obtain ⟨m, hm⟩ := ih
        exact ⟨m + 1, by simpa [statFrom, h] using hm⟩
    obtain ⟨m, hm⟩ := hm
    rw [stat_eq_of_statFrom (by rw [hm]; exact Stat.noConfusion), hm]

/-- **`stat` finds nothing** exactly if the links lead to where there is nothing. -/
theorem stat_eq_missing_iff : fs.stat q = .missing ↔ Dangles fs q := by
  constructor
  · exact dangles_of_statFrom
  · intro h
    have hm : ∃ m, fs.statFrom m q = .missing := by
      induction h with
      | here h => exact ⟨1, by simp [statFrom, h]⟩
      | link h _ ih =>
        obtain ⟨m, hm⟩ := ih
        exact ⟨m + 1, by simpa [statFrom, h] using hm⟩
    obtain ⟨m, hm⟩ := hm
    rw [stat_eq_of_statFrom (by rw [hm]; exact Stat.noConfusion), hm]

/-- What is no link is found where it is. -/
theorem stat_of_find (h : fs.find q = some k) (hk : ∀ t, k ≠ .link t) : fs.stat q = .found q k :=
  stat_eq_found_iff.mpr (.here h hk)

/-- What is found is there. -/
theorem find_of_stat (h : fs.stat q = .found e k) : fs.find e = some k ∧ ∀ t, k ≠ .link t :=
  (stat_eq_found_iff.mp h).find

theorem stat_mono (hsub : fs.Sub fs') (h : fs.stat q = .found e k) : fs'.stat q = .found e k :=
  stat_eq_found_iff.mpr ((stat_eq_found_iff.mp h).mono hsub)

theorem stat_link {t : Path} (h : fs.find q = some (.link t)) : fs.stat q = fs.stat t := by
  cases ht : fs.stat t with
  | found e k => exact stat_eq_found_iff.mpr (.link h (stat_eq_found_iff.mp ht))
  | missing => exact stat_eq_missing_iff.mpr (.link h (stat_eq_missing_iff.mp ht))
  | loop =>
    cases hq : fs.stat q with
    | loop => rfl
    | found e k =>
      cases stat_eq_found_iff.mp hq with
      | here h' hk => exact absurd (Option.some.inj (h'.symm.trans h)) (hk t)
      | link h' ht' =>
        obtain rfl : _ = t := Node.link.inj (Option.some.inj (h'.symm.trans h))
        exact absurd (stat_eq_found_iff.mpr ht') (by simp [ht])
    | missing =>
      cases stat_eq_missing_iff.mp hq with
      | here h' => exact absurd (h'.symm.trans h) (by simp)
      | link h' ht' =>
        obtain rfl : _ = t := Node.link.inj (Option.some.inj (h'.symm.trans h))
        exact absurd (stat_eq_missing_iff.mpr ht') (by simp [ht])

/-! ### When something else goes -/

/-- What is found stays, if nothing goes from where the same is found. -/
theorem stat_found_of_keep (hkeep : ∀ p, fs.stat p = .found e k → fs'.find p = fs.find p)
    (h : fs.stat q = .found e k) :
    fs'.stat q = .found e k := by
  have hl := stat_eq_found_iff.mp h
  rw [stat_eq_found_iff]
  clear h
  induction hl with
  | @here q k h hk => exact .here ((hkeep q (stat_of_find h hk)).trans h) hk
  | link h ht ih => exact .link ((hkeep _ (stat_eq_found_iff.mpr (.link h ht))).trans h) (ih hkeep)

/-- Links that go round in a circle still do, if nothing goes from such a circle. -/
theorem stat_loop_of_keep (hsub : fs'.Sub fs)
    (hkeep : ∀ p, fs.stat p = .loop → fs'.find p = fs.find p) (h : fs.stat q = .loop) :
    fs'.stat q = .loop := by
  cases hq : fs'.stat q with
  | loop => rfl
  | found e k => exact absurd (stat_mono hsub hq) (by simp [h])
  | missing =>
    exfalso
    have hd := stat_eq_missing_iff.mp hq
    clear hq
    induction hd with
    | here hnone =>
      rw [hkeep _ h] at hnone
      exact absurd (stat_eq_missing_iff.mpr (.here hnone)) (by simp [h])
    | link hl _ ih => exact ih (by rw [← stat_link (hsub _ _ hl), h])

end FileSystem

/-! ### Where there are no links -/

variable {fs fs' : FileSystem} {root q : Path} {k : Node}

/-- There is no link at the place, nor below it. -/
def Linkless (fs : FileSystem) (root : Path) : Prop :=
  ∀ q t, root <+: q → fs.find q ≠ some (.link t)

theorem Linkless.sub (h : Linkless fs' root) (hsub : fs.Sub fs') : Linkless fs root :=
  fun q t hq hk => h q t hq (hsub q _ hk)

/-- Where there is no link at all. -/
theorem linkless_of_nodes (h : ∀ e ∈ fs.nodes, ∀ t, e.2 ≠ .link t) : Linkless fs root := by
  intro q t _ hk
  obtain ⟨l₁, l₂, hsplit, -⟩ := List.lookup_eq_some_iff.mp hk
  exact h (q, .link t) (by simp [hsplit]) t rfl

/-- Whatever is there is found at its own place. -/
theorem Linkless.stat (h : Linkless fs root) (hq : root <+: q) (hk : fs.find q = some k) :
    fs.stat q = .found q k := by
  apply FileSystem.stat_of_find hk
  rintro t rfl
  exact h q t hq hk

end NginxTools.Library.FileTree
