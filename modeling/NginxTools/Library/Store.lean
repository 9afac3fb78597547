import Mathlib.Data.List.Perm.Basic
import Mathlib.Data.Nat.Notation
import Mathlib.Logic.Function.Basic

/-!
# A store of resources that are obtained and released

What a piece of code obtains from its environment and has to give back: blocks of
memory, handles, nodes of a list. Every resource has a kind and a number, never used
again; the store remembers what has been obtained and what has been released, in order.

## The model

* `Resource κ` — a resource of one of the kinds `κ`.
* `Store κ β` — the resources obtained and released, and the contents of each.
* `alloc`, `release`, `releaseAll`, `write` — the operations.

## What is proved

`Balanced S held` says that every resource obtained is, once, either released or in the
list `held`. Each operation keeps it with the obvious change of the list, and
`Balanced.count_eq_one` reads off that nothing is leaked and nothing released twice.
-/

namespace NginxTools.Library

universe u v

/-- A resource: its kind and its number. -/
structure Resource (κ : Type u) where
  /-- What it is, and so how it is released. -/
  kind : κ
  /-- Which of them it is. -/
  id : ℕ
deriving DecidableEq

/-- The resources obtained and released so far, and what they contain. -/
structure Store (κ : Type u) (β : Type v) where
  /-- Every resource ever obtained. -/
  obtained : List (Resource κ)
  /-- Every release, in order. -/
  released : List (Resource κ)
  /-- The contents of a resource, while it lasts. -/
  cell : Resource κ → Option β

namespace Store

variable {κ : Type u} {β : Type v} [DecidableEq κ] {S : Store κ β} {r q : Resource κ} {k : κ}
    {b : β}
  {held held' : List (Resource κ)}

/-- Nothing obtained yet. -/
def empty : Store κ β := ⟨[], [], fun _ => none⟩

/-- The next resource of a kind. -/
def fresh (S : Store κ β) (k : κ) : Resource κ := ⟨k, S.obtained.length⟩

/-- The next resource is obtained, with its contents. -/
def alloc (S : Store κ β) (k : κ) (b : β) : Store κ β :=
  ⟨S.obtained ++ [S.fresh k], S.released, Function.update S.cell (S.fresh k) (some b)⟩

/-- A resource is released. -/
def release (S : Store κ β) (r : Resource κ) : Store κ β :=
  ⟨S.obtained, S.released ++ [r], Function.update S.cell r none⟩

/-- The resources of a list are released, in its order. -/
def releaseAll (S : Store κ β) : List (Resource κ) → Store κ β
  | [] => S
  | r :: rs => releaseAll (S.release r) rs

/-- The contents of a resource are changed. -/
def write (S : Store κ β) (r : Resource κ) (b : β) : Store κ β :=
  { S with cell := Function.update S.cell r (some b) }

/-- Every resource obtained is either released or among those of the list, once, and these last. -/
structure Balanced (S : Store κ β) (held : List (Resource κ)) : Prop where
  /-- The numbers not used yet are the ones from the length on. -/
  id_lt : ∀ r ∈ S.obtained, r.id < S.obtained.length
  /-- No resource is obtained twice. -/
  nodup : S.obtained.Nodup
  /-- All of them are accounted for. -/
  perm : (S.released ++ held).Perm S.obtained

/-! ### Contents -/

@[simp]
theorem cell_alloc : (S.alloc k b).cell (S.fresh k) = some b := Function.update_self ..

theorem cell_alloc_of_ne (h : r ≠ S.fresh k) : (S.alloc k b).cell r = S.cell r :=
  Function.update_of_ne h ..

theorem cell_release_of_ne (h : q ≠ r) : (S.release r).cell q = S.cell q :=
  Function.update_of_ne h ..

theorem cell_releaseAll_of_not_mem {rs : List (Resource κ)} (h : q ∉ rs) :
    (S.releaseAll rs).cell q = S.cell q := by
  induction rs generalizing S with
  | nil => rfl
  | cons r rs ih =>
    obtain ⟨hr, hrs⟩ := not_or.mp (mt List.mem_cons.mpr h)
    exact (ih hrs).trans (cell_release_of_ne hr)

/-! ### The account is kept -/

omit [DecidableEq κ] in
theorem balanced_empty : (empty : Store κ β).Balanced [] :=
  ⟨by simp [empty], by simp [empty], by simp [empty]⟩

omit [DecidableEq κ] in
theorem Balanced.congr (h : S.Balanced held) (hp : held.Perm held') : S.Balanced held' :=
  ⟨h.id_lt, h.nodup, (hp.symm.append_left _).trans h.perm⟩

omit [DecidableEq κ] in
/-- A resource that is held has been obtained. -/
theorem Balanced.mem_obtained (h : S.Balanced held) (hr : r ∈ held) : r ∈ S.obtained :=
  h.perm.subset (List.mem_append_right _ hr)

omit [DecidableEq κ] in
theorem Balanced.nodup_held (h : S.Balanced held) : held.Nodup :=
  (List.nodup_append.mp (h.perm.nodup_iff.mpr h.nodup)).2.1

omit [DecidableEq κ] in
/-- The next resource is not held yet. -/
theorem Balanced.fresh_not_mem (h : S.Balanced held) : S.fresh k ∉ held := fun hr =>
  absurd (h.id_lt _ (h.mem_obtained hr)) (Nat.lt_irrefl _)

theorem Balanced.alloc (h : S.Balanced held) : (S.alloc k b).Balanced (S.fresh k :: held) where
  id_lt r hr := by
    rcases List.mem_append.mp hr with hr | hr
    · exact Nat.lt_of_lt_of_le (h.id_lt r hr) (by simp [Store.alloc])
    · obtain rfl := List.mem_singleton.mp hr
      simp [Store.alloc, fresh]
  nodup := by
    refine List.nodup_append.mpr ⟨h.nodup, List.pairwise_singleton .., ?_⟩
    rintro r hr q hq rfl
    obtain rfl := List.mem_singleton.mp hq
    exact absurd (h.id_lt _ hr) (Nat.lt_irrefl _)
  perm := calc
    (S.released ++ S.fresh k :: held).Perm (S.fresh k :: (S.released ++ held)) := List.perm_middle
    List.Perm _ (S.fresh k :: S.obtained) := h.perm.cons _
    List.Perm _ (S.obtained ++ [S.fresh k]) := (List.perm_append_singleton _ _).symm

theorem Balanced.release (h : S.Balanced (r :: held)) : (S.release r).Balanced held :=
  ⟨h.id_lt, h.nodup, by simpa [Store.release] using h.perm⟩

theorem Balanced.releaseAll {rs : List (Resource κ)} (h : S.Balanced (rs ++ held)) :
    (S.releaseAll rs).Balanced held := by
  induction rs generalizing S with
  | nil => exact h
  | cons r rs ih => exact ih h.release

theorem Balanced.write (h : S.Balanced held) : (S.write r b).Balanced held :=
  ⟨h.id_lt, h.nodup, h.perm⟩

/-- **Nothing is leaked and nothing released twice**: each resource obtained is released
once and not held, or held once and not released. -/
theorem Balanced.count_eq_one (h : S.Balanced held) (hr : r ∈ S.obtained) :
    S.released.count r + held.count r = 1 := by
  rw [← List.count_append, h.perm.count_eq]
  rw [h.nodup.count, if_pos hr]

omit [DecidableEq κ] in
/-- What is released was obtained before. -/
theorem Balanced.released_subset (h : S.Balanced held) : S.released ⊆ S.obtained :=
  fun _ hx => h.perm.subset (List.mem_append_left _ hx)

end Store

end NginxTools.Library
