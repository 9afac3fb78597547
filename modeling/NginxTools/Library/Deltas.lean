import Mathlib.Algebra.BigOperators.Group.List.Basic
import Mathlib.Algebra.Order.Ring.Int
import Mathlib.Tactic.Common

/-!
# The differences of a counter that is sampled

A reader looks at a counter now and then, and notes by how much it has grown since the last look.
Not every look finds the counter: one that does not notes nothing, and the growth shows at the next
one that does.

## The model

* `deltas total prev looks` — what is noted, `total` being what a look finds and `prev` the total at
  first.
* `lastTotal total prev looks` — the total found last.

## What is proved

`sum_deltas`: nothing is lost and nothing is noted twice, whatever the looks in between have found;
`lastTotal_bounds`: the total remembered is as large as those found.
-/

namespace NginxTools.Library

universe u

variable {α : Type u} {total : α → Option ℤ} {prev : ℤ}

/-- The differences noted, from a total on. -/
def deltas (total : α → Option ℤ) : ℤ → List α → List ℤ
  | _, [] => []
  | prev, x :: xs =>
    match total x with
    | none => deltas total prev xs
    | some n => (n - prev) :: deltas total n xs

/-- The total found last. -/
def lastTotal (total : α → Option ℤ) (prev : ℤ) (xs : List α) : ℤ :=
  (xs.filterMap total).getLast?.getD prev

@[simp]
theorem lastTotal_nil : lastTotal total prev [] = prev := rfl

theorem lastTotal_cons_none {x : α} (h : total x = none) (xs : List α) :
    lastTotal total prev (x :: xs) = lastTotal total prev xs := by
  simp [lastTotal, h]

theorem lastTotal_cons_some {x : α} {n : ℤ} (h : total x = some n) (xs : List α) :
    lastTotal total prev (x :: xs) = lastTotal total n xs := by
  simp [lastTotal, h, List.getLast?_cons]

theorem deltas_cons_none {x : α} (h : total x = none) (xs : List α) :
    deltas total prev (x :: xs) = deltas total prev xs := by
  simp [deltas, h]

theorem deltas_cons_some {x : α} {n : ℤ} (h : total x = some n) (xs : List α) :
    deltas total prev (x :: xs) = (n - prev) :: deltas total n xs := by
  simp [deltas, h]

/-- **The differences add up** to the total found last. -/
theorem sum_deltas (xs : List α) : (deltas total prev xs).sum = lastTotal total prev xs - prev := by
  induction xs generalizing prev with
  | nil => simp [deltas]
  | cons x xs ih =>
    cases h : total x with
    | none => rw [deltas_cons_none h, lastTotal_cons_none h, ih]
    | some n =>
      rw [deltas_cons_some h, lastTotal_cons_some h, List.sum_cons, ih]
      omega

/-- There is a difference for every look that finds the counter. -/
theorem length_deltas (xs : List α) :
    (deltas total prev xs).length = (xs.filterMap total).length := by
  induction xs generalizing prev with
  | nil => rfl
  | cons x xs ih =>
    cases h : total x with
    | none => rw [deltas_cons_none h, ih, List.filterMap_cons_none h]
    | some n =>
        rw [deltas_cons_some h, List.length_cons, ih, List.filterMap_cons_some h, List.length_cons]

/-- Differences less a constant each. -/
theorem sum_map_sub (ds : List ℤ) (c : ℤ) : (ds.map (· - c)).sum = ds.sum - c * ds.length := by
  induction ds with
  | nil => simp
  | cons d ds ih =>
    rw [List.map_cons, List.sum_cons, List.sum_cons, ih, List.length_cons, Nat.cast_succ,
      Int.mul_add, Int.mul_one]
    omega

/-- The total found last is one of those found, or the first. -/
theorem lastTotal_mem (total : α → Option ℤ) (prev : ℤ) (xs : List α) :
    lastTotal total prev xs = prev ∨ ∃ x ∈ xs, total x = some (lastTotal total prev xs) := by
  cases h : (xs.filterMap total).getLast? with
  | none => exact .inl (by simp [lastTotal, h])
  | some n =>
    have hn : lastTotal total prev xs = n := by simp [lastTotal, h]
    obtain ⟨x, hx, hxn⟩ := List.mem_filterMap.mp (List.mem_of_getLast? h)
    exact .inr ⟨x, hx, by rw [hn, hxn]⟩

/-- While all totals are within bounds, so is the last one. -/
theorem lastTotal_bounds {lo hi : ℤ} {xs : List α} (hprev : lo ≤ prev ∧ prev ≤ hi)
    (h : ∀ x ∈ xs, ∀ n, total x = some n → lo ≤ n ∧ n ≤ hi) :
    lo ≤ lastTotal total prev xs ∧ lastTotal total prev xs ≤ hi := by
  rcases lastTotal_mem total prev xs with he | ⟨x, hx, hn⟩
  · rwa [he]
  · exact h x hx _ hn

/-! ### Looks that find the counter by a test -/

section Test

variable {p : α → Bool} {value : α → ℤ} {xs : List α}

theorem filterMap_of_test (h : ∀ x ∈ xs, total x = if p x then some (value x) else none) :
    xs.filterMap total = (xs.filter p).map value := by
  induction xs with
  | nil => rfl
  | cons x xs ih =>
    have hx := h x List.mem_cons_self
    have ih := ih fun y hy => h y (List.mem_cons_of_mem x hy)
    cases hp : p x with
    | false =>
        rw [List.filterMap_cons_none (by simpa [hp] using hx),
          List.filter_cons_of_neg (by simp [hp]), ih]
    | true =>
        rw [List.filterMap_cons_some (by simpa [hp] using hx), List.filter_cons_of_pos hp,
          List.map_cons, ih]

/-- The last look that passes the test has found the last total. -/
theorem lastTotal_of_test (h : ∀ x ∈ xs, total x = if p x then some (value x) else none) :
    lastTotal total prev xs = ((xs.filter p).getLast?.map value).getD prev := by
  rw [lastTotal, filterMap_of_test h, List.getLast?_map]

end Test

end NginxTools.Library
