import Mathlib.Algebra.Order.Ring.Defs
import Mathlib.Data.List.Chain
import Mathlib.Tactic.Linarith
import Mathlib.Tactic.Ring

/-!
# Leaky buckets

A leaky bucket holds a level that drains at a constant rate, and each admission adds a cost to it.
The level is brought up to date only when something is admitted, so that a bucket is a level with
the time at which it was right.

## The model

* `Bucket`, `work` — the bucket, and its level with all that has drained up to its time: what would
  be in it had nothing drained. Two states of one bucket compare by their work, whatever their
  times.
* `Admits` — an admission, whose draining may be rounded down by less than `err`. A clock behind the
  bucket's time drains nothing.
* `Follows` — one admission after another: the bucket has drained, or it was thrown away empty and
  made anew, which loses at most `loss` of its work and takes at least the time `gap`.

## What is proved

An admission adds its cost to the work (`Admits.work_le`), and no more than its cost and the error,
unless the bucket was empty (`Admits.le_work`). Along a sequence of admissions that follow one
another the work grows by their costs (`chain_work`), so that there are few of them where the work
is bounded (`count_le`): **no window has more than fit into it**.
-/

namespace NginxTools.Library.LeakyBucket

universe u v

variable {R : Type u} [CommRing R] [LinearOrder R] [IsStrictOrderedRing R]

/-- A level, and when it was right. -/
structure Bucket (R : Type u) where
  level : R
  last : R

/-- The level, and all that has drained up to its time at the rate `r`. -/
def Bucket.work (r : R) (b : Bucket R) : R := b.level + r * b.last

/-- What the admission of a cost at a time makes of a bucket. -/
structure Admits (r cost err now : R) (b b' : Bucket R) : Prop where
  last : b'.last = max b.last now
  nonneg : 0 ≤ b'.level
  lower : b.level - r * (b'.last - b.last) + cost ≤ b'.level
  upper : b'.level = 0 ∨ b'.level ≤ b.level - r * (b'.last - b.last) + cost + err

variable {r cost err now gap loss : R} {b b' : Bucket R}

/-- **An admission adds its cost to the work.** -/
theorem Admits.work_le (h : Admits r cost err now b b') : b.work r + cost ≤ b'.work r := by
  have hlower := h.lower
  unfold Bucket.work
  linarith [mul_sub r b'.last b.last]

/-- An admission adds no more than its cost and the error, unless it leaves the bucket empty. -/
theorem Admits.le_work (h : Admits r cost err now b b') :
    b'.work r = r * b'.last ∨ b'.work r ≤ b.work r + cost + err := by
  unfold Bucket.work
  rcases h.upper with hzero | hupper
  · exact .inl (by rw [hzero, zero_add])
  · exact .inr (by linarith [mul_sub r b'.last b.last])

omit [IsStrictOrderedRing R] in
theorem Admits.now_le (h : Admits r cost err now b b') : now ≤ b'.last := by
  rw [h.last]
  exact le_max_right _ _

omit [IsStrictOrderedRing R] in
theorem Admits.last_le (h : Admits r cost err now b b') : b.last ≤ b'.last := by
  rw [h.last]
  exact le_max_left _ _

/-- One admission after another. -/
inductive Follows (r cost gap loss : R) (b b' : Bucket R) : Prop where
  /-- Into the same bucket. -/
  | drained : b.work r + cost ≤ b'.work r → b.last ≤ b'.last → Follows r cost gap loss b b'
  /-- Into a bucket made anew. -/
  | renewed : b.work r ≤ b'.work r + loss → b.last + gap ≤ b'.last → Follows r cost gap loss b b'

variable {α : Type v} {bucket : α → Bucket R} {x y : α} {l : List α}

/-- **The work grows by the costs** along admissions that follow one another, `c` of them into
buckets made anew. -/
theorem chain_work
    (h : (x :: l).IsChain fun x y => Follows r cost gap loss (bucket x) (bucket y)) :
    ∃ c : ℕ, (c : R) * gap ≤ (bucket ((x :: l).getLast (by simp))).last - (bucket x).last ∧
      (bucket x).work r + (l.length : R) * cost ≤
        (bucket ((x :: l).getLast (by simp))).work r + (c : R) * (cost + loss) := by
  induction l generalizing x with
  | nil => exact ⟨0, by simp, by simp⟩
  | cons y l ih =>
    obtain ⟨hxy, hl⟩ := List.isChain_cons_cons.mp h
    obtain ⟨c, hc, hwork⟩ := ih hl
    rw [List.getLast_cons (by simp)]
    simp only [List.length_cons, Nat.cast_add, Nat.cast_one, add_mul, one_mul]
    cases hxy with
    | drained hstep hlast => exact ⟨c, by linarith, by linarith⟩
    | renewed hstep hlast =>
      refine ⟨c + 1, ?_, ?_⟩
      · rw [Nat.cast_add, Nat.cast_one, add_mul, one_mul]
        linarith
      · rw [Nat.cast_add, Nat.cast_one, add_mul, one_mul]
        linarith

/-- The elements from one that meets a test up to the last that does. -/
theorem exists_upto (p : α → Bool) (hx : p x = true) (l : List α) :
    ∃ m post, l = m ++ post ∧ p ((x :: m).getLast (by simp)) = true ∧
      (l.filter p).length ≤ m.length := by
  induction l using List.reverseRecOn with
  | nil => exact ⟨[], [], rfl, hx, Nat.le_refl _⟩
  | append_singleton l y ih =>
    by_cases hy : p y = true
    · exact ⟨l ++ [y], [], by simp, by simpa using hy, List.length_filter_le _ _⟩
    · obtain ⟨m, post, rfl, hlast, hlen⟩ := ih
      refine ⟨m, post ++ [y], by simp, hlast, ?_⟩
      rw [List.filter_append, List.filter_cons_of_neg hy, List.filter_nil, List.append_nil]
      exact hlen

/-- The elements from the first that meets a test up to the last that does. -/
theorem exists_between (p : α → Bool) {k : ℕ} (hk : (l.filter p).length = k + 1) :
    ∃ pre x m post, l = pre ++ (x :: m) ++ post ∧ p x = true ∧
      p ((x :: m).getLast (by simp)) = true ∧ k ≤ m.length := by
  induction l with
  | nil => simp at hk
  | cons x l ih =>
    by_cases hx : p x = true
    · obtain ⟨m, post, rfl, hlast, hlen⟩ := exists_upto p hx l
      rw [List.filter_cons_of_pos hx, List.length_cons] at hk
      exact ⟨[], x, m, post, rfl, hx, hlast, by omega⟩
    · rw [List.filter_cons_of_neg hx] at hk
      obtain ⟨pre, y, m, post, rfl, h⟩ := ih hk
      exact ⟨x :: pre, y, m, post, rfl, h⟩

/-- **No window has more admissions than fit into it**: those that meet a test are at most one more
than their works are apart, and one more for each bucket that was made anew. -/
theorem count_le (hcost : 0 ≤ cost)
    (h : l.IsChain fun x y => Follows r cost gap loss (bucket x) (bucket y)) (p : α → Bool)
    (lo hi start stop : R) (hwork : ∀ x ∈ l, p x = true →
      lo ≤ (bucket x).work r ∧ (bucket x).work r ≤ hi)
    (hlast : ∀ x ∈ l, p x = true → start ≤ (bucket x).last ∧ (bucket x).last ≤ stop) {k : ℕ}
    (hk : (l.filter p).length = k + 1) :
    ∃ c : ℕ, (c : R) * gap ≤ stop - start ∧ (k : R) * cost ≤ hi - lo + (c : R) * (cost + loss) := by
  obtain ⟨pre, x, m, post, rfl, hx, hend, hlen⟩ := exists_between p hk
  have hchain : (x :: m).IsChain fun x y => Follows r cost gap loss (bucket x) (bucket y) :=
    h.left_of_append.right_of_append
  obtain ⟨c, hc, hgrow⟩ := chain_work hchain
  have hxmem : x ∈ pre ++ (x :: m) ++ post := by simp
  have hendmem : (x :: m).getLast (by simp) ∈ pre ++ (x :: m) ++ post := by
    have hin := List.getLast_mem (l := x :: m) (by simp)
    simp only [List.append_assoc, List.mem_append]
    exact .inr (.inl hin)
  have hkm : (k : R) * cost ≤ (m.length : R) * cost :=
    mul_le_mul_of_nonneg_right (Nat.cast_le.mpr hlen) hcost
  refine ⟨c, ?_, ?_⟩
  · linarith [(hlast x hxmem hx).1, (hlast _ hendmem hend).2]
  · linarith [(hwork x hxmem hx).1, (hwork _ hendmem hend).2]

end NginxTools.Library.LeakyBucket
