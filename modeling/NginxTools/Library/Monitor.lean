import Mathlib.Logic.Function.Basic
import Mathlib.Data.Option.Basic
import Mathlib.Tactic.SplitIfs

/-!
# Monitors

A non-recursive mutex and one condition variable on it, as POSIX threads define
them, for threads named by any type.

## The model

`owner` is the thread that holds the mutex; `waiting t` says that `t` is in the wait
set of the condition. The operations are the atomic halves POSIX gives: `wait`
releases the mutex and joins the wait set in one step; `wake` (a time-out or a
spurious wake-up) takes one thread out of the wait set and `broadcast` takes out all
of them; a thread that was taken out holds the mutex again only by `lock`. An
operation that would block is not enabled: its result is `none`.

## What is proved

`Disciplined holds waits m pc` says that the monitor agrees with the threads' control
points: the owner is exactly the thread whose control point holds the mutex, and only
threads inside the wait are in the wait set. Each operation, taken together with the
move of its thread to the next control point, keeps it (`Disciplined.lock`, ...), and
it gives mutual exclusion (`Disciplined.unique`).
-/

namespace NginxTools.Library

universe u v

/-- A mutex and a condition variable. -/
structure Monitor (τ : Type u) where
  /-- The thread that holds the mutex. -/
  owner : Option τ
  /-- The wait set of the condition. -/
  waiting : τ → Bool

namespace Monitor

variable {τ : Type u} {π : Type v} [DecidableEq τ]

/-- Nobody holds the mutex and nobody waits. -/
def free : Monitor τ := ⟨none, fun _ => false⟩

/-- Thread `t` locks the mutex; it blocks while anyone, `t` included, holds it. -/
def lock (m : Monitor τ) (t : τ) : Option (Monitor τ) :=
  if m.owner = none then some { m with owner := some t } else none

/-- Thread `t` unlocks the mutex it holds. -/
def unlock (m : Monitor τ) (t : τ) : Option (Monitor τ) :=
  if m.owner = some t then some { m with owner := none } else none

/-- Thread `t` releases the mutex and joins the wait set, in one step. -/
def wait (m : Monitor τ) (t : τ) : Option (Monitor τ) :=
  if m.owner = some t then some ⟨none, Function.update m.waiting t true⟩ else none

/-- Thread `t` leaves the wait set without a broadcast. -/
def wake (m : Monitor τ) (t : τ) : Option (Monitor τ) :=
  if m.waiting t then some { m with waiting := Function.update m.waiting t false } else none

/-- Thread `t`, no longer in the wait set, takes the mutex again. -/
def reacquire (m : Monitor τ) (t : τ) : Option (Monitor τ) :=
  if m.waiting t then none else m.lock t

/-- Every thread leaves the wait set. -/
def broadcast (m : Monitor τ) : Monitor τ := { m with waiting := fun _ => false }

/-! ### What an enabled operation does -/

omit [DecidableEq τ] in
theorem lock_eq_some {m m' : Monitor τ} {t : τ} :
    m.lock t = some m' ↔ m.owner = none ∧ m' = { m with owner := some t } := by
  unfold lock
  split_ifs with h <;> simp [h, eq_comm]

theorem unlock_eq_some {m m' : Monitor τ} {t : τ} :
    m.unlock t = some m' ↔ m.owner = some t ∧ m' = { m with owner := none } := by
  unfold unlock
  split_ifs with h <;> simp [h, eq_comm]

theorem wait_eq_some {m m' : Monitor τ} {t : τ} :
    m.wait t = some m' ↔ m.owner = some t ∧ m' = ⟨none, Function.update m.waiting t true⟩ := by
  unfold wait
  split_ifs with h <;> simp [h, eq_comm]

theorem wake_eq_some {m m' : Monitor τ} {t : τ} :
    m.wake t = some m' ↔
      m.waiting t = true ∧ m' = { m with waiting := Function.update m.waiting t false } := by
  unfold wake
  split_ifs with h <;> simp [h, eq_comm]

omit [DecidableEq τ] in
theorem reacquire_eq_some {m m' : Monitor τ} {t : τ} :
    m.reacquire t = some m' ↔
      m.waiting t = false ∧ m.owner = none ∧ m' = { m with owner := some t } := by
  unfold reacquire
  split_ifs with h <;> simp [h, lock_eq_some]

omit [DecidableEq τ] in
@[simp] theorem broadcast_owner (m : Monitor τ) : m.broadcast.owner = m.owner := rfl

omit [DecidableEq τ] in
@[simp] theorem broadcast_waiting (m : Monitor τ) (t : τ) : m.broadcast.waiting t = false := rfl

/-! ### The discipline -/

/-- The monitor agrees with the threads' control points: a thread owns the mutex
exactly when its control point holds it, and only threads inside the wait are in the
wait set. -/
structure Disciplined (holds waits : π → Prop) (m : Monitor τ) (pc : τ → π) : Prop where
  /-- The owner is the thread whose control point holds the mutex. -/
  owner : ∀ t, m.owner = some t ↔ holds (pc t)
  /-- A thread in the wait set is at a control point inside the wait. -/
  waiting : ∀ t, m.waiting t = true → waits (pc t)

namespace Disciplined

variable {holds waits : π → Prop} {m m' : Monitor τ} {pc : τ → π} {t : τ} {q : π}

omit [DecidableEq τ] in
theorem free {pc : τ → π} (h : ∀ t, ¬ holds (pc t)) :
    Disciplined holds waits (Monitor.free : Monitor τ) pc :=
  ⟨fun t => by simp [Monitor.free, h t], fun t ht => by simp [Monitor.free] at ht⟩

omit [DecidableEq τ] in
/-- **Mutual exclusion**: at most one thread is at a control point that holds the mutex. -/
theorem unique (h : Disciplined holds waits m pc) {t u : τ} (ht : holds (pc t))
    (hu : holds (pc u)) :
    t = u := by
  have h₁ := (h.owner t).mpr ht
  have h₂ := (h.owner u).mpr hu
  exact Option.some.inj (h₁.symm.trans h₂)

/-- A thread moves without touching the monitor. -/
theorem move (h : Disciplined holds waits m pc) (hq : holds q ↔ holds (pc t))
    (hw : waits (pc t) → waits q) : Disciplined holds waits m (Function.update pc t q) := by
  constructor
  · intro u
    by_cases hu : u = t
    · subst hu; rw [Function.update_self, hq]; exact h.owner u
    · rw [Function.update_of_ne hu]; exact h.owner u
  · intro u hwu
    by_cases hu : u = t
    · subst hu; rw [Function.update_self]; exact hw (h.waiting u hwu)
    · rw [Function.update_of_ne hu]; exact h.waiting u hwu

/-- A thread takes the free mutex. -/
theorem acquire (h : Disciplined holds waits m pc) (hfree : m.owner = none) (hq : holds q)
    (hw : m.waiting t = true → waits q) :
    Disciplined holds waits { m with owner := some t } (Function.update pc t q) := by
  constructor
  · intro u
    by_cases hu : u = t
    · subst hu; simp [hq]
    · rw [Function.update_of_ne hu, ← h.owner u, hfree]
      simp [Ne.symm hu]
  · intro u hwu
    by_cases hu : u = t
    · subst hu; rw [Function.update_self]; exact hw hwu
    · rw [Function.update_of_ne hu]; exact h.waiting u hwu

theorem lock (h : Disciplined holds waits m pc) (hl : m.lock t = some m') (hq : holds q)
    (hw : ¬ waits (pc t)) : Disciplined holds waits m' (Function.update pc t q) := by
  obtain ⟨hfree, rfl⟩ := lock_eq_some.mp hl
  exact h.acquire hfree hq fun ht => absurd (h.waiting t ht) hw

theorem reacquire (h : Disciplined holds waits m pc) (hl : m.reacquire t = some m') (hq : holds q) :
    Disciplined holds waits m' (Function.update pc t q) := by
  obtain ⟨hw, hfree, rfl⟩ := reacquire_eq_some.mp hl
  exact h.acquire hfree hq fun ht => by simp [hw] at ht

/-- A thread gives the mutex up, and is then in the wait set only inside the wait. -/
theorem release (h : Disciplined holds waits m pc) (hown : m.owner = some t) (hq : ¬ holds q)
    {w : τ → Bool} (hw : ∀ u, u ≠ t → w u = m.waiting u) (hwt : w t = true → waits q) :
    Disciplined holds waits ⟨none, w⟩ (Function.update pc t q) := by
  constructor
  · intro u
    by_cases hu : u = t
    · subst hu; simp [hq]
    · rw [Function.update_of_ne hu, ← h.owner u, hown]
      simp [Ne.symm hu]
  · intro u hwu
    by_cases hu : u = t
    · subst hu; rw [Function.update_self]; exact hwt hwu
    · rw [Function.update_of_ne hu]; exact h.waiting u (by rw [← hw u hu]; exact hwu)

theorem unlock (h : Disciplined holds waits m pc) (hl : m.unlock t = some m') (hq : ¬ holds q)
    (hw : ¬ waits (pc t)) : Disciplined holds waits m' (Function.update pc t q) := by
  obtain ⟨hown, rfl⟩ := unlock_eq_some.mp hl
  exact h.release hown hq (fun _ _ => rfl) fun ht => absurd (h.waiting t ht) hw

theorem wait (h : Disciplined holds waits m pc) (hl : m.wait t = some m') (hq : ¬ holds q)
    (hw : waits q) : Disciplined holds waits m' (Function.update pc t q) := by
  obtain ⟨hown, rfl⟩ := wait_eq_some.mp hl
  exact h.release hown hq (fun u hu => Function.update_of_ne hu _ _) fun _ => hw

theorem wake (h : Disciplined holds waits m pc) (hl : m.wake t = some m') :
    Disciplined holds waits m' pc := by
  obtain ⟨-, rfl⟩ := wake_eq_some.mp hl
  refine ⟨h.owner, fun u hu => ?_⟩
  by_cases hut : u = t
  · subst hut; simp at hu
  · exact h.waiting u (by simpa [Function.update_of_ne hut] using hu)

/-- A broadcast leaves nobody in the wait set; its thread moves on. -/
theorem broadcast (h : Disciplined holds waits m pc) (hq : holds q ↔ holds (pc t)) :
    Disciplined holds waits m.broadcast (Function.update pc t q) := by
  have h' : Disciplined holds waits m.broadcast pc := ⟨h.owner, fun u hu => by simp at hu⟩
  refine ⟨?_, fun u hu => by simp at hu⟩
  intro u
  by_cases hu : u = t
  · subst hu; rw [Function.update_self, hq]; exact h'.owner u
  · rw [Function.update_of_ne hu]; exact h'.owner u

end Disciplined

end Monitor

end NginxTools.Library
