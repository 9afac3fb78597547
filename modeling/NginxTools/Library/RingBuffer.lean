import Mathlib.Data.List.DropRight
import Mathlib.Data.List.Nodup
import Mathlib.Logic.Function.Basic

/-!
# Ring buffers

A ring buffer keeps a queue in an array that is used from the beginning again when its end is
reached. It has an index of the queue's front and one of the slot after its rear, and one slot is
left free, so that equal indices mean that the queue is empty.

## The model

`RingBuffer` carries the bounds of its indices. `push` and `pop` are those of a queue, `slide` pops
one element and pushes another, and `loop` is a loop over the slots in use,

    for (i = q->front; i != q->rear; i = (i + 1) % q->len) { ... }

with the number of slots as its fuel.

## What is proved

Over the queue `elems` that a ring keeps, `push` appends to it (`push_eq_some`), `pop` takes its
first element (`pop_eq_some`), and the loop visits the slots in use in order (`loop_eq`). **Sliding
over a list keeps the last elements** (`elems_slides`).
-/

namespace NginxTools.Library

universe u v

/-- The slots, and which of them are in use. -/
structure RingBuffer (α : Type u) where
  slots : ℕ → α
  front : ℕ
  rear : ℕ
  len : ℕ
  front_lt : front < len
  rear_lt : rear < len

namespace RingBuffer

variable {α : Type u} {β : Type v} {r r' : RingBuffer α} {x : α}

/-- The index after another. -/
def next (r : RingBuffer α) (i : ℕ) : ℕ := (i + 1) % r.len

theorem next_lt (r : RingBuffer α) (i : ℕ) : r.next i < r.len :=
  Nat.mod_lt _ (Nat.lt_of_le_of_lt (Nat.zero_le _) r.front_lt)

/-- The element is put after the queue's rear, if there is room. -/
def push (r : RingBuffer α) (x : α) : Option (RingBuffer α) :=
  if r.next r.rear = r.front then none
  else some ⟨Function.update r.slots r.rear x, r.front, r.next r.rear, r.len, r.front_lt,
    r.next_lt _⟩

/-- The element at the queue's front is taken out, if there is one. -/
def pop (r : RingBuffer α) : Option (α × RingBuffer α) :=
  if r.front = r.rear then none
  else some (r.slots r.front, ⟨r.slots, r.next r.front, r.rear, r.len, r.next_lt _, r.rear_lt⟩)

/-- A pop and a push. -/
def slide (r : RingBuffer α) (x : α) : Option (RingBuffer α) := do
  let (_, r) ← r.pop
  r.push x

/-- A loop over the slots in use, from an index on. -/
def loopFrom (f : β → ℕ → β) (r : RingBuffer α) : ℕ → ℕ → β → β
  | 0, _, b => b
  | fuel + 1, i, b => if i = r.rear then b else loopFrom f r fuel (r.next i) (f b i)

/-- A loop over the slots in use. -/
def loop (f : β → ℕ → β) (r : RingBuffer α) (b : β) : β := loopFrom f r r.len r.front b

/-! ### The queue -/

/-- The number of slots in use. -/
def size (r : RingBuffer α) : ℕ := (r.rear + r.len - r.front) % r.len

/-- The slots in use, in order. -/
def indices (r : RingBuffer α) : List ℕ := (List.range r.size).map fun k => (r.front + k) % r.len

/-- The queue. -/
def elems (r : RingBuffer α) : List α := r.indices.map r.slots

theorem size_cases (r : RingBuffer α) :
    r.front ≤ r.rear ∧ r.size = r.rear - r.front ∨
      r.rear < r.front ∧ r.size = r.rear + r.len - r.front := by
  have hf := r.front_lt
  have hr := r.rear_lt
  rcases Nat.lt_or_ge r.rear r.front with h | h
  · exact .inr ⟨h, Nat.mod_eq_of_lt (by omega)⟩
  · refine .inl ⟨h, ?_⟩
    rw [size, show r.rear + r.len - r.front = r.rear - r.front + r.len by omega,
      Nat.add_mod_right, Nat.mod_eq_of_lt (by omega)]

theorem size_lt (r : RingBuffer α) : r.size < r.len :=
  Nat.mod_lt _ (Nat.lt_of_le_of_lt (Nat.zero_le _) r.front_lt)

theorem size_eq_zero_iff : r.size = 0 ↔ r.front = r.rear := by
  have hf := r.front_lt
  have hr := r.rear_lt
  rcases r.size_cases with ⟨h, hs⟩ | ⟨h, hs⟩ <;> omega

/-- A slot in use, by its distance from the front. -/
theorem mod_eq (r : RingBuffer α) {k : ℕ} (hk : k < r.len) :
    (r.front + k) % r.len = if r.front + k < r.len then r.front + k else r.front + k - r.len := by
  have hf := r.front_lt
  split_ifs with h
  · exact Nat.mod_eq_of_lt h
  · rw [Nat.mod_eq_sub_mod (by omega), Nat.mod_eq_of_lt (by omega)]

/-- The slot after those in use is the rear. -/
theorem mod_size (r : RingBuffer α) : (r.front + r.size) % r.len = r.rear := by
  have hf := r.front_lt
  have hr := r.rear_lt
  rw [r.mod_eq r.size_lt]
  rcases r.size_cases with ⟨h, hs⟩ | ⟨h, hs⟩ <;> split_ifs <;> omega

theorem next_mod (r : RingBuffer α) (k : ℕ) :
    r.next ((r.front + k) % r.len) = (r.front + (k + 1)) % r.len := by
  rw [next, Nat.mod_add_mod, Nat.add_assoc]

theorem mod_inj (r : RingBuffer α) {j k : ℕ} (hj : j < r.len) (hk : k < r.len)
    (h : (r.front + j) % r.len = (r.front + k) % r.len) : j = k := by
  have hf := r.front_lt
  rw [r.mod_eq hj, r.mod_eq hk] at h
  split_ifs at h <;> omega

theorem mod_ne_rear (r : RingBuffer α) {k : ℕ} (hk : k < r.size) :
    (r.front + k) % r.len ≠ r.rear := by
  intro h
  have hsize := r.size_lt
  have := r.mod_inj (by omega) hsize (h.trans r.mod_size.symm)
  omega

@[simp] theorem length_indices (r : RingBuffer α) : r.indices.length = r.size := by simp [indices]

@[simp] theorem length_elems (r : RingBuffer α) : r.elems.length = r.size := by simp [elems]

theorem elems_eq_nil_iff : r.elems = [] ↔ r.front = r.rear := by
  rw [← List.length_eq_zero_iff, length_elems, size_eq_zero_iff]

theorem rear_notMem_indices (r : RingBuffer α) : r.rear ∉ r.indices := by
  intro hmem
  obtain ⟨k, hk, heq⟩ := List.mem_map.mp hmem
  exact r.mod_ne_rear (List.mem_range.mp hk) heq

/-- There is no room when all slots but one are in use. -/
theorem next_rear_eq_front_iff : r.next r.rear = r.front ↔ r.size + 1 = r.len := by
  have hf := r.front_lt
  have hr := r.rear_lt
  rw [next]
  rcases Nat.lt_or_ge (r.rear + 1) r.len with h | h
  · rw [Nat.mod_eq_of_lt h]
    rcases r.size_cases with ⟨h', hs⟩ | ⟨h', hs⟩ <;> omega
  · rw [show r.rear + 1 = r.len by omega, Nat.mod_self]
    rcases r.size_cases with ⟨h', hs⟩ | ⟨h', hs⟩ <;> omega

/-! ### The operations -/

theorem push_eq_none_iff : r.push x = none ↔ r.size + 1 = r.len := by
  rw [← next_rear_eq_front_iff, push]
  split_ifs with h <;> simp [h]

/-- **A push appends to the queue.** -/
theorem push_eq_some (h : r.push x = some r') :
    r'.elems = r.elems ++ [x] ∧ r'.len = r.len ∧ r'.slots = Function.update r.slots r.rear x ∧
      r'.indices = r.indices ++ [r.rear] ∧ r'.rear = r.next r.rear := by
  have hroom : ¬ r.next r.rear = r.front := fun hfull => by simp [push, hfull] at h
  rw [push, if_neg hroom] at h
  obtain rfl := (Option.some.inj h).symm
  rw [next_rear_eq_front_iff] at hroom
  have hlt := r.size_lt
  set r' : RingBuffer α := ⟨Function.update r.slots r.rear x, r.front, r.next r.rear, r.len,
    r.front_lt, r.next_lt _⟩ with hr'
  have hsize : r'.size = r.size + 1 := by
    have hmod : (r'.front + (r.size + 1)) % r'.len = r'.rear := by
      change (r.front + (r.size + 1)) % r.len = r.next r.rear
      rw [← r.next_mod, r.mod_size]
    exact r'.mod_inj r'.size_lt (show r.size + 1 < r.len by omega) (r'.mod_size.trans hmod.symm)
  have hindices : r'.indices = r.indices ++ [r.rear] := by
    rw [indices, hsize, List.range_succ, List.map_append]
    change r.indices ++ [(r.front + r.size) % r.len] = _
    rw [r.mod_size]
  refine ⟨?_, rfl, rfl, hindices, rfl⟩
  rw [elems, hindices, List.map_append]
  congr 1
  · refine List.map_congr_left fun i hi => Function.update_of_ne ?_ _ _
    rintro rfl
    exact r.rear_notMem_indices hi
  · simp [hr']

theorem pop_eq_none_iff : r.pop = none ↔ r.elems = [] := by
  rw [elems_eq_nil_iff, pop]
  split_ifs with h <;> simp [h]

/-- **A pop takes the queue's first element.** -/
theorem pop_eq_some (h : r.pop = some (x, r')) :
    r.elems = x :: r'.elems ∧ r'.len = r.len ∧ r'.slots = r.slots ∧ r'.rear = r.rear := by
  have hne : ¬ r.front = r.rear := fun hempty => by simp [pop, hempty] at h
  rw [pop, if_neg hne, Option.some.injEq, Prod.mk.injEq] at h
  obtain ⟨rfl, rfl⟩ := h
  rw [← size_eq_zero_iff] at hne
  have hlt := r.size_lt
  set r' : RingBuffer α := ⟨r.slots, r.next r.front, r.rear, r.len, r.next_lt _, r.rear_lt⟩ with hr'
  have hmod : ∀ k, (r'.front + k) % r'.len = (r.front + (k + 1)) % r.len := by
    intro k
    change (r.next r.front + k) % r.len = _
    rw [next, Nat.mod_add_mod, Nat.add_right_comm, Nat.add_assoc]
  have hsize : r.size = r'.size + 1 := by
    have hk : (r'.front + (r.size - 1)) % r'.len = r'.rear := by
      rw [hmod, Nat.sub_add_cancel (by omega)]
      exact r.mod_size
    have := r'.mod_inj r'.size_lt (show r.size - 1 < r.len by omega) (r'.mod_size.trans hk.symm)
    omega
  have hindices : r.indices = r.front :: r'.indices := by
    rw [indices, hsize, List.range_succ_eq_map, List.map_cons, List.map_map, Nat.add_zero,
      Nat.mod_eq_of_lt r.front_lt]
    exact congrArg _ (List.map_congr_left fun k _ => (hmod k).symm)
  exact ⟨by rw [elems, hindices, List.map_cons, elems], rfl, rfl, rfl⟩

/-- A queue that has elements slides. -/
theorem exists_slide (x : α) (h : r.elems ≠ []) :
    ∃ r', r.slide x = some r' ∧ r'.elems = r.elems.tail ++ [x] ∧ r'.len = r.len ∧
      r'.slots = Function.update r.slots r.rear x ∧ r'.rear = r.next r.rear := by
  obtain ⟨⟨y, p⟩, hp⟩ := Option.ne_none_iff_exists'.mp (mt pop_eq_none_iff.mp h)
  obtain ⟨helems, hlen, hslots, hrear⟩ := pop_eq_some hp
  have hroom : p.push x ≠ none := by
    rw [Ne, push_eq_none_iff, hlen]
    have hlt := r.size_lt
    have hsize : r.size = p.size + 1 := by
      rw [← length_elems, helems, List.length_cons, length_elems]
    omega
  obtain ⟨q, hq⟩ := Option.ne_none_iff_exists'.mp hroom
  obtain ⟨helems', hlen', hslots', -, hrear'⟩ := push_eq_some hq
  refine ⟨q, by simp [slide, hp, hq], ?_, hlen'.trans hlen, ?_, ?_⟩
  · rw [helems', helems, List.tail_cons]
  · rw [hslots', hslots, hrear]
  · rw [hrear', next, next, hrear, hlen]

theorem size_eq_of_slide (h : r.elems ≠ []) (h' : r'.elems = r.elems.tail ++ [x]) :
    r'.size = r.size := by
  have hpos := List.length_pos_iff.mpr h
  rw [← length_elems, h', List.length_append, List.length_tail, ← r.length_elems,
    List.length_singleton]
  omega

/-- **Sliding over a list keeps the last elements**, as many as there were. -/
theorem elems_slides (step : RingBuffer α → α → RingBuffer α)
    (hstep : ∀ r x, r.elems ≠ [] →
      (step r x).elems = r.elems.tail ++ [x] ∧ (step r x).len = r.len)
    (h : r.elems ≠ []) (xs : List α) :
    (xs.foldl step r).elems = (r.elems ++ xs).rtake r.size ∧ (xs.foldl step r).len = r.len := by
  suffices hall : (xs.foldl step r).elems = (r.elems ++ xs).rtake r.size ∧
      (xs.foldl step r).len = r.len ∧ (xs.foldl step r).elems ≠ [] ∧
      (xs.foldl step r).size = r.size from ⟨hall.1, hall.2.1⟩
  induction xs using List.reverseRecOn with
  | nil => exact ⟨by simp [List.rtake], rfl, h, rfl⟩
  | append_singleton xs x ih =>
    obtain ⟨helems, hlen, hne, hsize⟩ := ih
    obtain ⟨hnext, hnextLen⟩ := hstep _ x hne
    rw [List.foldl_append, List.foldl_cons, List.foldl_nil]
    refine ⟨?_, hnextLen.trans hlen, by simp [hnext], (size_eq_of_slide hne hnext).trans hsize⟩
    have hpos : 0 < r.size := r.length_elems ▸ List.length_pos_iff.mpr h
    obtain ⟨n, hn⟩ := Nat.exists_eq_succ_of_ne_zero hpos.ne'
    rw [hnext, helems, ← List.append_assoc, hn, Nat.succ_eq_add_one, List.rtake_concat_succ]
    simp only [List.rtake, List.tail_drop, List.length_append, length_elems]
    congr 2
    omega

/-! ### Loops -/

theorem loopFrom_eq (f : β → ℕ → β) (r : RingBuffer α) (b : β) {k fuel : ℕ} (hk : k ≤ r.size)
    (hfuel : r.size ≤ k + fuel) :
    loopFrom f r (fuel + 1) ((r.front + k) % r.len) b = (r.indices.drop k).foldl f b := by
  induction fuel generalizing k b with
  | zero =>
    obtain rfl : k = r.size := by omega
    rw [loopFrom, if_pos r.mod_size, List.drop_of_length_le (by simp), List.foldl_nil]
  | succ fuel ih =>
    rw [loopFrom]
    rcases Nat.lt_or_ge k r.size with hlt | hge
    · have hdrop : r.indices.drop k = (r.front + k) % r.len :: r.indices.drop (k + 1) := by
        rw [List.drop_eq_getElem_cons (by simpa using hlt)]
        simp [indices]
      rw [if_neg (r.mod_ne_rear hlt), r.next_mod, ih _ (by omega) (by omega), hdrop,
        List.foldl_cons]
    · obtain rfl : k = r.size := by omega
      rw [if_pos r.mod_size, List.drop_of_length_le (by simp), List.foldl_nil]

/-- **The loop visits the slots in use, in order.** -/
theorem loop_eq (f : β → ℕ → β) (r : RingBuffer α) (b : β) : r.loop f b = r.indices.foldl f b := by
  have hlt := r.size_lt
  obtain ⟨fuel, hfuel⟩ : ∃ fuel, r.len = fuel + 1 := ⟨r.len - 1, by omega⟩
  have hfront : (r.front + 0) % r.len = r.front := Nat.mod_eq_of_lt r.front_lt
  have hsize : r.size ≤ 0 + fuel := by omega
  have h := loopFrom_eq f r b (Nat.zero_le r.size) hsize
  rw [hfront, ← hfuel, List.drop_zero] at h
  exact h

/-- A loop that only reads the slots goes over the queue. -/
theorem loop_elems (f : β → α → β) (r : RingBuffer α) (b : β) :
    r.loop (fun b i => f b (r.slots i)) b = r.elems.foldl f b := by
  rw [loop_eq, elems, List.foldl_map]

end RingBuffer

end NginxTools.Library
