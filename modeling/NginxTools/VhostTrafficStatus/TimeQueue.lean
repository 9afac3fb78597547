import NginxTools.Library.RingBuffer
import Mathlib.Algebra.Order.BigOperators.Group.List
import Mathlib.Tactic.Ring

/-!
# The queue of request times

A node of the traffic status module keeps the times of its last requests in a queue of 64 slots,
from which the averages that are displayed are made. A queue is full from the beginning, of requests
that took no time at the time 0, and a new request takes the place of the oldest:

    rc = ngx_http_vhost_traffic_status_node_time_queue_pop(q, &rx)
         | ngx_http_vhost_traffic_status_node_time_queue_push(q, x);

    if (rc != NGX_OK) {
        ngx_http_vhost_traffic_status_node_time_queue_init(q);
    }

The arithmetic mean and the weighted one go over the queue,

    for (i = q->front, j = 1, k = 0; i != q->rear; i = (i + 1) % q->len, j++) {
        if (x < q->times[i].time) {
            k += (ngx_int_t) q->times[i].msec * ++c;
        }
    }

    if (j != q->len) {
        ngx_http_vhost_traffic_status_node_time_queue_init(q);
    }

## The model

The queue is a `RingBuffer`; `ngx_int_t` is `Int64`. C does not say which operand of `|` is called
first, so that `timeQueueInsertAs` has it as a parameter; `timeQueueInsert` calls them as they are
written.
`Method.mean` is what the averages are for, on natural numbers.

## What is proved

However many requests were recorded, the queue has the last 63 of them, and both averages are those
of the ones within the period, rounded down; they leave the queue as it is
(`timeQueue_average`). An average is between the smallest of its times and the largest
(`Method.le_mean`, `Method.mean_le`). Where the push is called first every request is lost, as the
queue is full (`timeQueueInsertAs_pushFirst`).
-/

namespace NginxTools.VhostTrafficStatus

open NginxTools.Library

/-! ### The queue -/

/-- `ngx_http_vhost_traffic_status_node_time_t`. -/
structure NodeTime where
  /-- When it was recorded. -/
  time : UInt64
  /-- How long it took. -/
  msec : Int64
deriving DecidableEq

/-- `ngx_http_vhost_traffic_status_node_time_queue_t`. -/
abbrev TimeQueue := RingBuffer NodeTime

/-- `ngx_http_vhost_traffic_status_node_time_queue_init`. -/
def timeQueueInit : TimeQueue := ⟨fun _ => ⟨0, 0⟩, 0, 63, 64, by decide, by decide⟩

/-- `ngx_http_vhost_traffic_status_node_time_queue_push`. -/
def timeQueuePush (now : UInt64) (x : Int64) (q : TimeQueue) : Option TimeQueue := q.push ⟨now, x⟩

/-- `ngx_http_vhost_traffic_status_node_time_queue_pop`. -/
def timeQueuePop (q : TimeQueue) : Option (NodeTime × TimeQueue) := q.pop

/-- `ngx_http_vhost_traffic_status_node_time_queue_rear`. -/
def timeQueueRear (q : TimeQueue) : ℕ := if q.rear > 0 then q.rear - 1 else 64 - 1

/-- `ngx_http_vhost_traffic_status_node_time_queue_insert`, with the operand of `|` that is called
first. An error of either one makes the queue anew. -/
def timeQueueInsertAs (popFirst : Bool) (now : UInt64) (x : Int64) (q : TimeQueue) : TimeQueue :=
  let r : Option TimeQueue :=
    if popFirst then do
      let (_, q) ← timeQueuePop q
      timeQueuePush now x q
    else do
      let q ← timeQueuePush now x q
      let (_, q) ← timeQueuePop q
      some q
  r.getD timeQueueInit

/-- `ngx_http_vhost_traffic_status_node_time_queue_insert`, in the order in which it is written. -/
def timeQueueInsert (now : UInt64) (x : Int64) (q : TimeQueue) : TimeQueue :=
  timeQueueInsertAs true now x q

/-- The variables of the loops that make an average. -/
structure Sums where
  c : Int64
  j : Int64
  k : Int64
deriving DecidableEq

/-- The time from which on requests count: `period ? (current_msec - period) : 0`. -/
def since (now period : UInt64) : UInt64 := if period = 0 then 0 else now - period

/-- One turn of the loop of `amm`. -/
def ammTurn (x : UInt64) (s : Sums) (t : NodeTime) : Sums :=
  if x < t.time then ⟨s.c + 1, s.j + 1, s.k + t.msec⟩ else ⟨s.c, s.j + 1, s.k⟩

/-- One turn of the loop of `wma`. -/
def wmaTurn (x : UInt64) (s : Sums) (t : NodeTime) : Sums :=
  if x < t.time then ⟨s.c + 1, s.j + 1, s.k + t.msec * (s.c + 1)⟩ else ⟨s.c, s.j + 1, s.k⟩

/-- `ngx_http_vhost_traffic_status_triangle`. -/
def triangle (n : Int64) : UInt32 := (n * (n + 1) / 2).toUInt64.toUInt32

/-- What follows a loop: a queue that did not have all slots but one in use is made anew. -/
def checkLen (j : Int64) (q : TimeQueue) : TimeQueue :=
  if j = Int64.ofNat q.len then q else timeQueueInit

/-- `ngx_http_vhost_traffic_status_node_time_queue_amm`. -/
def timeQueueAmm (now period : UInt64) (q : TimeQueue) : UInt64 × TimeQueue :=
  let s := q.loop (fun s i => ammTurn (since now period) s (q.slots i)) ⟨0, 1, 0⟩
  (if s.c = 0 then 0 else (s.k / s.c).toUInt64, checkLen s.j q)

/-- `ngx_http_vhost_traffic_status_node_time_queue_wma`. -/
def timeQueueWma (now period : UInt64) (q : TimeQueue) : UInt64 × TimeQueue :=
  let s := q.loop (fun s i => wmaTurn (since now period) s (q.slots i)) ⟨0, 1, 0⟩
  (if s.c = 0 then 0 else (s.k / (triangle s.c).toUInt64.toInt64).toUInt64, checkLen s.j q)

/-- `NGX_HTTP_VHOST_TRAFFIC_STATUS_AVERAGE_METHOD_AMM`, and `_WMA`. -/
inductive Method where
  | amm
  | wma
deriving DecidableEq

/-- `ngx_http_vhost_traffic_status_node_time_queue_average`. -/
def timeQueueAverage (m : Method) (now period : UInt64) (q : TimeQueue) : UInt64 × TimeQueue :=
  match m with
  | .amm => timeQueueAmm now period q
  | .wma => timeQueueWma now period q

/-! ### Averages of natural numbers -/

/-- The sum of the elements with weights that go up by one, the first one more than `n`. -/
def weighted : ℕ → List ℕ → ℕ
  | _, [] => 0
  | n, x :: l => x * (n + 1) + weighted (n + 1) l

/-- The sum of the weights. -/
def weights (n : ℕ) : ℕ := n * (n + 1) / 2

/-- The average of a list, the first element the oldest; 0 where there is none. -/
def Method.mean : Method → List ℕ → ℕ
  | .amm, l => l.sum / l.length
  | .wma, l => weighted 0 l / weights l.length

theorem weights_succ (n : ℕ) : weights (n + 1) = weights n + (n + 1) := by
  rw [weights, weights, show (n + 1) * (n + 1 + 1) = n * (n + 1) + (n + 1) * 2 by ring,
    Nat.add_mul_div_right _ _ (by decide)]

theorem weights_mono {n k : ℕ} (h : n ≤ k) : weights n ≤ weights k :=
  Nat.div_le_div_right (Nat.mul_le_mul h (by omega))

theorem weighted_le {b : ℕ} (n : ℕ) {l : List ℕ} (h : ∀ x ∈ l, x ≤ b) :
    weighted n l + b * weights n ≤ b * weights (n + l.length) := by
  induction l generalizing n with
  | nil => simp [weighted]
  | cons x l ih =>
    obtain ⟨hx, hl⟩ := List.forall_mem_cons.mp h
    have hrest := ih (n + 1) hl
    have hhead : x * (n + 1) ≤ b * (n + 1) := Nat.mul_le_mul_right _ hx
    rw [weights_succ, Nat.mul_add] at hrest
    rw [weighted, List.length_cons, show n + (l.length + 1) = n + 1 + l.length by omega]
    omega

theorem le_weighted {b : ℕ} (n : ℕ) {l : List ℕ} (h : ∀ x ∈ l, b ≤ x) :
    b * weights (n + l.length) ≤ weighted n l + b * weights n := by
  induction l generalizing n with
  | nil => simp [weighted]
  | cons x l ih =>
    obtain ⟨hx, hl⟩ := List.forall_mem_cons.mp h
    have hrest := ih (n + 1) hl
    have hhead : b * (n + 1) ≤ x * (n + 1) := Nat.mul_le_mul_right _ hx
    rw [weights_succ, Nat.mul_add] at hrest
    rw [weighted, List.length_cons, show n + (l.length + 1) = n + 1 + l.length by omega]
    omega

/-- **An average is at most the largest element.** -/
theorem Method.mean_le (m : Method) {b : ℕ} {l : List ℕ} (h : ∀ x ∈ l, x ≤ b) : m.mean l ≤ b := by
  cases m with
  | amm => exact Nat.div_le_of_le_mul (by simpa using List.sum_le_card_nsmul l b h)
  | wma =>
    refine Nat.div_le_of_le_mul ?_
    have hle := weighted_le 0 h
    rw [Nat.zero_add] at hle
    rw [Nat.mul_comm]
    omega

/-- **An average is at least the smallest element.** -/
theorem Method.le_mean (m : Method) {b : ℕ} {l : List ℕ} (hl : l ≠ []) (h : ∀ x ∈ l, b ≤ x) :
    b ≤ m.mean l := by
  have hpos := List.length_pos_iff.mpr hl
  cases m with
  | amm =>
    refine (Nat.le_div_iff_mul_le hpos).mpr ?_
    simpa [Nat.mul_comm] using List.card_nsmul_le_sum l b h
  | wma =>
    have hweights : 0 < weights l.length := weights_mono (n := 1) hpos
    refine (Nat.le_div_iff_mul_le hweights).mpr ?_
    have hle := le_weighted 0 h
    rw [Nat.zero_add] at hle
    simpa [weights] using hle

/-! ### The loops -/

/-- The requests of a list that are within the period. -/
def recent (x : UInt64) (l : List NodeTime) : List NodeTime := l.filter fun t => x < t.time

/-- How long they took. -/
def msecs (l : List NodeTime) : List ℕ := l.map fun t => t.msec.toNatClampNeg

/-- A time that is recorded: `ngx_max(ms, 0)`, of a request of at most `2 ^ 50` milliseconds. -/
structure Timely (t : NodeTime) : Prop where
  nonneg : 0 ≤ t.msec
  small : t.msec.toNatClampNeg ≤ 2 ^ 50

theorem Timely.msec_eq {t : NodeTime} (h : Timely t) :
    t.msec = Int64.ofNat t.msec.toNatClampNeg := by
  have hnonneg := Int64.le_iff_toInt_le.mp h.nonneg
  rw [← Int64.toInt_inj, Int64.toInt_ofNat_of_lt (by have := h.small; omega)]
  have hclamp : (t.msec.toNatClampNeg : ℤ) = t.msec.toInt := Int.toNat_of_nonneg hnonneg
  exact hclamp.symm

variable {x : UInt64} {l : List NodeTime}

theorem recent_cons_of_lt {t : NodeTime} (h : x < t.time) :
    recent x (t :: l) = t :: recent x l := List.filter_cons_of_pos (by simpa using h)

theorem recent_cons_of_not_lt {t : NodeTime} (h : ¬ x < t.time) :
    recent x (t :: l) = recent x l := List.filter_cons_of_neg (by simpa using h)

/-- The loop of `amm` counts the requests within the period, and adds their times up. -/
theorem foldl_ammTurn (h : ∀ t ∈ l, Timely t) (c j k : ℕ) :
    l.foldl (ammTurn x) ⟨Int64.ofNat c, Int64.ofNat j, Int64.ofNat k⟩ =
      ⟨Int64.ofNat (c + (recent x l).length), Int64.ofNat (j + l.length),
        Int64.ofNat (k + (msecs (recent x l)).sum)⟩ := by
  induction l generalizing c j k with
  | nil => rfl
  | cons t l ih =>
    obtain ⟨ht, hl⟩ := List.forall_mem_cons.mp h
    have hone : ∀ n, Int64.ofNat n + 1 = Int64.ofNat (n + 1) := fun n => (Int64.ofNat_add n 1).symm
    rw [List.foldl_cons, ammTurn]
    by_cases hx : x < t.time
    · rw [if_pos hx, recent_cons_of_lt hx, ht.msec_eq, ← Int64.ofNat_add, hone, hone, ih hl]
      simp only [List.length_cons, msecs, List.map_cons, List.sum_cons]
      congr 2 <;> omega
    · rw [if_neg hx, recent_cons_of_not_lt hx, hone, ih hl]
      simp only [List.length_cons]
      congr 2
      omega

/-- The loop of `wma` counts them, and adds their times up with weights. -/
theorem foldl_wmaTurn (h : ∀ t ∈ l, Timely t) (c j k : ℕ) :
    l.foldl (wmaTurn x) ⟨Int64.ofNat c, Int64.ofNat j, Int64.ofNat k⟩ =
      ⟨Int64.ofNat (c + (recent x l).length), Int64.ofNat (j + l.length),
        Int64.ofNat (k + weighted c (msecs (recent x l)))⟩ := by
  induction l generalizing c j k with
  | nil => rfl
  | cons t l ih =>
    obtain ⟨ht, hl⟩ := List.forall_mem_cons.mp h
    have hone : ∀ n, Int64.ofNat n + 1 = Int64.ofNat (n + 1) := fun n => (Int64.ofNat_add n 1).symm
    rw [List.foldl_cons, wmaTurn]
    by_cases hx : x < t.time
    · rw [if_pos hx, recent_cons_of_lt hx, ht.msec_eq, hone, hone, ← Int64.ofNat_mul,
        ← Int64.ofNat_add, ih hl]
      simp only [List.length_cons, msecs, List.map_cons, weighted]
      congr 2 <;> omega
    · rw [if_neg hx, recent_cons_of_not_lt hx, hone, ih hl]
      simp only [List.length_cons]
      congr 2
      omega

theorem toInt_ofNat {n : ℕ} (h : n < 2 ^ 63) : (Int64.ofNat n).toInt = n :=
  Int64.toInt_ofNat_of_lt h

/-- A quotient of natural numbers in `ngx_int_t`. -/
theorem ofNat_div {a b : ℕ} (ha : a < 2 ^ 63) (hb : b < 2 ^ 63) :
    Int64.ofNat a / Int64.ofNat b = Int64.ofNat (a / b) := by
  have hlt : a / b < 2 ^ 63 := Nat.lt_of_le_of_lt (Nat.div_le_self _ _) ha
  have htdiv : ((a : ℤ).tdiv b).bmod (2 ^ 64) = (a / b : ℕ) := by
    rw [← Int.ofNat_tdiv]
    generalize a / b = q at hlt
    exact Int.bmod_eq_of_le (by omega) (by omega)
  rw [← Int64.toInt_inj, Int64.toInt_div, toInt_ofNat ha, toInt_ofNat hb, toInt_ofNat hlt, htdiv]

theorem ofNat_eq_zero_iff {n : ℕ} (h : n < 2 ^ 63) : Int64.ofNat n = 0 ↔ n = 0 := by
  rw [← Int64.toInt_inj, toInt_ofNat h]
  simp

/-! ### Recording -/

variable {q : TimeQueue} {now period : UInt64}

/-- **A queue keeps its last requests**: a new one takes the place of the oldest. -/
theorem timeQueueInsert_elems (now : UInt64) (x : Int64) (hq : q.elems ≠ []) :
    (timeQueueInsert now x q).elems = q.elems.tail ++ [⟨now, x⟩] ∧
      (timeQueueInsert now x q).len = q.len := by
  obtain ⟨q', hslide, helems, hlen, -⟩ := q.exists_slide ⟨now, x⟩ hq
  have heq : timeQueueInsert now x q = q' := by
    have hdo : timeQueueInsert now x q = (q.slide ⟨now, x⟩).getD timeQueueInit := rfl
    rw [hdo, hslide, Option.getD_some]
  exact ⟨heq ▸ helems, heq ▸ hlen⟩

/-- Where the push is called first, a queue that is full loses all of its requests. -/
theorem timeQueueInsertAs_pushFirst (now : UInt64) (x : Int64) (hq : q.size + 1 = q.len) :
    timeQueueInsertAs false now x q = timeQueueInit := by
  have hfull : timeQueuePush now x q = none := RingBuffer.push_eq_none_iff.mpr hq
  simp [timeQueueInsertAs, hfull]

/-- A queue into which requests are recorded. -/
def recorded (ts : List NodeTime) : TimeQueue :=
  ts.foldl (fun q t => timeQueueInsert t.time t.msec q) timeQueueInit

/-- What a queue has in the beginning. -/
def blank : List NodeTime := List.replicate 63 ⟨0, 0⟩

theorem elems_timeQueueInit : timeQueueInit.elems = blank := by decide +kernel

theorem recorded_elems (ts : List NodeTime) :
    (recorded ts).elems = (blank ++ ts).rtake 63 ∧ (recorded ts).len = 64 := by
  have hinit : timeQueueInit.elems ≠ [] := by simp [elems_timeQueueInit, blank]
  have hslides := RingBuffer.elems_slides (fun q t => timeQueueInsert t.time t.msec q)
    (fun q t hq => timeQueueInsert_elems t.time t.msec hq) hinit ts
  rw [elems_timeQueueInit] at hslides
  exact hslides

theorem recorded_append (ts : List NodeTime) (t : NodeTime) :
    recorded (ts ++ [t]) = timeQueueInsert t.time t.msec (recorded ts) := by
  rw [recorded, List.foldl_append]
  rfl

/-- A queue is full, however many requests were recorded. -/
theorem recorded_full (ts : List NodeTime) :
    (recorded ts).len = 64 ∧ (recorded ts).elems.length = 63 := by
  obtain ⟨helems, hlen⟩ := recorded_elems ts
  have hblank : blank.length = 63 := List.length_replicate
  refine ⟨hlen, ?_⟩
  rw [helems, List.rtake, List.length_drop, List.length_append, hblank]
  omega

/-! ### The averages -/

theorem recent_append (x : UInt64) (l l' : List NodeTime) :
    recent x (l ++ l') = recent x l ++ recent x l' := List.filter_append _ _

/-- What a queue has in the beginning is never within a period. -/
theorem recent_blank (x : UInt64) (n : ℕ) : recent x (List.replicate n ⟨0, 0⟩) = [] := by
  rw [recent, List.filter_eq_nil_iff]
  intro t ht
  obtain rfl := List.eq_of_mem_replicate ht
  simp

theorem triangle_ofNat {n : ℕ} (h : n < 64) :
    (triangle (Int64.ofNat n)).toUInt64.toInt64 = Int64.ofNat (weights n) := by
  have hall : ∀ n < 64, (triangle (Int64.ofNat n)).toUInt64.toInt64 = Int64.ofNat (weights n) := by
    decide +kernel
  exact hall n h

theorem length_msecs_recent_le (x : UInt64) (l : List NodeTime) :
    (msecs (recent x l)).length ≤ l.length := by
  rw [msecs, List.length_map]
  exact List.length_filter_le _ _

theorem msecs_recent_le (ht : ∀ t ∈ l, Timely t) : ∀ n ∈ msecs (recent x l), n ≤ 2 ^ 50 := by
  intro n hn
  obtain ⟨t, hmem, rfl⟩ := List.mem_map.mp hn
  exact (ht t (List.mem_of_mem_filter hmem)).small

/-- A queue that has 63 requests is not made anew. -/
theorem checkLen_eq (hlen : q.len = 64) (hsize : q.elems.length = 63) :
    checkLen (Int64.ofNat (1 + q.elems.length)) q = q := by
  rw [checkLen, hsize, hlen, if_pos rfl]

/-- The loops count every request, whatever it took. -/
theorem foldl_turn_j {turn : Sums → NodeTime → Sums} (h : ∀ s t, (turn s t).j = s.j + 1)
    (l : List NodeTime) (s : Sums) : (l.foldl turn s).j = s.j + Int64.ofNat l.length := by
  induction l generalizing s with
  | nil => exact (Int64.add_zero _).symm
  | cons t l ih =>
    rw [List.foldl_cons, ih, h, List.length_cons, Nat.add_comm, Int64.ofNat_add, Int64.add_assoc]
    rfl

/-- An average leaves a queue that is full as it is. -/
theorem timeQueueAverage_snd (m : Method) (now period : UInt64) (hlen : q.len = 64)
    (hsize : q.elems.length = 63) : (timeQueueAverage m now period q).2 = q := by
  have hj : ∀ turn : Sums → NodeTime → Sums, (∀ s t, (turn s t).j = s.j + 1) →
      checkLen (q.loop (fun s i => turn s (q.slots i)) ⟨0, 1, 0⟩).j q = q := by
    intro turn hturn
    have hcheck := checkLen_eq hlen hsize
    rw [hsize] at hcheck
    rw [q.loop_elems turn, foldl_turn_j hturn, hsize]
    exact hcheck
  cases m with
  | amm => exact hj _ fun s t => by unfold ammTurn; split_ifs <;> rfl
  | wma => exact hj _ fun s t => by unfold wmaTurn; split_ifs <;> rfl

/-- What is returned for a sum and a number that it is divided by. -/
theorem quotient_eq {c a b : ℕ} (hc : c < 2 ^ 63) (ha : a < 2 ^ 63) (hb : b < 2 ^ 63)
    (hzero : c = 0 → b = 0) :
    (if Int64.ofNat c = 0 then 0 else (Int64.ofNat a / Int64.ofNat b).toUInt64) =
      UInt64.ofNat (a / b) := by
  split_ifs with h
  · rw [hzero ((ofNat_eq_zero_iff hc).mp h), Nat.div_zero]
    rfl
  · rw [ofNat_div ha hb, Int64.toUInt64_ofNat']

/-- The average of a queue with 63 requests that took at most `2 ^ 50` milliseconds. -/
theorem timeQueueAverage_eq (m : Method) (hlen : q.len = 64) (hsize : q.elems.length = 63)
    (ht : ∀ t ∈ q.elems, Timely t) :
    timeQueueAverage m now period q =
      (UInt64.ofNat (m.mean (msecs (recent (since now period) q.elems))), q) := by
  have hle := length_msecs_recent_le (since now period) q.elems
  have hsmall := msecs_recent_le (x := since now period) ht
  have hcount : (recent (since now period) q.elems).length =
      (msecs (recent (since now period) q.elems)).length := (List.length_map _).symm
  rw [hsize] at hle
  set l := msecs (recent (since now period) q.elems) with hl
  cases m with
  | amm =>
    have hsum : l.sum ≤ l.length * 2 ^ 50 := by simpa using List.sum_le_card_nsmul l _ hsmall
    have hfold := foldl_ammTurn (x := since now period) ht 0 1 0
    rw [hcount, ← hl, Nat.zero_add, Nat.zero_add] at hfold
    have hloop : q.loop (fun s i => ammTurn (since now period) s (q.slots i)) ⟨0, 1, 0⟩ = _ :=
      (q.loop_elems (ammTurn (since now period)) _).trans hfold
    simp only [timeQueueAverage, timeQueueAmm, hloop, checkLen_eq hlen hsize]
    rw [quotient_eq (by omega) (by omega) (by omega) id]
    rfl
  | wma =>
    have hsum : weighted 0 l ≤ 2 ^ 50 * weights 63 := by
      have hweighted := weighted_le 0 hsmall
      have hweights := Nat.mul_le_mul_left (2 ^ 50) (weights_mono hle)
      rw [Nat.zero_add] at hweighted
      omega
    have hweights : weights l.length ≤ weights 63 := weights_mono hle
    have hvalue : weights 63 = 2016 := rfl
    have hfold := foldl_wmaTurn (x := since now period) ht 0 1 0
    rw [hcount, ← hl, Nat.zero_add, Nat.zero_add] at hfold
    have hloop : q.loop (fun s i => wmaTurn (since now period) s (q.slots i)) ⟨0, 1, 0⟩ = _ :=
      (q.loop_elems (wmaTurn (since now period)) _).trans hfold
    simp only [timeQueueAverage, timeQueueWma, hloop, checkLen_eq hlen hsize]
    have hzero : l.length = 0 → weights l.length = 0 := fun h => by
      rw [h]
      rfl
    rw [triangle_ofNat (by omega), quotient_eq (by omega) (by omega) (by omega) hzero]
    rfl

theorem rtake_blank (ts : List NodeTime) :
    (blank ++ ts).rtake 63 = List.replicate (63 - ts.length) ⟨0, 0⟩ ++ ts.rtake 63 := by
  have hblank : blank.length = 63 := List.length_replicate
  have hleft : 63 - (63 + ts.length - 63) = 63 - ts.length := by omega
  have hright : 63 + ts.length - 63 - 63 = ts.length - 63 := by omega
  rw [List.rtake, List.length_append, hblank, List.drop_append, hblank, hright, List.rtake, blank,
    List.drop_replicate, hleft]

/-- **The averages are those of the last 63 requests.** However many requests were recorded, the
queue has the last 63 of them, after what it had in the beginning; either average of those that were
made within the period is what is returned, rounded down, and the queue stays as it is. It is
between the smallest and the largest of their times. -/
theorem timeQueue_average (ts : List NodeTime) (ht : ∀ t ∈ ts, Timely t) (m : Method)
    (now period : UInt64) :
    let l := msecs (recent (since now period) (ts.rtake 63))
    (recorded ts).elems = (blank ++ ts).rtake 63 ∧
      ∃ avg, timeQueueAverage m now period (recorded ts) = (avg, recorded ts) ∧
        avg.toNat = m.mean l ∧
        ∀ lo hi, l ≠ [] → (∀ n ∈ l, lo ≤ n ∧ n ≤ hi) → lo ≤ avg.toNat ∧ avg.toNat ≤ hi := by
  intro l
  obtain ⟨helems, -⟩ := recorded_elems ts
  obtain ⟨hlen, hsize⟩ := recorded_full ts
  have hl : msecs (recent (since now period) (recorded ts).elems) = l := by
    rw [helems, rtake_blank, recent_append, recent_blank, List.nil_append]
  have htimely : ∀ t ∈ (recorded ts).elems, Timely t := by
    intro t hmem
    rw [helems] at hmem
    rcases List.mem_append.mp (List.mem_of_mem_drop hmem) with hzero | hrecorded
    · obtain rfl := List.eq_of_mem_replicate hzero
      exact ⟨by decide, by decide⟩
    · exact ht t hrecorded
  have hsmall : m.mean l ≤ 2 ^ 50 := m.mean_le (hl ▸ msecs_recent_le htimely)
  have hnat : (UInt64.ofNat (m.mean l)).toNat = m.mean l := UInt64.toNat_ofNat_of_lt' (by
    change _ < 2 ^ 64
    omega)
  refine ⟨helems, UInt64.ofNat (m.mean l), hl ▸ timeQueueAverage_eq m hlen hsize htimely, hnat,
    fun lo hi hne hbounds => ?_⟩
  rw [hnat]
  exact ⟨m.le_mean hne fun n hn => (hbounds n hn).1, m.mean_le fun n hn => (hbounds n hn).2⟩

/-- Three requests. -/
def threeTimes : List NodeTime := [⟨1000, 10⟩, ⟨2000, 20⟩, ⟨3000, 60⟩]

/-- The last two of three requests, with weights 1 and 2. -/
theorem timeQueue_average_threeTimes :
    ∃ avg, timeQueueAverage .wma 4000 2500 (recorded threeTimes) = (avg, recorded threeTimes) ∧
      avg.toNat = 46 := by
  have ht : ∀ t ∈ threeTimes, Timely t := by
    intro t ht
    simp only [threeTimes, List.mem_cons, List.not_mem_nil, or_false] at ht
    rcases ht with rfl | rfl | rfl <;> exact ⟨by decide, by decide⟩
  obtain ⟨-, avg, havg, hmean, -⟩ := timeQueue_average threeTimes ht .wma 4000 2500
  exact ⟨avg, havg, hmean.trans (by decide)⟩

end NginxTools.VhostTrafficStatus
