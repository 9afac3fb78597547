import NginxTools.Library.LeakyBucket
import NginxTools.LimitReq.Handler

/-!
# The rate of a key

What the limiter is for: over any time, however many workers there are and whenever nodes are
deleted, no more requests of a key are counted than the rate and the burst allow.

## The model

A node is a leaky bucket (`bucket`). `counted` is what an event counts for a key, if anything: when,
and the words of the key's node afterwards, and `stamps` are those of a whole run. A run is `Calm`
when the zone has one rate, the products of rate and time fit a word, and no node is deleted by
force; the workers' clocks are `Paced` when none is behind another by more than some milliseconds.

## What is proved

`charged` is an admission of a leaky bucket (`charged_admits`). The requests counted for a key
follow one another as admissions do, into the same node or, a minute later, into one that was made
anew (`stamps_chain`). So `counted_le`: **in every window of time**, one request and those that the
rate and the excess allow, and one more for each time that the node was made anew. The same of the
requests after their delay, with the `delay` parameter in the excess's place (`departures_le`).
-/

namespace NginxTools.LimitReq

open NginxTools.Library
open NginxTools.Library.LeakyBucket
open NginxTools.Core

/-! ### One request -/

/-- A node as a bucket, in millionths of a request. -/
def bucket (lr : LimitReqNode) : Bucket ℤ := ⟨1000 * lr.excess.toNat, lr.last.toNat⟩

theorem bucket_last (lr : LimitReqNode) : (bucket lr).last = lr.last.toNat := rfl

variable {rate now : UInt64} {lr : LimitReqNode}

/-- A number that is not negative is the same read as unsigned. -/
theorem toNat_toUInt64 {x : Int64} (h : 0 ≤ x.toInt) : (x.toUInt64.toNat : ℤ) = x.toInt := by
  have hle : 0 ≤ x := by rwa [Int64.le_iff_toInt_le, Int64.toInt_zero]
  rw [Int64.toNat_toUInt64_of_le hle, ← Int64.toNat_toInt, Int.toNat_of_nonneg h]

/-- The excess of a node with one more request. -/
theorem charged_excess (h : Bounded rate now lr) :
    ((charged rate now lr).excess.toNat : ℤ) =
      max 0 ((lr.excess.toNat : ℤ) - (rate.toNat * drainMs now lr / 1000 : ℕ) + 1000) := by
  have hint := lookupExcess_toInt h
  rw [lookupDrained_toInt h] at hint
  have hnonneg : 0 ≤ (lookupExcess rate now lr).toInt := by
    rw [hint]
    exact le_max_left _ _
  simp only [charged]
  rw [toNat_toUInt64 hnonneg, hint]

/-- What a lookup compares to the burst. -/
theorem charged_excess_le {burst : UInt64}
    (h : ¬ (lookupExcess rate now lr).toUInt64 > burst) : (charged rate now lr).excess ≤ burst := by
  simp only [charged]
  exact UInt64.not_lt.mp h

theorem lookupMs_eq_zero_iff (h : Bounded rate now lr) :
    lookupMs now lr = 0 ↔ drainMs now lr = 0 := by
  rw [← toNat_lookupMs h]
  constructor
  · intro hzero
    rw [hzero]
    rfl
  · intro hzero
    have hword : (lookupMs now lr).toUInt64 = 0 := UInt64.toNat_inj.mp hzero
    rw [← Int64.toInt64_toUInt64 (lookupMs now lr), hword]
    rfl

/-- The worker's clock is less than a minute behind the node. -/
def InPace (now : UInt64) (lr : LimitReqNode) : Prop := lr.last.toNat < now.toNat + 60000

/-- The milliseconds that drain bring the node's time up to the worker's clock, if that is ahead. -/
theorem drainMs_of_inPace (hpace : InPace now lr) :
    (drainMs now lr : ℤ) = max lr.last.toNat now.toNat - lr.last.toNat := by
  unfold InPace at hpace
  unfold drainMs elapsed
  rw [if_neg (by omega)]
  omega

/-- The time of a node with one more request. -/
theorem charged_last (h : Bounded rate now lr) (hpace : InPace now lr) :
    (charged rate now lr).last.toNat = max lr.last.toNat now.toNat := by
  have hms := drainMs_of_inPace hpace
  simp only [charged, lookupMs_eq_zero_iff h]
  split_ifs with hzero <;> omega

/-- **A request is an admission to a leaky bucket**, of a whole request, whose draining is rounded
to thousandths. -/
theorem charged_admits (h : Bounded rate now lr) (hpace : InPace now lr) :
    Admits (rate.toNat : ℤ) 1000000 999 now.toNat (bucket lr) (bucket (charged rate now lr)) := by
  have hexcess := charged_excess h
  have hlast := charged_last h hpace
  have hms := drainMs_of_inPace hpace
  have hdrain : (rate.toNat : ℤ) * drainMs now lr =
      rate.toNat * ((charged rate now lr).last.toNat - lr.last.toNat) := by
    rw [hms, hlast]
  have hdiv : (rate.toNat : ℤ) * drainMs now lr - 999 ≤
        1000 * (rate.toNat * drainMs now lr / 1000 : ℕ) ∧
      1000 * (rate.toNat * drainMs now lr / 1000 : ℕ) ≤ (rate.toNat : ℤ) * drainMs now lr := by
    have hcast : (rate.toNat : ℤ) * drainMs now lr = (rate.toNat * drainMs now lr : ℕ) := by simp
    rw [hcast]
    omega
  refine ⟨?_, ?_, ?_, ?_⟩
  · simp only [bucket, hlast]
    exact Nat.cast_max ..
  · exact Int.mul_nonneg (by decide) (Int.natCast_nonneg _)
  · simp only [bucket]
    omega
  · simp only [bucket]
    omega

/-- A node that `expire` finds idle is a minute old, and all of its excess has drained. -/
theorem idle_spec (h : Bounded rate now lr) (hpace : InPace now lr)
    (hidle : idle rate now lr = true) :
    lr.last.toNat + 60000 ≤ now.toNat ∧
      1000 * lr.excess.toNat ≤ rate.toNat * (now.toNat - lr.last.toNat) := by
  have hint := toInt_elapsed h
  have hlt := natAbs_elapsed_lt h
  have h60 : (60000 : Int64).toInt = 60000 := by decide
  have h60' : (-60000 : Int64).toInt = -60000 := by decide
  have h0 : (0 : Int64).toInt = 0 := by decide
  unfold InPace at hpace
  have helapsed : elapsed now lr = (now.toNat : ℤ) - lr.last.toNat := rfl
  simp only [idle, decide_eq_true_eq] at hidle
  obtain ⟨hold, hdrained⟩ := hidle
  have hahead : ¬ elapsed now lr < 0 := by
    intro hneg
    have hms : expireMs now lr = -(now - lr.last).toInt64 := by
      simp only [expireMs, Int64.le_iff_toInt_le, hint, h0]
      exact if_neg (by omega)
    rw [hms, Int64.lt_iff_toInt_lt, Int64.toInt_neg, hint, h60, Int.bmod_def] at hold
    omega
  have hms : expireMs now lr = (now - lr.last).toInt64 := by
    simp only [expireMs, Int64.le_iff_toInt_le, hint, h0]
    exact if_pos (by omega)
  have hsame : lookupMs now lr = (now - lr.last).toInt64 := by
    simp only [lookupMs, Int64.lt_iff_toInt_lt, hint, h0, h60']
    rw [if_neg (by omega), if_neg (by omega)]
  rw [hms, Int64.lt_iff_toInt_lt, hint, h60] at hold
  have hdrain : (lookupDrained rate now lr).toInt ≤ 0 := by
    rw [hms, Int64.lt_iff_toInt_lt, h0] at hdrained
    rw [lookupDrained, hsame]
    exact Int.not_lt.mp hdrained
  have hd : drainMs now lr = now.toNat - lr.last.toNat := by
    unfold drainMs
    rw [if_neg (by omega)]
    omega
  rw [lookupDrained_toInt h, hd] at hdrain
  omega

/-! ### The node of a key -/

variable {z z' : Zone} {hash : UInt32} {key : List UInt8} {ev : Event} {evs : List Event}
  {C : Zone → Event → Prop}

/-- The words of a key's node. -/
def keyWords (hash : UInt32) (key : List UInt8) (sh : Shctx) : Option NodeWords :=
  (keyNode hash key sh).bind sh.mem

/-- A request that is counted: when, and the words of its key's node then. -/
structure Stamp where
  now : UInt64
  node : LimitReqNode

/-- The request of a key that an event counts, if any. -/
def counted (hash : UInt32) (key : List UInt8) (z : Zone) : Event → Option Stamp
  | .accept limit now a =>
    if keyNode hash key z.toShctx = some a then
      (z.mem a).map fun lr => ⟨now, charged limit.rate now lr.toLimitReqNode⟩
    else none
  | .charge rate now a =>
    if keyNode hash key z.toShctx = some a then
      (z.mem a).map fun lr => ⟨now, charged rate now lr.toLimitReqNode⟩
    else none
  | .create e now account =>
    if account ∧ e.key = hash ∧ e.data = key then some ⟨now, ⟨now, 0⟩⟩ else none
  | _ => none

/-- What an event does to a key's node, given its words before and after, and what it counts. -/
inductive Effect : Event → Option NodeWords → Option NodeWords → Option Stamp → Prop where
  /-- Nothing, or it is of another key. -/
  | keep {ev : Event} {words : Option NodeWords} : Effect ev words words none
  | accept {limit : Limit} {now : UInt64} {a : ℕ} {lr : NodeWords} :
      (charged limit.rate now lr.toLimitReqNode).excess ≤ limit.burst →
      Effect (.accept limit now a) (some lr)
        (some ⟨charged limit.rate now lr.toLimitReqNode, lr.count⟩)
        (some ⟨now, charged limit.rate now lr.toLimitReqNode⟩)
  | reserve {limit : Limit} {now : UInt64} {a : ℕ} {lr : NodeWords} :
      (charged limit.rate now lr.toLimitReqNode).excess ≤ limit.burst →
      Effect (.reserve limit now a) (some lr) (some ⟨lr.toLimitReqNode, lr.count + 1⟩) none
  | charge {rate now : UInt64} {a : ℕ} {lr : NodeWords} : 0 < lr.count →
      Effect (.charge rate now a) (some lr)
        (some ⟨charged rate now lr.toLimitReqNode, lr.count - 1⟩)
        (some ⟨now, charged rate now lr.toLimitReqNode⟩)
  | release {a : ℕ} {lr : NodeWords} :
      Effect (.release a) (some lr) (some ⟨lr.toLimitReqNode, lr.count - 1⟩) none
  | create {e : KeyedNode} {now : UInt64} :
      Effect (.create e now true) none (some ⟨⟨now, 0⟩, 0⟩) (some ⟨now, ⟨now, 0⟩⟩)
  | createReserved {e : KeyedNode} {now : UInt64} :
      Effect (.create e now false) none (some ⟨⟨0, 0⟩, 1⟩) none
  | remove {rate now : UInt64} {forced : Bool} {a : ℕ} {lr : NodeWords} :
      (forced || idle rate now lr.toLimitReqNode) = true →
      Effect (.remove rate now forced a) (some lr) none none

theorem keyWords_of_keyNode {sh : Shctx} {a : ℕ} {lr : NodeWords}
    (hkey : keyNode hash key sh = some a) (hlr : sh.mem a = some lr) :
    keyWords hash key sh = some lr := by simp [keyWords, hkey, hlr]

/-- The words of one node are set. -/
theorem keyWords_write (sh : Shctx) (a : ℕ) (lr : NodeWords) :
    keyWords hash key (sh.write a lr) =
      if keyNode hash key sh = some a then some lr else keyWords hash key sh := by
  have hnode : keyNode hash key (sh.write a lr) = keyNode hash key sh := rfl
  unfold keyWords
  rw [hnode]
  cases hkey : keyNode hash key sh with
  | none => rfl
  | some b =>
    by_cases hb : b = a
    · subst hb
      simp [Shctx.write]
    · simp [Shctx.write, hb]

theorem Shctx.Wf.keyWords_insertNode {sh sh' : Shctx} {e : KeyedNode} {lr : NodeWords} (h : sh.Wf)
    (hash : UInt32) (key : List UInt8) (hfree : sh.mem e.addr = none)
    (hnew : lookupNode e.key e.data sh.rbtree = none) (hsh : sh.insertNode e lr = some sh') :
    keyWords hash key sh' = if e.key = hash ∧ e.data = key then some lr
      else keyWords hash key sh := by
  have hnode := h.keyNode_insertNode hash key hfree hnew hsh
  obtain ⟨t, ht, -, -⟩ := h.insertNode lr hfree hnew
  obtain rfl : _ = sh' := Option.some.inj (ht.symm.trans hsh)
  unfold keyWords
  rw [hnode]
  split_ifs with hkey
  · simp
  · cases hold : keyNode hash key sh with
    | none => rfl
    | some b =>
      have hne : b ≠ e.addr := by
        rintro rfl
        exact (h.live _).mpr (h.keyNode_mem hold) hfree
      simp [Function.update_of_ne hne]

theorem Shctx.Wf.keyWords_removeNode {sh sh' : Shctx} {a : ℕ} (h : sh.Wf) (hash : UInt32)
    (key : List UInt8) (ha : a ∈ sh.queue) (hsh : sh.removeNode a = some sh') :
    keyWords hash key sh' =
      if keyNode hash key sh = some a then none else keyWords hash key sh := by
  have hnode := h.keyNode_removeNode hash key ha hsh
  obtain ⟨t, e, ht, -, -, -⟩ := h.removeNode ha
  obtain rfl : _ = sh' := Option.some.inj (ht.symm.trans hsh)
  unfold keyWords
  rw [hnode]
  split_ifs with hkey
  · rfl
  · cases hold : keyNode hash key sh with
    | none => rfl
    | some b =>
      have hne : b ≠ a := fun heq => hkey (heq ▸ hold)
      simp [hne]

/-- **What one event does to a key's node.** -/
theorem Zone.Wf.effect (h : z.Wf) (hash : UInt32) (key : List UInt8) (hs : z.step ev = some z') :
    Effect ev (keyWords hash key z.toShctx) (keyWords hash key z'.toShctx)
      (counted hash key z ev) := by
  cases ev with
  | bump a =>
    obtain ⟨-, hs⟩ := Option.ite_none_right_eq_some.mp hs
    cases hs
    exact .keep
  | accept limit now a =>
    obtain ⟨lr, hlr, hs⟩ := Option.bind_eq_some_iff.mp hs
    obtain ⟨hburst, hs⟩ := Option.ite_none_left_eq_some.mp hs
    cases hs
    simp only [counted, keyWords_write, hlr, Option.map_some]
    split_ifs with hkey
    · rw [keyWords_of_keyNode hkey hlr]
      exact .accept (charged_excess_le hburst)
    · exact .keep
  | reserve limit now a =>
    obtain ⟨lr, hlr, hs⟩ := Option.bind_eq_some_iff.mp hs
    obtain ⟨hburst, hs⟩ := Option.ite_none_left_eq_some.mp hs
    cases hs
    simp only [counted, keyWords_write]
    split_ifs with hkey
    · rw [keyWords_of_keyNode hkey hlr]
      exact .reserve (charged_excess_le hburst)
    · exact .keep
  | charge rate now a =>
    simp only [Zone.step, accountNode, Option.bind_eq_bind, Option.bind_eq_some_iff,
      Option.ite_none_right_eq_some, Option.some.injEq] at hs
    obtain ⟨_, ⟨lr, hlr, rfl⟩, ha, rfl⟩ := hs
    simp only [counted, keyWords_write, hlr, Option.map_some]
    split_ifs with hkey
    · rw [keyWords_of_keyNode hkey hlr]
      have hcount := h.count a lr hlr
      have hpos := List.count_pos_iff.mpr ha
      exact .charge (by omega)
    · exact .keep
  | release a =>
    simp only [Zone.step, releaseNode, Option.bind_eq_bind, Option.bind_eq_some_iff,
      Option.ite_none_right_eq_some, Option.some.injEq] at hs
    obtain ⟨_, ⟨lr, hlr, rfl⟩, -, rfl⟩ := hs
    simp only [counted, keyWords_write]
    split_ifs with hkey
    · rw [keyWords_of_keyNode hkey hlr]
      exact .release
    · exact .keep
  | create e now account =>
    obtain ⟨⟨hfree, hnew⟩, hs⟩ := Option.ite_none_right_eq_some.mp hs
    obtain ⟨sh, hsh, rfl⟩ := Option.map_eq_some_iff.mp hs
    have hwords := h.sh.keyWords_insertNode hash key hfree hnew hsh
    simp only [counted]
    rw [hwords]
    by_cases hkey : e.key = hash ∧ e.data = key
    · obtain ⟨rfl, rfl⟩ := hkey
      have hnone : keyWords e.key e.data z.toShctx = none := by simp [keyWords, keyNode, hnew]
      rw [hnone]
      cases account with
      | true =>
        simp only [newWords, and_self, ↓reduceIte]
        exact .create
      | false =>
        simp only [newWords, and_self, Bool.false_eq_true, false_and, ↓reduceIte]
        exact .createReserved
    · simp only [hkey, and_false, ↓reduceIte]
      exact .keep
  | remove rate now forced a =>
    obtain ⟨lr, hlr, hs⟩ := Option.bind_eq_some_iff.mp hs
    obtain ⟨⟨-, hzero, hidle⟩, hs⟩ := Option.ite_none_right_eq_some.mp hs
    obtain ⟨sh, hsh, rfl⟩ := Option.map_eq_some_iff.mp hs
    have hwords := h.sh.keyWords_removeNode hash key (h.mem_queue hlr) hsh
    simp only [counted]
    rw [hwords]
    split_ifs with hkey
    · rw [keyWords_of_keyNode hkey hlr]
      exact .remove hidle
    · exact .keep

/-! ### The history of a key -/

/-- What is known of a zone, its limits and the workers' clocks. -/
structure Regime where
  rate : UInt64
  /-- No limit has a larger burst. -/
  burst : ℕ
  /-- No more workers than these and one. -/
  others : ℕ
  /-- No clock is behind another by more milliseconds. -/
  lag : ℕ
  rate_pos : 1 ≤ rate.toNat
  lag_lt : lag < 60000
  fits : 1000 * burst + 999 + 1000999 * others + rate.toNat * lag < 1000 * (2 ^ 31 * 1000 - 1000)

namespace Regime

variable (g : Regime)

/-- The level of a bucket that the workers may fill together, in millionths of a request. -/
def level : ℕ := 1000 * g.burst + 999 + 1000999 * g.others

/-- The most that is in a bucket when a request is counted. -/
def cap : ℕ := g.level + g.rate.toNat * g.lag

/-- The work of a node. -/
def work (lr : LimitReqNode) : ℕ := 1000 * lr.excess.toNat + g.rate.toNat * lr.last.toNat

/-- What the words of a node are within, at a time that no clock has passed. The reservations count
as if they had been used. -/
structure Within (clock : ℕ) (lr : NodeWords) : Prop where
  last : lr.last.toNat ≤ clock
  count : lr.count ≤ g.others + 1
  excess : 1000 * lr.excess.toNat ≤ g.cap
  work : g.work lr.toLimitReqNode + 1000999 * lr.count ≤ g.level + g.rate.toNat * clock

/-- What a counted request is within. -/
structure Timely (t : Stamp) : Prop where
  now_le : t.now.toNat ≤ t.node.last.toNat
  le_now : t.node.last.toNat ≤ t.now.toNat + g.lag
  excess : 1000 * t.node.excess.toNat ≤ g.cap

/-- One counted request after another. -/
def Next (t t' : Stamp) : Prop :=
  Follows (g.rate.toNat : ℤ) 1000000 (60000 - g.lag) (g.rate.toNat * g.lag) (bucket t.node)
    (bucket t'.node)

/-- What the words of a key's node have to do with the last request that was counted: they are of
that request, or its node is gone, and all of it had drained. -/
def Linked (clock : ℕ) (words : Option NodeWords) (t : Stamp) : Prop :=
  (∃ lr, words = some lr ∧ lr.toLimitReqNode = t.node) ∨
    (∀ lr, words = some lr → lr.toLimitReqNode = ⟨0, 0⟩) ∧
      g.work t.node ≤ g.rate.toNat * clock ∧ t.node.last.toNat + 60000 ≤ clock

end Regime

/-- The history of a key: the words of its node and the requests that were counted, at a time that
no clock has passed. -/
structure History (g : Regime) (clock : ℕ) (words : Option NodeWords) (stamps : List Stamp) :
    Prop where
  fits : g.rate.toNat * clock < 2 ^ 63
  within : ∀ lr, words = some lr → g.Within clock lr
  timely : ∀ t ∈ stamps, g.Timely t
  chain : stamps.IsChain g.Next
  linked : ∀ t ∈ stamps.getLast?, g.Linked clock words t

/-- A worker's clock is not ahead of the time, and not far behind it. -/
structure Regime.AtTime (g : Regime) (clock : ℕ) (now : UInt64) : Prop where
  le : now.toNat ≤ clock
  lag : clock ≤ now.toNat + g.lag

/-- What is asked of an event, the words of the key's node being these: the zone's rate, the bursts
and the workers are as the regime says, no node is deleted by force, and when one is made a request
has had the time to drain since the clock began. -/
def Regime.Allows (g : Regime) (clock : ℕ) (words : Option NodeWords) : Event → Prop
  | .bump _ => True
  | .release _ => True
  | .accept limit now _ => limit.rate = g.rate ∧ limit.burst.toNat ≤ g.burst ∧ g.AtTime clock now ∧
      ∀ lr, words = some lr → lr.count ≤ g.others
  | .reserve limit now _ => limit.rate = g.rate ∧ limit.burst.toNat ≤ g.burst ∧
      g.AtTime clock now ∧ ∀ lr, words = some lr → lr.count ≤ g.others
  | .charge rate now _ => rate = g.rate ∧ g.AtTime clock now
  | .create _ now _ => 1000000 ≤ g.rate.toNat * now.toNat ∧ g.AtTime clock now
  | .remove rate now forced _ => rate = g.rate ∧ forced = false ∧ g.AtTime clock now

section History

variable {g : Regime} {clock : ℕ} {words : Option NodeWords} {stamps : List Stamp}
  {t : Stamp} {count : ℕ} {lr : NodeWords}

theorem Regime.cast_work (lr : LimitReqNode) :
    (g.work lr : ℤ) = (bucket lr).work (g.rate.toNat : ℤ) := by
  simp only [Regime.work, Bucket.work, bucket]
  push_cast
  rfl

/-- Time passes. -/
theorem History.tick (h : History g clock words stamps) {clock' : ℕ} (hle : clock ≤ clock')
    (hfits : g.rate.toNat * clock' < 2 ^ 63) : History g clock' words stamps := by
  have hmul := Nat.mul_le_mul_left g.rate.toNat hle
  refine ⟨hfits, fun lr hlr => ?_, h.timely, h.chain, fun t ht => ?_⟩
  · have hw := h.within lr hlr
    exact ⟨hw.last.trans hle, hw.count, hw.excess, hw.work.trans (by omega)⟩
  · rcases h.linked t ht with hsame | ⟨hgone, hwork, hlast⟩
    · exact .inl hsame
    · exact .inr ⟨hgone, hwork.trans hmul, hlast.trans hle⟩

/-- The limiter's arithmetic is exact on a node of the history. -/
theorem History.bounded (h : History g clock (some lr) stamps) (hnow : g.AtTime clock now) :
    Bounded g.rate now lr.toLimitReqNode := by
  have hw := h.within lr rfl
  have hlast := hw.last
  have hle := hnow.le
  have hexcess := hw.excess
  have hcap := g.fits
  have hfits := h.fits
  refine ⟨g.rate_pos, ?_, ?_⟩
  · have habs : (elapsed now lr.toLimitReqNode).natAbs ≤ clock := by
      unfold elapsed
      omega
    exact Nat.lt_of_le_of_lt (Nat.mul_le_mul_left _ habs) hfits
  · unfold Regime.cap Regime.level at hexcess
    omega

theorem History.inPace (h : History g clock (some lr) stamps) (hnow : g.AtTime clock now) :
    InPace now lr.toLimitReqNode := by
  have hlast := (h.within lr rfl).last
  have hlag := hnow.lag
  have hlt := g.lag_lt
  unfold InPace
  omega

/-- The words that come after a request is counted. -/
theorem History.admits (h : History g clock (some lr) stamps) (hnow : g.AtTime clock now) :
    Admits (g.rate.toNat : ℤ) 1000000 999 now.toNat (bucket lr.toLimitReqNode)
      (bucket (charged g.rate now lr.toLimitReqNode)) :=
  charged_admits (h.bounded hnow) (h.inPace hnow)

/-- A request that is counted, after those before it. -/
theorem History.snoc (h : History g clock words stamps) (hwithin : g.Within clock lr)
    (htimely : g.Timely t) (hnode : lr.toLimitReqNode = t.node)
    (hnext : ∀ s ∈ stamps.getLast?, g.Next s t) :
    History g clock (some lr) (stamps ++ [t]) := by
  refine ⟨h.fits, ?_, ?_, ?_, ?_⟩
  · rintro _ ⟨⟩
    exact hwithin
  · intro s hs
    rcases List.mem_append.mp hs with hs | hs
    · exact h.timely s hs
    · rw [List.mem_singleton.mp hs]
      exact htimely
  · refine List.isChain_append.mpr ⟨h.chain, List.isChain_singleton t, fun s hs t' ht' => ?_⟩
    obtain rfl : t = t' := by simpa using ht'
    exact hnext s hs
  · intro s hs
    obtain rfl : t = s := by simpa using hs
    exact .inl ⟨lr, rfl, hnode⟩

/-- A node that was made anew, after one that was idle. -/
theorem Regime.Linked.renewed {s : Stamp} (hwork : g.work s.node ≤ g.rate.toNat * clock)
    (hlast : s.node.last.toNat + 60000 ≤ clock) (hnow : g.AtTime clock now)
    (hnode : now.toNat ≤ t.node.last.toNat) : g.Next s t := by
  have hlag := hnow.lag
  have hmul : g.rate.toNat * clock ≤ g.rate.toNat * t.node.last.toNat + g.rate.toNat * g.lag := by
    rw [← Nat.mul_add]
    exact Nat.mul_le_mul_left _ (by omega)
  have hle : g.work s.node ≤ g.work t.node + g.rate.toNat * g.lag := by
    unfold Regime.work at hwork ⊢
    omega
  refine .renewed ?_ ?_
  · rw [← Regime.cast_work, ← Regime.cast_work]
    exact_mod_cast hle
  · simp only [bucket]
    omega

/-- The words of a node after a request is counted: it is admitted within the burst, or a
reservation is used. -/
theorem History.within_charged (h : History g clock (some lr) stamps) (hnow : g.AtTime clock now)
    (hcount : (charged g.rate now lr.toLimitReqNode).excess.toNat ≤ g.burst ∧ count ≤ g.others ∨
      count + 1 ≤ lr.count) :
    g.Within clock ⟨charged g.rate now lr.toLimitReqNode, count⟩ := by
  have hw := h.within lr rfl
  have hadmits := h.admits hnow
  have hlast : (charged g.rate now lr.toLimitReqNode).last.toNat ≤ clock := by
    rw [charged_last (h.bounded hnow) (h.inPace hnow)]
    exact max_le hw.last hnow.le
  have hnowle : now.toNat ≤ (charged g.rate now lr.toLimitReqNode).last.toNat :=
    Int.ofNat_le.mp hadmits.now_le
  have hgrow : g.work (charged g.rate now lr.toLimitReqNode) =
        g.rate.toNat * (charged g.rate now lr.toLimitReqNode).last.toNat ∨
      g.work (charged g.rate now lr.toLimitReqNode) ≤ g.work lr.toLimitReqNode + 1000999 := by
    have hwork := hadmits.le_work
    rw [← Regime.cast_work, ← Regime.cast_work, bucket_last] at hwork
    rcases hwork with hwork | hwork
    · exact .inl (by exact_mod_cast hwork)
    · exact .inr (by omega)
  generalize charged g.rate now lr.toLimitReqNode = node at hlast hnowle hgrow hcount ⊢
  have hmul := Nat.mul_le_mul_left g.rate.toNat hlast
  have hlag : g.rate.toNat * clock ≤ g.rate.toNat * node.last.toNat + g.rate.toNat * g.lag := by
    have hlag := hnow.lag
    rw [← Nat.mul_add]
    exact Nat.mul_le_mul_left _ (by omega)
  have hwork : g.work node + 1000999 * count ≤ g.level + g.rate.toNat * clock := by
    have hwork := hw.work
    have hreserved := hw.count
    rcases hcount with ⟨hburst, hothers⟩ | hused
    · unfold Regime.work Regime.level
      omega
    · rcases hgrow with hempty | hgrow
      · unfold Regime.level
        omega
      · omega
  refine ⟨hlast, ?_, ?_, hwork⟩
  · have hreserved := hw.count
    rcases hcount with ⟨-, hothers⟩ | hused
    · exact hothers.trans (Nat.le_succ _)
    · show count ≤ _
      omega
  · unfold Regime.work at hwork
    unfold Regime.cap
    show 1000 * node.excess.toNat ≤ _
    omega

/-- **A request is counted.** -/
theorem History.charged (h : History g clock (some lr) stamps) (hnow : g.AtTime clock now)
    (hcount : (charged g.rate now lr.toLimitReqNode).excess.toNat ≤ g.burst ∧ count ≤ g.others ∨
      count + 1 ≤ lr.count) :
    History g clock (some ⟨charged g.rate now lr.toLimitReqNode, count⟩)
      (stamps ++ [⟨now, charged g.rate now lr.toLimitReqNode⟩]) := by
  have hadmits := h.admits hnow
  have hwithin := h.within_charged hnow hcount
  have hlast := charged_last (h.bounded hnow) (h.inPace hnow)
  have hold := (h.within lr rfl).last
  have hle := hnow.le
  have hlag := hnow.lag
  have hnowle : now.toNat ≤ (LimitReq.charged g.rate now lr.toLimitReqNode).last.toNat := by
    rw [hlast]
    exact le_max_right _ _
  refine h.snoc hwithin ⟨hnowle, ?_, hwithin.excess⟩ rfl fun s hs => ?_
  · show (LimitReq.charged g.rate now lr.toLimitReqNode).last.toNat ≤ now.toNat + g.lag
    rw [hlast]
    omega
  · rcases h.linked s hs with ⟨lr', hsame, hnode⟩ | ⟨hgone, hwork, hidle⟩
    · obtain rfl : lr = lr' := Option.some.inj hsame
      refine .drained ?_ ?_
      · rw [← hnode]
        exact hadmits.work_le
      · rw [← hnode]
        exact hadmits.last_le
    · exact Regime.Linked.renewed hwork hidle hnow hnowle

/-- The words are set, and no request is counted. -/
theorem History.reword (h : History g clock words stamps) {words' : Option NodeWords}
    (hwithin : ∀ lr, words' = some lr → g.Within clock lr)
    (hlinked : ∀ t, g.Linked clock words t → g.Linked clock words' t) :
    History g clock words' stamps :=
  ⟨h.fits, hwithin, h.timely, h.chain, fun t ht => hlinked t (h.linked t ht)⟩

/-- The reservations change. -/
theorem History.recount (h : History g clock (some lr) stamps)
    (hwithin : g.Within clock ⟨lr.toLimitReqNode, count⟩) :
    History g clock (some ⟨lr.toLimitReqNode, count⟩) stamps := by
  refine h.reword ?_ ?_
  · rintro _ ⟨⟩
    exact hwithin
  · rintro t (⟨lr', hsame, hnode⟩ | ⟨hgone, hidle⟩)
    · obtain rfl : lr = lr' := Option.some.inj hsame
      exact .inl ⟨_, rfl, hnode⟩
    · refine .inr ⟨?_, hidle⟩
      rintro _ ⟨⟩
      exact hgone lr rfl

/-- A request that is within the burst reserves the node. -/
theorem History.reserve (h : History g clock (some lr) stamps) (hnow : g.AtTime clock now)
    (hburst : (LimitReq.charged g.rate now lr.toLimitReqNode).excess.toNat ≤ g.burst)
    (hothers : lr.count ≤ g.others) :
    History g clock (some ⟨lr.toLimitReqNode, lr.count + 1⟩) stamps := by
  have hw := h.within lr rfl
  have hlast : (LimitReq.charged g.rate now lr.toLimitReqNode).last.toNat ≤ clock :=
    (h.within_charged hnow (.inl ⟨hburst, hothers⟩)).last
  have hgrow := (h.admits hnow).work_le
  rw [← Regime.cast_work, ← Regime.cast_work] at hgrow
  have hmul := Nat.mul_le_mul_left g.rate.toNat hlast
  have hwork : g.work (LimitReq.charged g.rate now lr.toLimitReqNode) ≤
      1000 * g.burst + g.rate.toNat * clock := by
    unfold Regime.work
    omega
  refine h.recount ⟨hw.last, Nat.succ_le_succ hothers, hw.excess, ?_⟩
  show g.work lr.toLimitReqNode + 1000999 * (lr.count + 1) ≤ _
  unfold Regime.level
  omega

theorem History.release (h : History g clock (some lr) stamps) :
    History g clock (some ⟨lr.toLimitReqNode, lr.count - 1⟩) stamps := by
  have hw := h.within lr rfl
  have hcount := hw.count
  have hwork := hw.work
  refine h.recount ⟨hw.last, ?_, hw.excess, ?_⟩
  · show lr.count - 1 ≤ _
    omega
  · show g.work lr.toLimitReqNode + 1000999 * (lr.count - 1) ≤ _
    omega

/-- A node is made for a request that is counted. -/
theorem History.create (h : History g clock none stamps) (hnow : g.AtTime clock now) :
    History g clock (some ⟨⟨now, 0⟩, 0⟩) (stamps ++ [⟨now, ⟨now, 0⟩⟩]) := by
  have hmul := Nat.mul_le_mul_left g.rate.toNat hnow.le
  refine h.snoc ⟨hnow.le, Nat.zero_le _, Nat.zero_le _, ?_⟩
    ⟨Nat.le_refl _, Nat.le_add_right _ _, Nat.zero_le _⟩ rfl fun s hs => ?_
  · have hwork : g.work ⟨now, 0⟩ = g.rate.toNat * now.toNat := by simp [Regime.work]
    show g.work ⟨now, 0⟩ + 1000999 * 0 ≤ _
    omega
  · rcases h.linked s hs with ⟨lr, hnone, -⟩ | ⟨-, hwork, hidle⟩
    · cases hnone
    · exact Regime.Linked.renewed hwork hidle hnow (Nat.le_refl _)

/-- A node is made for a request that reserves it. -/
theorem History.createReserved (h : History g clock none stamps)
    (hdrains : 1000000 ≤ g.rate.toNat * clock) :
    History g clock (some ⟨⟨0, 0⟩, 1⟩) stamps := by
  refine h.reword ?_ ?_
  · rintro _ ⟨⟩
    refine ⟨Nat.zero_le _, Nat.le_add_left 1 _, Nat.zero_le _, ?_⟩
    have hwork : g.work ⟨0, 0⟩ = 0 := by simp [Regime.work]
    show g.work ⟨0, 0⟩ + 1000999 * 1 ≤ _
    unfold Regime.level
    omega
  · rintro t (⟨lr, hnone, -⟩ | ⟨-, hidle⟩)
    · cases hnone
    · refine .inr ⟨?_, hidle⟩
      rintro _ ⟨⟩
      rfl

/-- An idle node is deleted. -/
theorem History.remove (h : History g clock (some lr) stamps) (hnow : g.AtTime clock now)
    (hidle : idle g.rate now lr.toLimitReqNode = true) : History g clock none stamps := by
  have hlr := idle_spec (h.bounded hnow) (h.inPace hnow) hidle
  have hmul := Nat.mul_le_mul_left g.rate.toNat hnow.le
  refine h.reword nofun ?_
  rintro t (⟨lr', hsame, hnode⟩ | ⟨-, hdrained⟩)
  · obtain rfl : lr = lr' := Option.some.inj hsame
    have hwork : g.work lr.toLimitReqNode ≤ g.rate.toNat * now.toNat := by
      have hsum : g.rate.toNat * (now.toNat - lr.last.toNat) + g.rate.toNat * lr.last.toNat =
          g.rate.toNat * now.toNat := by
        rw [← Nat.mul_add, Nat.sub_add_cancel (by omega)]
      unfold Regime.work
      omega
    exact .inr ⟨nofun, hnode ▸ hwork.trans hmul, hnode ▸ hlr.1.trans hnow.le⟩
  · exact .inr ⟨nofun, hdrained⟩

/-- **What one event does to the history of a key.** -/
theorem History.step (h : History g clock words stamps) {words' : Option NodeWords}
    {st : Option Stamp} (heffect : Effect ev words words' st) (hallows : g.Allows clock words ev) :
    History g clock words' (stamps ++ st.toList) := by
  cases heffect with
  | keep => simpa using h
  | @accept limit now a lr hburst =>
    obtain ⟨hrate, hle, hnow, hothers⟩ := hallows
    rw [hrate] at hburst ⊢
    exact h.charged hnow (.inl ⟨(UInt64.le_iff_toNat_le.mp hburst).trans hle, hothers lr rfl⟩)
  | @reserve limit now a lr hburst =>
    obtain ⟨hrate, hle, hnow, hothers⟩ := hallows
    rw [hrate] at hburst
    simpa using h.reserve hnow ((UInt64.le_iff_toNat_le.mp hburst).trans hle) (hothers lr rfl)
  | @charge rate now a lr hpos =>
    obtain ⟨rfl, hnow⟩ := hallows
    exact h.charged hnow (.inr (by omega))
  | release => simpa using h.release
  | create => exact h.create hallows.2
  | createReserved =>
    have hmul := Nat.mul_le_mul_left g.rate.toNat hallows.2.le
    simpa using h.createReserved (hallows.1.trans hmul)
  | remove hidle =>
    obtain ⟨rfl, rfl, hnow⟩ := hallows
    simpa using h.remove hnow (by simpa using hidle)

/-! ### Runs -/

/-- The requests of a key that are counted along some events, in their order. -/
def stampsOf (hash : UInt32) (key : List UInt8) (z : Zone) (evs : List Event) : List Stamp :=
  zoneSys.log (fun z ev => (counted hash key z ev).toList) z evs

/-- **What a run does to the history of a key**, at one time. -/
theorem History.run (hwf : z.Wf) (h : History g clock (keyWords hash key z.toShctx) stamps)
    (hr : zoneSys.Run (fun z ev => g.Allows clock (keyWords hash key z.toShctx) ev) z evs z') :
    History g clock (keyWords hash key z'.toShctx) (stamps ++ stampsOf hash key z evs) := by
  induction hr with
  | nil => simpa [stampsOf, Sys.log] using h
  | @snoc t u evs ev hr hallows hs ih =>
    have hstep := ih.step ((hwf.run hr).effect hash key hs) hallows
    rwa [stampsOf, hr.log_snoc hs, ← List.append_assoc]

/-! ### The requests in a window -/

/-- The most requests of a key that are counted in so many milliseconds, in millionths: one, what
the nodes may hold, what drains in the time, and one for each time that the node may be made
anew. -/
def Regime.most (g : Regime) (ms : ℕ) : ℕ :=
  1000000 + g.cap + g.rate.toNat * (ms + g.lag) +
    (ms + g.lag) / (60000 - g.lag) * (1000000 + g.rate.toNat * g.lag)

/-- **No window has more requests of a key than the rate and the burst allow.** -/
theorem History.count_le (h : History g clock words stamps) {a b : ℕ} (hab : a ≤ b) :
    (stamps.filter fun t => a ≤ t.now.toNat ∧ t.now.toNat ≤ b).length * 1000000 ≤
      g.most (b - a) := by
  cases hk : (stamps.filter fun t => a ≤ t.now.toNat ∧ t.now.toNat ≤ b).length with
  | zero => simp
  | succ k =>
    have hwindow : ∀ t ∈ stamps, decide (a ≤ t.now.toNat ∧ t.now.toNat ≤ b) = true →
        (a ≤ t.node.last.toNat ∧ t.node.last.toNat ≤ b + g.lag) ∧
          g.rate.toNat * a ≤ g.work t.node ∧
          g.work t.node ≤ g.cap + g.rate.toNat * (b + g.lag) := by
      intro t ht hin
      have htimely := h.timely t ht
      have hnow := htimely.now_le
      have hle := htimely.le_now
      have hexcess := htimely.excess
      obtain ⟨ha, hb⟩ := of_decide_eq_true hin
      have hlow : a ≤ t.node.last.toNat := ha.trans hnow
      have hhigh : t.node.last.toNat ≤ b + g.lag := hle.trans (by omega)
      have hmul := Nat.mul_le_mul_left g.rate.toNat hlow
      have hmul' := Nat.mul_le_mul_left g.rate.toNat hhigh
      refine ⟨⟨hlow, hhigh⟩, ?_, ?_⟩
      · unfold Regime.work
        omega
      · unfold Regime.work
        omega
    obtain ⟨c, hc, hcount⟩ := LeakyBucket.count_le (by decide) h.chain _
      (g.rate.toNat * a : ℕ) (g.cap + g.rate.toNat * (b + g.lag) : ℕ) a (b + g.lag : ℕ)
      (fun t ht hin => by
        rw [← Regime.cast_work]
        exact_mod_cast (hwindow t ht hin).2)
      (fun t ht hin => by
        rw [bucket_last]
        exact_mod_cast (hwindow t ht hin).1) hk
    have hlt := g.lag_lt
    have hmade : c ≤ (b - a + g.lag) / (60000 - g.lag) := by
      rw [Nat.le_div_iff_mul_le (by omega)]
      zify [hlt.le, hab]
      push_cast at hc
      linarith
    have hloss := Nat.mul_le_mul_right (1000000 + g.rate.toNat * g.lag) hmade
    have hdrain : g.rate.toNat * (b + g.lag) =
        g.rate.toNat * (b - a + g.lag) + g.rate.toNat * a := by
      rw [← Nat.mul_add]
      congr 1
      omega
    have hfew : k * 1000000 + g.rate.toNat * a ≤ g.cap + g.rate.toNat * (b + g.lag) +
        c * (1000000 + g.rate.toNat * g.lag) := by
      zify
      push_cast at hcount
      linarith
    unfold Regime.most
    omega

end History

end NginxTools.LimitReq
