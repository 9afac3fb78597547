import NginxTools.Core.KeyedTree
import NginxTools.LimitReq.Lookup
import NginxTools.Library.TransitionSystem
import Mathlib.Data.List.Count

/-!
# The zone of a limit

The workers of the server share, for each zone of the request limiter, a tree with a node for each
key and a queue of the nodes, the one looked up last at its head. Each of the three functions that
work on a zone holds the zone's mutex: `ngx_http_limit_req_lookup` finds the node of a key or makes
one, `ngx_http_limit_req_account` charges a node that the worker has reserved, and the handler takes
a reservation back. Before a node is made, `ngx_http_limit_req_expire` deletes from the queue's
tail:

    while (n < 3) {
        if (ngx_queue_empty(&ctx->sh->queue)) { return; }
        q = ngx_queue_last(&ctx->sh->queue);
        ...
        if (lr->count) { return; }
        if (n++ != 0) {
            ms = ngx_abs((ngx_msec_int_t) (now - lr->last));
            if (ms < 60000) { return; }
            excess = lr->excess - ctx->rate * ms / 1000;
            if (excess > 0) { return; }
        }
        ngx_queue_remove(q);
        ngx_rbtree_delete(&ctx->sh->rbtree, node);
        ngx_slab_free_locked(ctx->shpool, node);
    }

A worker keeps a pointer to a node it has reserved, outside the mutex.

## The model

`Shctx` is the zone's memory: the tree, the queue, and at each address the words of the node that is
allocated there, if any. Reading an address at which nothing is allocated is `none`, as is following
a missing link. `Slab` is the allocator, which gives out addresses that are free. The reservations
on a node are a natural number: a worker takes one for a request, and `2 ^ 64` that were never given
back are out of reach.

## What is proved

What the functions do is a sequence of `Event`s (`lookup_spec`, `account_spec`), each of which
touches one node. `Zone` adds the pointers that workers hold, and `Zone.Wf` is what every event
keeps: the tree and the queue have the same nodes, those that are allocated, and the reservations of
a node are the pointers to it.
-/

namespace NginxTools.LimitReq

open NginxTools.Library
open NginxTools.Core

/-! ### The memory -/

/-- The words of a node that change. -/
structure NodeWords extends LimitReqNode where
  /-- The reservations. -/
  count : ℕ

/-- `ngx_http_limit_req_shctx_t`, with the memory that it points into. -/
structure Shctx where
  /-- The tree, by hash and key. -/
  rbtree : RbTree KeyedNode
  /-- The addresses of the nodes, the one looked up last first. -/
  queue : List ℕ
  /-- The words of the node at an address, where one is allocated. -/
  mem : ℕ → Option NodeWords

/-- The allocator of a zone: `ngx_slab_alloc_locked`, which may fail. -/
structure Slab where
  /-- The address for as many bytes. -/
  alloc : (ℕ → Option NodeWords) → ℕ → Option ℕ
  /-- What it gives out is free. -/
  fresh : ∀ mem size a, alloc mem size = some a → mem a = none

namespace Shctx

/-- `ngx_queue_remove` and `ngx_queue_insert_head`. -/
def bump (a : ℕ) (sh : Shctx) : Shctx := { sh with queue := a :: sh.queue.erase a }

/-- The words at an address are set. -/
def write (a : ℕ) (lr : NodeWords) (sh : Shctx) : Shctx :=
  { sh with mem := Function.update sh.mem a (some lr) }

/-- A new node: `ngx_rbtree_insert` and `ngx_queue_insert_head`, with its words. -/
def insertNode (e : KeyedNode) (lr : NodeWords) (sh : Shctx) : Option Shctx := do
  let t ← Core.insert insertValue e sh.rbtree
  some ⟨t, e.addr :: sh.queue, Function.update sh.mem e.addr (some lr)⟩

/-- `ngx_queue_remove`, `ngx_rbtree_delete` and `ngx_slab_free_locked`. -/
def removeNode (a : ℕ) (sh : Shctx) : Option Shctx := do
  let t ← Core.deleteNode (fun e => decide (e.addr = a)) sh.rbtree
  some ⟨t, sh.queue.erase a, Function.update sh.mem a none⟩

end Shctx

/-! ### The functions -/

/-- The words of a node with one more request at `now`. -/
def charged (rate now : UInt64) (lr : LimitReqNode) : LimitReqNode :=
  ⟨if lookupMs now lr = 0 then lr.last else now, (lookupExcess rate now lr).toUInt64⟩

/-- The elapsed time as `expire` takes it: `ngx_abs(ms)`. -/
def expireMs (now : UInt64) (lr : LimitReqNode) : Int64 :=
  let ms := (now - lr.last).toInt64
  if 0 ≤ ms then ms else -ms

/-- The node was not updated for a minute, and has no excess left. -/
def idle (rate now : UInt64) (lr : LimitReqNode) : Bool :=
  ¬ expireMs now lr < 60000 ∧
    ¬ 0 < (lr.excess - rate * (expireMs now lr).toUInt64 / 1000).toInt64

/-- One turn of `expire`, the `n`th: what it leaves, or that it returns. -/
def expireTurn (rate now : UInt64) (n : ℕ) (sh : Shctx) : Option (Option Shctx) :=
  match sh.queue.getLast? with
  | none => some none
  | some a => do
    let lr ← sh.mem a
    if lr.count ≠ 0 then some none
    else if n ≠ 0 ∧ idle rate now lr.toLimitReqNode = false then some none
    else (sh.removeNode a).map some

/-- The turns of `expire` from the `n`th on. -/
def expireFrom (rate now : UInt64) : ℕ → ℕ → Shctx → Option Shctx
  | 0, _, sh => some sh
  | turns + 1, n, sh => do
    match ← expireTurn rate now n sh with
    | none => some sh
    | some sh' => expireFrom rate now turns (n + 1) sh'

/-- `ngx_http_limit_req_expire`. -/
def expire (rate now : UInt64) (n : ℕ) (sh : Shctx) : Option Shctx :=
  expireFrom rate now (3 - n) n sh

/-- What `ngx_http_limit_req_lookup` returns. -/
inductive LookupRc where
  | ok
  | again
  | busy
  | error
deriving DecidableEq

/-- The result of a lookup: the return code, `*ep`, and the node set in `ctx->node`, if any. -/
structure LookupResult where
  rc : LookupRc
  excess : UInt64
  node : Option ℕ

/-- A limit of a location, with its zone's rate: the numbers that a lookup uses. -/
structure Limit where
  rate : UInt64
  burst : UInt64
  delay : UInt64

/-- The part of `lookup` after the node was found. -/
def hit (limit : Limit) (now : UInt64) (account : Bool) (a : ℕ) (lr : NodeWords) (sh : Shctx) :
    LookupResult × Shctx :=
  let sh := sh.bump a
  let excess := (lookupExcess limit.rate now lr.toLimitReqNode).toUInt64
  if excess > limit.burst then (⟨.busy, excess, none⟩, sh)
  else if account then
    (⟨.ok, excess, none⟩, sh.write a ⟨charged limit.rate now lr.toLimitReqNode, lr.count⟩)
  else (⟨.again, excess, some a⟩, sh.write a ⟨lr.toLimitReqNode, lr.count + 1⟩)

/-- The words of a node that is made. -/
def newWords (now : UInt64) (account : Bool) : NodeWords :=
  if account then ⟨⟨now, 0⟩, 0⟩ else ⟨⟨0, 0⟩, 1⟩

/-- The result of a lookup that made the node at an address. -/
def madeResult (account : Bool) (a : ℕ) : LookupResult :=
  if account then ⟨.ok, 0, none⟩ else ⟨.again, 0, some a⟩

/-- The part of `lookup` after a node was allocated for the key. -/
def makeNode (now : UInt64) (hash : UInt32) (key : List UInt8) (account : Bool) (a : ℕ)
    (sh : Shctx) : Option (LookupResult × Shctx) := do
  let sh ← sh.insertNode ⟨a, hash, key⟩ (newWords now account)
  some (madeResult account a, sh)

/-- The part of `lookup` for a key that has no node. -/
def miss (limit : Limit) (slab : Slab) (now : UInt64) (hash : UInt32) (key : List UInt8)
    (account : Bool) (sh : Shctx) : Option (LookupResult × Shctx) := do
  let size := 32 + 48 + key.length
  let sh ← expire limit.rate now 1 sh
  match slab.alloc sh.mem size with
  | some a => makeNode now hash key account a sh
  | none =>
    let sh ← expire limit.rate now 0 sh
    match slab.alloc sh.mem size with
    | some a => makeNode now hash key account a sh
    | none => some (⟨.error, 0, none⟩, sh)

/-- `ngx_http_limit_req_lookup`. -/
def lookup (limit : Limit) (slab : Slab) (now : UInt64) (hash : UInt32) (key : List UInt8)
    (account : Bool) (sh : Shctx) : Option (LookupResult × Shctx) :=
  match lookupNode hash key sh.rbtree with
  | some e => do
    let lr ← sh.mem e.addr
    some (hit limit now account e.addr lr sh)
  | none => miss limit slab now hash key account sh

/-- One turn of the loop of `ngx_http_limit_req_account`, for the node at an address: the node's new
excess. -/
def accountNode (rate now : UInt64) (a : ℕ) (sh : Shctx) : Option (UInt64 × Shctx) := do
  let lr ← sh.mem a
  let lr' := charged rate now lr.toLimitReqNode
  some (lr'.excess, sh.write a ⟨lr', lr.count - 1⟩)

/-- `ctx->node->count--`. -/
def releaseNode (a : ℕ) (sh : Shctx) : Option Shctx := do
  let lr ← sh.mem a
  some (sh.write a ⟨lr.toLimitReqNode, lr.count - 1⟩)

/-! ### Events -/

/-- The zone with the pointers to its nodes that workers hold. -/
structure Zone extends Shctx where
  /-- A pointer for each reservation. -/
  held : List ℕ

/-- What is done to a node. -/
inductive Event where
  /-- It is looked up. -/
  | bump (a : ℕ)
  /-- The request that looked it up is within the burst, and is counted at once. -/
  | accept (limit : Limit) (now : UInt64) (a : ℕ)
  /-- The request that looked it up is within the burst, and reserves it. -/
  | reserve (limit : Limit) (now : UInt64) (a : ℕ)
  /-- A reservation is used: the request is counted. -/
  | charge (rate now : UInt64) (a : ℕ)
  /-- A reservation is taken back. -/
  | release (a : ℕ)
  /-- It is made, for a request that is counted at once or that reserves it. -/
  | create (e : KeyedNode) (now : UInt64) (account : Bool)
  /-- It is deleted, by force or because it is idle. -/
  | remove (rate now : UInt64) (forced : Bool) (a : ℕ)

/-- The zone after one event, where it can happen. -/
def Zone.step (z : Zone) : Event → Option Zone
  | .bump a => if a ∈ z.queue then some ⟨z.bump a, z.held⟩ else none
  | .accept limit now a => do
    let lr ← z.mem a
    if (lookupExcess limit.rate now lr.toLimitReqNode).toUInt64 > limit.burst then none
    else some ⟨z.write a ⟨charged limit.rate now lr.toLimitReqNode, lr.count⟩, z.held⟩
  | .reserve limit now a => do
    let lr ← z.mem a
    if (lookupExcess limit.rate now lr.toLimitReqNode).toUInt64 > limit.burst then none
    else some ⟨z.write a ⟨lr.toLimitReqNode, lr.count + 1⟩, a :: z.held⟩
  | .charge rate now a => do
    let (_, sh) ← accountNode rate now a z.toShctx
    if a ∈ z.held then some ⟨sh, z.held.erase a⟩ else none
  | .release a => do
    let sh ← releaseNode a z.toShctx
    if a ∈ z.held then some ⟨sh, z.held.erase a⟩ else none
  | .create e now account =>
    if z.mem e.addr = none ∧ lookupNode e.key e.data z.rbtree = none then
      (z.insertNode e (newWords now account)).map fun sh =>
        ⟨sh, if account then z.held else e.addr :: z.held⟩
    else none
  | .remove rate now forced a => do
    let lr ← z.mem a
    if z.queue.getLast? = some a ∧ lr.count = 0 ∧ (forced || idle rate now lr.toLimitReqNode) then
      (z.removeNode a).map fun sh => ⟨sh, z.held⟩
    else none

/-- A zone, from when its memory is set up. -/
def zoneSys : Sys Zone Event where
  init z := z = ⟨⟨.nil, [], fun _ => none⟩, []⟩
  step := Zone.step

/-! ### What every event keeps -/

/-- The tree, the queue and the memory have the same nodes. -/
structure Shctx.Wf (sh : Shctx) : Prop where
  tree : KeyedTree sh.rbtree
  queue : sh.queue.Perm (sh.rbtree.toList.map KeyedNode.addr)
  nodup : sh.queue.Nodup
  live : ∀ a, sh.mem a ≠ none ↔ a ∈ sh.queue

/-- In addition the reservations of a node are the pointers to it, and none points to a node that
is gone. -/
structure Zone.Wf (z : Zone) : Prop where
  sh : z.toShctx.Wf
  count : ∀ a lr, z.mem a = some lr → lr.count = z.held.count a
  held : ∀ a ∈ z.held, z.mem a ≠ none

namespace Shctx

variable {sh sh' : Shctx} {a : ℕ} {lr : NodeWords} {e : KeyedNode}

theorem Wf.addr_nodup (h : sh.Wf) : (sh.rbtree.toList.map KeyedNode.addr).Nodup :=
  h.queue.nodup_iff.mp h.nodup

theorem Wf.mem_queue_of_mem (h : sh.Wf) (he : e ∈ sh.rbtree.toList) : e.addr ∈ sh.queue :=
  h.queue.mem_iff.mpr (List.mem_map_of_mem he)

theorem Wf.exists_node (h : sh.Wf) (ha : a ∈ sh.queue) : ∃ e ∈ sh.rbtree.toList, e.addr = a :=
  List.mem_map.mp (h.queue.mem_iff.mp ha)

theorem Wf.exists_words (h : sh.Wf) (ha : a ∈ sh.queue) : ∃ lr, sh.mem a = some lr :=
  Option.ne_none_iff_exists'.mp ((h.live a).mpr ha)

theorem Wf.bump (h : sh.Wf) (ha : a ∈ sh.queue) : (sh.bump a).Wf := by
  have hperm : (a :: sh.queue.erase a).Perm sh.queue := (List.perm_cons_erase ha).symm
  refine ⟨h.tree, hperm.trans h.queue, hperm.nodup_iff.mpr h.nodup, fun b => ?_⟩
  exact (h.live b).trans hperm.mem_iff.symm

theorem Wf.write (h : sh.Wf) (ha : sh.mem a ≠ none) : (sh.write a lr).Wf := by
  refine ⟨h.tree, h.queue, h.nodup, fun b => ?_⟩
  by_cases hb : b = a
  · subst hb
    exact iff_of_true (by simp [Shctx.write]) ((h.live b).mp ha)
  · simpa [Shctx.write, Function.update_of_ne hb] using h.live b

/-- A node can be made for a key that has none, at a free address. -/
theorem Wf.insertNode (h : sh.Wf) (lr : NodeWords) (hfree : sh.mem e.addr = none)
    (hnew : lookupNode e.key e.data sh.rbtree = none) :
    ∃ t, sh.insertNode e lr = some ⟨t, e.addr :: sh.queue,
      Function.update sh.mem e.addr (some lr)⟩ ∧ t.toList.Perm (e :: sh.rbtree.toList) ∧
      Wf ⟨t, e.addr :: sh.queue, Function.update sh.mem e.addr (some lr)⟩ := by
  obtain ⟨t, ht, htree, hperm⟩ := h.tree.insert hnew
  have hnot : e.addr ∉ sh.queue := fun hmem => (h.live _).mpr hmem hfree
  refine ⟨t, by simp [Shctx.insertNode, ht], hperm, htree, ?_, ?_, fun b => ?_⟩
  · exact (h.queue.cons e.addr).trans (hperm.map _).symm
  · exact List.nodup_cons.mpr ⟨hnot, h.nodup⟩
  · by_cases hb : b = e.addr
    · subst hb
      simp
    · simpa [Function.update_of_ne hb, hb] using h.live b

/-- A node of the queue can be deleted. -/
theorem Wf.removeNode (h : sh.Wf) (ha : a ∈ sh.queue) :
    ∃ t e, sh.removeNode a = some ⟨t, sh.queue.erase a, Function.update sh.mem a none⟩ ∧
      e.addr = a ∧ sh.rbtree.toList.Perm (e :: t.toList) ∧
      Wf ⟨t, sh.queue.erase a, Function.update sh.mem a none⟩ := by
  obtain ⟨e, he, rfl⟩ := h.exists_node ha
  obtain ⟨t, ht, htree, hperm⟩ := h.tree.deleteNode h.addr_nodup he
  refine ⟨t, e, by simp [Shctx.removeNode, ht], rfl, hperm, htree, ?_, h.nodup.erase _, fun b => ?_⟩
  · have herase := (h.queue.trans (hperm.map KeyedNode.addr)).erase e.addr
    simpa using herase
  · by_cases hb : b = e.addr
    · subst hb
      simp [h.nodup.not_mem_erase]
    · simpa [Function.update_of_ne hb, List.mem_erase_of_ne hb] using h.live b

end Shctx

variable {z z' : Zone} {a : ℕ} {lr : NodeWords} {limit : Limit} {rate now : UInt64}
  {hash : UInt32} {key : List UInt8} {account crowded : Bool} {node : Option ℕ}

theorem zone_wf_init (h : zoneSys.init z) : z.Wf := by
  obtain rfl : z = _ := h
  exact ⟨⟨keyedTree_nil, by simp, List.nodup_nil, by simp⟩, by simp, by simp⟩

theorem Zone.Wf.mem_queue (h : z.Wf) (ha : z.mem a = some lr) : a ∈ z.queue :=
  (h.sh.live a).mp (by simp [ha])

/-- The words of one node are set, and pointers to it are given out or given back. -/
theorem Zone.Wf.write (h : z.Wf) {held : List ℕ} (ha : z.mem a ≠ none)
    (hcount : lr.count = held.count a) (hother : ∀ b, b ≠ a → held.count b = z.held.count b) :
    Zone.Wf ⟨z.write a lr, held⟩ := by
  refine ⟨h.sh.write ha, fun b lr' hb => ?_, fun b hb => ?_⟩
  · by_cases hba : b = a
    · subst hba
      obtain rfl : lr = lr' := by simpa [Shctx.write] using hb
      exact hcount
    · have hb' : z.mem b = some lr' := by simpa [Shctx.write, Function.update_of_ne hba] using hb
      exact (h.count b lr' hb').trans (hother b hba).symm
  · by_cases hba : b = a
    · subst hba
      simp [Shctx.write]
    · have hpos : 0 < held.count b := List.count_pos_iff.mpr hb
      rw [hother b hba] at hpos
      simpa [Shctx.write, Function.update_of_ne hba] using h.held b (List.count_pos_iff.mp hpos)

/-- A reservation of a node is used or taken back. -/
theorem Zone.Wf.unreserve (h : z.Wf) {lr' : LimitReqNode} (hlr : z.mem a = some lr) :
    Zone.Wf ⟨z.write a ⟨lr', lr.count - 1⟩, z.held.erase a⟩ := by
  refine h.write (by simp [hlr]) ?_ fun b hb => List.count_erase_of_ne hb
  rw [List.count_erase_self, ← h.count a lr hlr]

/-- A node is made, with as many reservations as it has pointers. -/
theorem Zone.Wf.create (h : z.Wf) {e : KeyedNode} {held : List ℕ} {sh : Shctx}
    (hfree : z.mem e.addr = none) (hnew : lookupNode e.key e.data z.rbtree = none)
    (hsh : z.insertNode e lr = some sh)
    (hheld : held = z.held ∧ lr.count = 0 ∨ held = e.addr :: z.held ∧ lr.count = 1) :
    Zone.Wf ⟨sh, held⟩ := by
  obtain ⟨t, ht, -, hwf⟩ := h.sh.insertNode lr hfree hnew
  obtain rfl : _ = sh := Option.some.inj (ht.symm.trans hsh)
  have hnot : e.addr ∉ z.held := fun hmem => h.held _ hmem hfree
  have hzero : z.held.count e.addr = 0 := List.count_eq_zero_of_not_mem hnot
  have hcount : lr.count = held.count e.addr := by
    rcases hheld with ⟨rfl, hc⟩ | ⟨rfl, hc⟩
    · rw [hc, hzero]
    · rw [hc, List.count_cons_self, hzero]
  have hother : ∀ b, b ≠ e.addr → held.count b = z.held.count b := by
    intro b hb
    rcases hheld with ⟨rfl, -⟩ | ⟨rfl, -⟩
    · rfl
    · exact List.count_cons_of_ne (Ne.symm hb)
  refine ⟨hwf, fun b lr' hb => ?_, fun b hb => ?_⟩
  · by_cases hbe : b = e.addr
    · subst hbe
      obtain rfl : lr = lr' := by simpa using hb
      exact hcount
    · have hb' : z.mem b = some lr' := by simpa [Function.update_of_ne hbe] using hb
      exact (h.count b lr' hb').trans (hother b hbe).symm
  · by_cases hbe : b = e.addr
    · subst hbe
      simp
    · have hpos : 0 < held.count b := List.count_pos_iff.mpr hb
      rw [hother b hbe] at hpos
      simpa [Function.update_of_ne hbe] using h.held b (List.count_pos_iff.mp hpos)

/-- A node without reservations is deleted. -/
theorem Zone.Wf.remove (h : z.Wf) {sh : Shctx} (hlr : z.mem a = some lr) (hzero : lr.count = 0)
    (hsh : z.removeNode a = some sh) : Zone.Wf ⟨sh, z.held⟩ := by
  obtain ⟨t, e, ht, rfl, -, hwf⟩ := h.sh.removeNode (h.mem_queue hlr)
  obtain rfl : _ = sh := Option.some.inj (ht.symm.trans hsh)
  have hnot : e.addr ∉ z.held := by
    rw [← List.count_eq_zero, ← h.count _ lr hlr, hzero]
  refine ⟨hwf, fun b lr' hb => ?_, fun b hb => ?_⟩
  · have hbe : b ≠ e.addr := by rintro rfl; simp at hb
    exact h.count b lr' (by simpa [Function.update_of_ne hbe] using hb)
  · have hbe : b ≠ e.addr := by rintro rfl; exact hnot hb
    simpa [Function.update_of_ne hbe] using h.held b hb

/-- **One event keeps the zone in order.** -/
theorem Zone.Wf.step (h : z.Wf) {ev : Event} (hs : z.step ev = some z') : z'.Wf := by
  cases ev with
  | bump a =>
    simp only [Zone.step, Option.ite_none_right_eq_some, Option.some.injEq] at hs
    obtain ⟨ha, rfl⟩ := hs
    exact ⟨h.sh.bump ha, h.count, h.held⟩
  | accept limit now a =>
    simp only [Zone.step, Option.bind_eq_bind, Option.bind_eq_some_iff,
      Option.ite_none_left_eq_some, Option.some.injEq] at hs
    obtain ⟨lr, hlr, -, rfl⟩ := hs
    exact h.write (by simp [hlr]) (h.count a lr hlr) fun b _ => rfl
  | reserve limit now a =>
    simp only [Zone.step, Option.bind_eq_bind, Option.bind_eq_some_iff,
      Option.ite_none_left_eq_some, Option.some.injEq] at hs
    obtain ⟨lr, hlr, -, rfl⟩ := hs
    refine h.write (by simp [hlr]) ?_ fun b hb => List.count_cons_of_ne (Ne.symm hb)
    rw [List.count_cons_self, h.count a lr hlr]
  | charge rate now a =>
    simp only [Zone.step, accountNode, Option.bind_eq_bind, Option.bind_eq_some_iff,
      Option.ite_none_right_eq_some, Option.some.injEq] at hs
    obtain ⟨_, ⟨lr, hlr, rfl⟩, -, rfl⟩ := hs
    exact h.unreserve hlr
  | release a =>
    simp only [Zone.step, releaseNode, Option.bind_eq_bind, Option.bind_eq_some_iff,
      Option.ite_none_right_eq_some, Option.some.injEq] at hs
    obtain ⟨_, ⟨lr, hlr, rfl⟩, -, rfl⟩ := hs
    exact h.unreserve hlr
  | create e now account =>
    simp only [Zone.step, Option.ite_none_right_eq_some] at hs
    obtain ⟨⟨hfree, hnew⟩, hs⟩ := hs
    obtain ⟨sh, hsh, rfl⟩ := Option.map_eq_some_iff.mp hs
    refine h.create hfree hnew hsh ?_
    cases account
    · exact .inr ⟨rfl, rfl⟩
    · exact .inl ⟨rfl, rfl⟩
  | remove rate now forced a =>
    simp only [Zone.step, Option.bind_eq_bind, Option.bind_eq_some_iff,
      Option.ite_none_right_eq_some] at hs
    obtain ⟨lr, hlr, ⟨-, hzero, -⟩, hs⟩ := hs
    obtain ⟨sh, hsh, rfl⟩ := Option.map_eq_some_iff.mp hs
    exact h.remove hlr hzero hsh

theorem Zone.run_single {ev : Event} (hs : z.step ev = some z') : zoneSys.Run Any z [ev] z' :=
  Sys.Run.single trivial hs

theorem Zone.step_of_run {C : Zone → Event → Prop} {ev : Event} (h : zoneSys.Run C z [ev] z') :
    z.step ev = some z' := by
  obtain ⟨z₁, -, hs, hnil⟩ := h.first_step
  rw [← hnil.eq_of_nil]
  exact hs

/-- **Any run of events keeps the zone in order.** -/
theorem Zone.Wf.run (h : z.Wf) {C : Zone → Event → Prop} {evs : List Event}
    (hr : zoneSys.Run C z evs z') : z'.Wf :=
  hr.invariant (fun _ _ _ _ hwf hs => hwf.step hs) h

/-! ### The node of a key -/

/-- The address of a key's node. -/
def keyNode (hash : UInt32) (key : List UInt8) (sh : Shctx) : Option ℕ :=
  (lookupNode hash key sh.rbtree).map KeyedNode.addr

section KeyNode

variable {sh sh' : Shctx} {a : ℕ} {hash hash' : UInt32} {key key' : List UInt8} {e : KeyedNode}
  {z z' : Zone} {ev : Event}

/-- The node of a key after a node is made. -/
theorem Shctx.Wf.keyNode_insertNode {lr : NodeWords} (h : sh.Wf) (hash : UInt32) (key : List UInt8)
    (hfree : sh.mem e.addr = none) (hnew : lookupNode e.key e.data sh.rbtree = none)
    (hsh : sh.insertNode e lr = some sh') :
    keyNode hash key sh' = if e.key = hash ∧ e.data = key then some e.addr
      else keyNode hash key sh := by
  obtain ⟨t, ht, hperm, hwf⟩ := h.insertNode lr hfree hnew
  obtain rfl : _ = sh' := Option.some.inj (ht.symm.trans hsh)
  unfold keyNode
  rw [h.tree.lookupNode_cons _ _ hwf.tree hperm]
  split_ifs <;> rfl

/-- The address of a key's node is one of the queue. -/
theorem Shctx.Wf.keyNode_mem (h : sh.Wf)
    (hkey : keyNode hash key sh = some a) : a ∈ sh.queue := by
  obtain ⟨e, he, rfl⟩ := Option.map_eq_some_iff.mp hkey
  exact h.mem_queue_of_mem (h.tree.lookupNode_iff.mp he).1

/-- The node of a key after a node is deleted. -/
theorem Shctx.Wf.keyNode_removeNode (h : sh.Wf) (hash : UInt32) (key : List UInt8)
    (ha : a ∈ sh.queue) (hsh : sh.removeNode a = some sh') :
    keyNode hash key sh' = if keyNode hash key sh = some a then none else keyNode hash key sh := by
  obtain ⟨t, e, ht, rfl, hperm, hwf⟩ := h.removeNode ha
  obtain rfl : _ = sh' := Option.some.inj (ht.symm.trans hsh)
  have hlookup := hwf.tree.lookupNode_cons hash key h.tree hperm
  by_cases hkey : e.key = hash ∧ e.data = key
  · obtain ⟨rfl, rfl⟩ := hkey
    rw [if_pos (by simp [keyNode, hlookup])]
    simp [keyNode, hwf.tree.lookupNode_self h.tree hperm]
  · rw [if_neg hkey] at hlookup
    unfold keyNode
    rw [hlookup, if_neg]
    intro hold
    obtain ⟨e', he', heq⟩ := Option.map_eq_some_iff.mp hold
    have hmem := hwf.mem_queue_of_mem (hwf.tree.lookupNode_iff.mp he').1
    rw [heq] at hmem
    exact h.nodup.not_mem_erase hmem

/-- A node is of one key. -/
theorem Shctx.Wf.keyNode_inj (h : sh.Wf) (hkey : keyNode hash key sh = some a)
    (hkey' : keyNode hash' key' sh = some a) : hash = hash' ∧ key = key' := by
  obtain ⟨e, he, rfl⟩ := Option.map_eq_some_iff.mp hkey
  obtain ⟨e', he', heq⟩ := Option.map_eq_some_iff.mp hkey'
  obtain ⟨hmem, rfl, rfl⟩ := h.tree.lookupNode_iff.mp he
  obtain ⟨hmem', rfl, rfl⟩ := h.tree.lookupNode_iff.mp he'
  rw [List.inj_on_of_nodup_map h.addr_nodup hmem' hmem heq]
  exact ⟨rfl, rfl⟩

/-- Only where a node is made or deleted the tree changes. -/
def Event.keepsTree : Event → Bool
  | .create _ _ _ => false
  | .remove _ _ _ _ => false
  | _ => true

theorem Zone.step_rbtree (hev : ev.keepsTree = true) (hs : z.step ev = some z') :
    z'.rbtree = z.rbtree := by
  cases ev with
  | bump b =>
    obtain ⟨-, hs⟩ := Option.ite_none_right_eq_some.mp hs
    cases hs
    rfl
  | accept limit now b =>
    obtain ⟨lr, -, hs⟩ := Option.bind_eq_some_iff.mp hs
    obtain ⟨-, hs⟩ := Option.ite_none_left_eq_some.mp hs
    cases hs
    rfl
  | reserve limit now b =>
    obtain ⟨lr, -, hs⟩ := Option.bind_eq_some_iff.mp hs
    obtain ⟨-, hs⟩ := Option.ite_none_left_eq_some.mp hs
    cases hs
    rfl
  | charge rate now b =>
    simp only [Zone.step, accountNode, Option.bind_eq_bind, Option.bind_eq_some_iff,
      Option.ite_none_right_eq_some, Option.some.injEq] at hs
    obtain ⟨_, ⟨lr, -, rfl⟩, -, rfl⟩ := hs
    rfl
  | release b =>
    simp only [Zone.step, releaseNode, Option.bind_eq_bind, Option.bind_eq_some_iff,
      Option.ite_none_right_eq_some, Option.some.injEq] at hs
    obtain ⟨_, ⟨lr, -, rfl⟩, -, rfl⟩ := hs
    rfl
  | create e now account => cases hev
  | remove rate now forced b => cases hev

theorem Zone.step_keyNode (hev : ev.keepsTree = true) (hs : z.step ev = some z') :
    keyNode hash key z'.toShctx = keyNode hash key z.toShctx := by
  unfold keyNode
  rw [Zone.step_rbtree hev hs]

/-- **A node that a worker has reserved stays the node of its key.** -/
theorem Zone.Wf.keyNode_step (h : z.Wf) (ha : a ∈ z.held)
    (hkey : keyNode hash key z.toShctx = some a) (hs : z.step ev = some z') :
    keyNode hash key z'.toShctx = some a := by
  cases ev with
  | create e now account =>
    obtain ⟨⟨hfree, hnew⟩, hs⟩ := Option.ite_none_right_eq_some.mp hs
    obtain ⟨sh, hsh, rfl⟩ := Option.map_eq_some_iff.mp hs
    rw [h.sh.keyNode_insertNode _ _ hfree hnew hsh, if_neg]
    · exact hkey
    · rintro ⟨rfl, rfl⟩
      simp [keyNode, hnew] at hkey
  | remove rate now forced b =>
    obtain ⟨lr, hlr, hs⟩ := Option.bind_eq_some_iff.mp hs
    obtain ⟨⟨-, hzero, -⟩, hs⟩ := Option.ite_none_right_eq_some.mp hs
    obtain ⟨sh, hsh, rfl⟩ := Option.map_eq_some_iff.mp hs
    rw [h.sh.keyNode_removeNode _ _ (h.mem_queue hlr) hsh, hkey, if_neg]
    rintro heq
    obtain rfl : a = b := Option.some.inj heq
    have hpos := List.count_pos_iff.mpr ha
    rw [← h.count a lr hlr, hzero] at hpos
    exact Nat.lt_irrefl 0 hpos
  | _ => exact (Zone.step_keyNode rfl hs).trans hkey

end KeyNode

/-! ### What the functions do -/

/-- The events of `expire`: deletions, the first by force when it starts at zero. -/
theorem expireFrom_spec (rate now : UInt64) (h : z.Wf) (turns n : ℕ) :
    ∃ sh evs, expireFrom rate now turns n z.toShctx = some sh ∧
      zoneSys.Run Any z evs ⟨sh, z.held⟩ ∧
      ∀ ev ∈ evs, ∃ forced b, ev = .remove rate now forced b ∧ (forced = true → n = 0) := by
  induction turns generalizing z n with
  | zero => exact ⟨_, [], rfl, .nil, by simp⟩
  | succ turns ih =>
    have hstop : ∀ (_ : expireTurn rate now n z.toShctx = some none),
        ∃ sh evs, expireFrom rate now (turns + 1) n z.toShctx = some sh ∧
          zoneSys.Run Any z evs ⟨sh, z.held⟩ ∧
          ∀ ev ∈ evs, ∃ forced b, ev = .remove rate now forced b ∧ (forced = true → n = 0) :=
      fun hturn => ⟨_, [], by simp [expireFrom, hturn], .nil, by simp⟩
    cases hlast : z.queue.getLast? with
    | none => exact hstop (by simp [expireTurn, hlast])
    | some a =>
      have ha : a ∈ z.queue := List.mem_of_getLast? hlast
      obtain ⟨lr, hlr⟩ := h.sh.exists_words ha
      by_cases hzero : lr.count = 0
      · by_cases hidle : n ≠ 0 ∧ idle rate now lr.toLimitReqNode = false
        · exact hstop (by simp [expireTurn, hlast, hlr, hzero, hidle])
        · obtain ⟨t, e, hsh, -, -, -⟩ := h.sh.removeNode ha
          have hturn : expireTurn rate now n z.toShctx = some (some
              ⟨t, z.queue.erase a, Function.update z.mem a none⟩) := by
            simp only [expireTurn, hlast, hlr, hzero, Option.bind_eq_bind, Option.bind_some, hidle,
              not_true, ↓reduceIte, hsh, ne_eq, Option.map_some]
          have hstep : z.step (.remove rate now (decide (n = 0)) a) =
              some ⟨⟨t, z.queue.erase a, Function.update z.mem a none⟩, z.held⟩ := by
            have hguard : (decide (n = 0) || idle rate now lr.toLimitReqNode) = true := by
              by_contra hno
              simp only [Bool.not_eq_true, Bool.or_eq_false_iff, decide_eq_false_iff_not] at hno
              exact hidle hno
            simp only [Zone.step, hlr, Option.bind_eq_bind, Option.bind_some, hlast, hzero,
              hguard, and_self, ↓reduceIte, hsh, Option.map_some]
          obtain ⟨sh, evs, hrest, hrun, hevs⟩ := ih (h.step hstep) (n + 1)
          refine ⟨sh, .remove rate now (decide (n = 0)) a :: evs, ?_, ?_, ?_⟩
          · simp only [expireFrom, hturn, Option.bind_eq_bind, Option.bind_some]
            exact hrest
          · exact (Zone.run_single hstep).trans hrun
          · intro ev hev
            rcases List.mem_cons.mp hev with rfl | hev
            · exact ⟨_, a, rfl, of_decide_eq_true⟩
            · obtain ⟨forced, b, rfl, hf⟩ := hevs ev hev
              exact ⟨forced, b, rfl, fun hforced => absurd (hf hforced) (Nat.succ_ne_zero n)⟩
      · exact hstop (by simp [expireTurn, hlast, hlr, hzero])

/-- A key has no node, and memory is short for one when the idle nodes have been deleted. -/
def short (rate now : UInt64) (slab : Slab) (hash : UInt32) (key : List UInt8) (sh : Shctx) :
    Bool :=
  (lookupNode hash key sh.rbtree).isNone &&
    (expire rate now 1 sh).any fun sh => (slab.alloc sh.mem (32 + 48 + key.length)).isNone

/-- Deletions, by force only where memory is short. -/
def Removals (rate now : UInt64) (crowded : Bool) (rs : List Event) : Prop :=
  ∀ ev ∈ rs, ∃ forced b, ev = .remove rate now forced b ∧ (forced = true → crowded = true)

/-- The events of a lookup of a key whose node is at an address, if anywhere, and what it
returns. -/
inductive LookupEvents (limit : Limit) (now : UInt64) (hash : UInt32) (key : List UInt8)
    (account : Bool) (node : Option ℕ) (crowded : Bool) : LookupResult → List Event → Prop where
  /-- The key's node has too much excess. -/
  | busy (excess : UInt64) (a : ℕ) :
      LookupEvents limit now hash key account node crowded ⟨.busy, excess, none⟩ [.bump a]
  /-- The request is counted. -/
  | accept (excess : UInt64) (a : ℕ) : account = true → node = some a →
      LookupEvents limit now hash key account node crowded ⟨.ok, excess, none⟩
        [.bump a, .accept limit now a]
  /-- The request reserves the node. -/
  | reserve (excess : UInt64) (a : ℕ) : account = false → node = some a →
      LookupEvents limit now hash key account node crowded ⟨.again, excess, some a⟩
        [.bump a, .reserve limit now a]
  /-- A node is made. -/
  | make {rs : List Event} (a : ℕ) : Removals limit.rate now crowded rs →
      LookupEvents limit now hash key account node crowded (madeResult account a)
        (rs ++ [.create ⟨a, hash, key⟩ now account])
  /-- There is no memory for a node. -/
  | error {rs : List Event} : Removals limit.rate now crowded rs →
      LookupEvents limit now hash key account node crowded ⟨.error, 0, none⟩ rs

/-- A deletion takes a node out of the tree. -/
theorem lookupNode_remove (h : z.Wf) {forced : Bool}
    (hnone : lookupNode hash key z.rbtree = none)
    (hs : z.step (.remove rate now forced a) = some z') :
    lookupNode hash key z'.rbtree = none := by
  simp only [Zone.step, Option.bind_eq_bind, Option.bind_eq_some_iff,
    Option.ite_none_right_eq_some] at hs
  obtain ⟨lr, hlr, -, hs⟩ := hs
  obtain ⟨sh, hsh, rfl⟩ := Option.map_eq_some_iff.mp hs
  obtain ⟨t, e, ht, rfl, hperm, hwf⟩ := h.sh.removeNode (h.mem_queue hlr)
  obtain rfl : _ = sh := Option.some.inj (ht.symm.trans hsh)
  rw [hwf.tree.lookupNode_eq_none_iff]
  intro e' he'
  exact h.sh.tree.lookupNode_eq_none_iff.mp hnone e'
    (hperm.mem_iff.mpr (List.mem_cons_of_mem _ he'))

theorem lookupNode_removes (h : z.Wf) {evs : List Event} (hrun : zoneSys.Run Any z evs z')
    (hevs : Removals rate now crowded evs) (hnone : lookupNode hash key z.rbtree = none) :
    lookupNode hash key z'.rbtree = none := by
  induction hrun with
  | nil => exact hnone
  | snoc hr _ hs ih =>
    obtain ⟨forced, b, rfl, -⟩ := hevs _ (List.mem_append_right _ List.mem_cons_self)
    exact lookupNode_remove (h.run hr)
      (ih fun ev hev => hevs ev (List.mem_append_left _ hev)) hs

theorem makeNode_spec (now : UInt64) (account : Bool) (h : z.Wf) (hfree : z.mem a = none)
    (hnew : lookupNode hash key z.rbtree = none) :
    ∃ z', makeNode now hash key account a z.toShctx = some (madeResult account a, z'.toShctx) ∧
      z.step (.create ⟨a, hash, key⟩ now account) = some z' := by
  obtain ⟨sh, hsh⟩ : ∃ sh, z.insertNode ⟨a, hash, key⟩ (newWords now account) = some sh := by
    obtain ⟨t, ht, -⟩ := h.sh.insertNode (e := ⟨a, hash, key⟩) _ hfree hnew
    exact ⟨_, ht⟩
  refine ⟨⟨sh, if account then z.held else a :: z.held⟩, by simp [makeNode, hsh], ?_⟩
  simp only [Zone.step, hfree, hnew, and_self, ↓reduceIte, hsh, Option.map_some]

/-- A lookup of a key that has no node. -/
theorem miss_spec (limit : Limit) (slab : Slab) (now : UInt64) (account : Bool) (h : z.Wf)
    (hnone : lookupNode hash key z.rbtree = none) :
    ∃ r z' evs, miss limit slab now hash key account z.toShctx = some (r, z'.toShctx) ∧
      zoneSys.Run Any z evs z' ∧
      LookupEvents limit now hash key account (keyNode hash key z.toShctx)
        (short limit.rate now slab hash key z.toShctx) r evs := by
  set crowded := short limit.rate now slab hash key z.toShctx with hcrowded
  obtain ⟨sh, evs, hexpire, hrun, hevs⟩ := expireFrom_spec limit.rate now h 2 1
  have hrs : Removals limit.rate now crowded evs := by
    intro ev hev
    obtain ⟨forced, b, rfl, hforced⟩ := hevs ev hev
    exact ⟨forced, b, rfl, fun hf => absurd (hforced hf) Nat.one_ne_zero⟩
  have hwf := h.run hrun
  have hnone' := lookupNode_removes h hrun hrs hnone
  cases halloc : slab.alloc sh.mem (32 + 48 + key.length) with
  | some a =>
    obtain ⟨z', hmake, hstep⟩ := makeNode_spec now account hwf
      (slab.fresh _ _ _ halloc) hnone'
    refine ⟨_, z', _, ?_, hrun.trans (Zone.run_single hstep), .make a hrs⟩
    simp only [miss, expire, Nat.reduceSub, hexpire, Option.bind_eq_bind, Option.bind_some, halloc]
    exact hmake
  | none =>
    obtain ⟨sh', evs', hexpire', hrun', hevs'⟩ :=
      expireFrom_spec limit.rate now hwf 3 0
    have hshort : crowded = true := by
      rw [hcrowded]
      simp only [short, expire, Nat.reduceSub, hnone, hexpire, Option.any_some, halloc,
        Option.isNone_none, Bool.and_self]
    have hrs' : Removals limit.rate now crowded evs' := by
      intro ev hev
      obtain ⟨forced, b, rfl, -⟩ := hevs' ev hev
      exact ⟨forced, b, rfl, fun _ => hshort⟩
    have hall : Removals limit.rate now crowded (evs ++ evs') := by
      intro ev hev
      exact (List.mem_append.mp hev).elim (hrs ev) (hrs' ev)
    have hmiss : miss limit slab now hash key account z.toShctx =
        match slab.alloc sh'.mem (32 + 48 + key.length) with
        | some a => makeNode now hash key account a sh'
        | none => some (⟨.error, 0, none⟩, sh') := by
      simp only [miss, expire, Nat.reduceSub, hexpire, Option.bind_eq_bind, Option.bind_some,
        halloc]
      simp only at hexpire'
      rw [hexpire']
      rfl
    cases halloc' : slab.alloc sh'.mem (32 + 48 + key.length) with
    | some a =>
      obtain ⟨z', hmake, hstep⟩ := makeNode_spec now account
        (hwf.run hrun') (slab.fresh _ _ _ halloc') (lookupNode_removes hwf hrun' hrs' hnone')
      refine ⟨_, z', _, ?_, (hrun.trans hrun').trans (Zone.run_single hstep), .make a hall⟩
      rw [hmiss, halloc']
      exact hmake
    | none =>
      refine ⟨_, _, _, ?_, hrun.trans hrun', .error hall⟩
      rw [hmiss, halloc']

/-- **A lookup is a sequence of events**, and never reads a node that is gone. -/
theorem lookup_spec (limit : Limit) (slab : Slab) (now : UInt64) (hash : UInt32)
    (key : List UInt8) (account : Bool) (h : z.Wf) :
    ∃ r z' evs, lookup limit slab now hash key account z.toShctx = some (r, z'.toShctx) ∧
      zoneSys.Run Any z evs z' ∧
      LookupEvents limit now hash key account (keyNode hash key z.toShctx)
        (short limit.rate now slab hash key z.toShctx) r evs := by
  cases hnode : lookupNode hash key z.rbtree with
  | none =>
    obtain ⟨r, z', evs, hmiss, hrun, hevs⟩ := miss_spec limit slab now account h hnode
    exact ⟨r, z', evs, by simpa [lookup, hnode] using hmiss, hrun, hevs⟩
  | some e =>
    have he := (h.sh.tree.lookupNode_iff.mp hnode).1
    have hkey : keyNode hash key z.toShctx = some e.addr := by simp [keyNode, hnode]
    have ha := h.sh.mem_queue_of_mem he
    obtain ⟨lr, hlr⟩ := h.sh.exists_words ha
    have hbump : z.step (.bump e.addr) = some ⟨z.bump e.addr, z.held⟩ := by simp [Zone.step, ha]
    have hlr' : (z.bump e.addr).mem e.addr = some lr := hlr
    have hlookup : lookup limit slab now hash key account z.toShctx =
        some (hit limit now account e.addr lr z.toShctx) := by
      simp [lookup, hnode, hlr]
    have hrun := Zone.run_single hbump
    rw [hlookup]
    set excess := (lookupExcess limit.rate now lr.toLimitReqNode).toUInt64 with hexcess
    by_cases hbusy : excess > limit.burst
    · refine ⟨_, ⟨z.bump e.addr, z.held⟩, _, ?_, hrun, .busy excess e.addr⟩
      simp only [hit, ← hexcess, hbusy, ↓reduceIte]
    · cases account with
      | true =>
        have haccept : Zone.step ⟨z.bump e.addr, z.held⟩ (.accept limit now e.addr) =
            some ⟨(z.bump e.addr).write e.addr
              ⟨charged limit.rate now lr.toLimitReqNode, lr.count⟩, z.held⟩ := by
          simp only [Zone.step, hlr', Option.bind_eq_bind, Option.bind_some, ← hexcess, hbusy,
            ↓reduceIte]
        refine ⟨_, _, _, ?_, hrun.trans (Zone.run_single haccept), .accept excess e.addr rfl hkey⟩
        simp only [hit, ← hexcess, hbusy, ↓reduceIte]
      | false =>
        have hreserve : Zone.step ⟨z.bump e.addr, z.held⟩ (.reserve limit now e.addr) =
            some ⟨(z.bump e.addr).write e.addr ⟨lr.toLimitReqNode, lr.count + 1⟩,
              e.addr :: z.held⟩ := by
          simp only [Zone.step, hlr', Option.bind_eq_bind, Option.bind_some, ← hexcess, hbusy,
            ↓reduceIte]
        refine ⟨_, _, _, ?_, hrun.trans (Zone.run_single hreserve), .reserve excess e.addr rfl hkey⟩
        simp only [hit, ← hexcess, hbusy, ↓reduceIte, Bool.false_eq_true]

/-- The pointers that are held after an event. -/
def Event.held (held : List ℕ) : Event → List ℕ
  | .reserve _ _ a => a :: held
  | .charge _ _ a => held.erase a
  | .release a => held.erase a
  | .create e _ account => if account then held else e.addr :: held
  | _ => held

theorem Zone.step_held {ev : Event} (hs : z.step ev = some z') : z'.held = ev.held z.held := by
  cases ev with
  | bump a =>
    obtain ⟨-, h⟩ := Option.ite_none_right_eq_some.mp hs
    cases h
    rfl
  | accept limit now a =>
    obtain ⟨lr, -, h⟩ := Option.bind_eq_some_iff.mp hs
    obtain ⟨-, h⟩ := Option.ite_none_left_eq_some.mp h
    cases h
    rfl
  | reserve limit now a =>
    obtain ⟨lr, -, h⟩ := Option.bind_eq_some_iff.mp hs
    obtain ⟨-, h⟩ := Option.ite_none_left_eq_some.mp h
    cases h
    rfl
  | charge rate now a =>
    obtain ⟨lr, -, h⟩ := Option.bind_eq_some_iff.mp hs
    obtain ⟨-, h⟩ := Option.ite_none_right_eq_some.mp h
    cases h
    rfl
  | release a =>
    obtain ⟨lr, -, h⟩ := Option.bind_eq_some_iff.mp hs
    obtain ⟨-, h⟩ := Option.ite_none_right_eq_some.mp h
    cases h
    rfl
  | create e now account =>
    obtain ⟨-, h⟩ := Option.ite_none_right_eq_some.mp hs
    obtain ⟨sh, -, rfl⟩ := Option.map_eq_some_iff.mp h
    rfl
  | remove rate now forced a =>
    obtain ⟨lr, -, h⟩ := Option.bind_eq_some_iff.mp hs
    obtain ⟨-, h⟩ := Option.ite_none_right_eq_some.mp h
    obtain ⟨sh, -, rfl⟩ := Option.map_eq_some_iff.mp h
    rfl

theorem Zone.run_held {C : Zone → Event → Prop} {evs : List Event}
    (hr : zoneSys.Run C z evs z') : z'.held = evs.foldl Event.held z.held := by
  induction hr with
  | nil => rfl
  | snoc _ _ hs ih => rw [Zone.step_held hs, ih, List.foldl_append, List.foldl_cons, List.foldl_nil]

theorem Removals.held {rs : List Event} (h : Removals rate now crowded rs) (held : List ℕ) :
    rs.foldl Event.held held = held := by
  induction rs with
  | nil => rfl
  | cons ev rs ih =>
    obtain ⟨forced, b, rfl, -⟩ := h ev List.mem_cons_self
    exact ih fun ev hev => h ev (List.mem_cons_of_mem _ hev)

/-- A lookup gives out the pointer that it returns. -/
theorem LookupEvents.held {r : LookupResult} {evs : List Event}
    (h : LookupEvents limit now hash key account node crowded r evs) (held : List ℕ) :
    evs.foldl Event.held held = r.node.elim held (· :: held) := by
  cases h with
  | busy excess a => rfl
  | accept excess a haccount hnode => rfl
  | reserve excess a haccount hnode => rfl
  | make a hrs =>
    rw [List.foldl_append, hrs.held]
    cases account <;> rfl
  | error hrs => exact hrs.held held

/-- Only a lookup that reserves a node returns one. -/
theorem LookupEvents.node_eq_none {r : LookupResult} {evs : List Event}
    (h : LookupEvents limit now hash key account node crowded r evs) (hrc : r.rc ≠ .again) :
    r.node = none := by
  cases h with
  | busy excess a => rfl
  | accept excess a haccount hnode => rfl
  | reserve excess a haccount hnode => exact absurd rfl hrc
  | make a hrs =>
    cases account with
    | true => rfl
    | false => exact absurd rfl hrc
  | error hrs => rfl

/-- A lookup that returns `NGX_AGAIN` reserved a node. -/
theorem LookupEvents.node_ne_none {r : LookupResult} {evs : List Event}
    (h : LookupEvents limit now hash key account node crowded r evs) (hrc : r.rc = .again) :
    r.node ≠ none := by
  cases h with
  | reserve excess a haccount hnode => exact Option.some_ne_none a
  | make a hrs =>
    cases account with
    | true => cases hrc
    | false => exact Option.some_ne_none a
  | _ => cases hrc

/-- Only the last limit's lookup counts the request. -/
theorem LookupEvents.account_of_ok {r : LookupResult} {evs : List Event}
    (h : LookupEvents limit now hash key account node crowded r evs) (hrc : r.rc = .ok) :
    account = true := by
  cases h with
  | accept excess a haccount hnode => exact haccount
  | make a hrs =>
    cases account with
    | true => rfl
    | false => cases hrc
  | _ => cases hrc

/-- A lookup takes no pointer away. -/
theorem LookupEvents.grows {r : LookupResult} {evs : List Event}
    (h : LookupEvents limit now hash key account node crowded r evs) :
    ∀ ev ∈ evs, ∀ held, held ⊆ ev.held held := by
  have hrs : ∀ {rs}, Removals limit.rate now crowded rs →
      ∀ ev ∈ rs, ∀ held, held ⊆ ev.held held := by
    intro rs hrs ev hev held
    obtain ⟨forced, b, rfl, -⟩ := hrs ev hev
    exact List.Subset.refl held
  have hcreate : ∀ e held, held ⊆ Event.held held (.create e now account) := by
    intro e held
    cases account
    · exact List.subset_cons_self ..
    · exact List.Subset.refl held
  cases h with
  | busy excess a => simp [Event.held]
  | accept excess a haccount hnode => simp [Event.held]
  | reserve excess a haccount hnode => simp [Event.held]
  | make a hremovals =>
    intro ev hev
    rcases List.mem_append.mp hev with hev | hev
    · exact hrs hremovals ev hev
    · rw [List.mem_singleton.mp hev]
      exact hcreate _
  | error hremovals => exact hrs hremovals

/-- A node that a worker has reserved stays the node of its key while nothing is taken away. -/
theorem Zone.Wf.keyNode_run (h : z.Wf) {C : Zone → Event → Prop} {evs : List Event}
    (hr : zoneSys.Run C z evs z') (hgrows : ∀ ev ∈ evs, ∀ held, held ⊆ ev.held held)
    (ha : a ∈ z.held) (hkey : keyNode hash key z.toShctx = some a) :
    keyNode hash key z'.toShctx = some a ∧ a ∈ z'.held := by
  induction hr with
  | nil => exact ⟨hkey, ha⟩
  | snoc hr _ hs ih =>
    obtain ⟨hkey', ha'⟩ := ih fun ev hev => hgrows ev (List.mem_append_left _ hev)
    refine ⟨(h.run hr).keyNode_step ha' hkey' hs, ?_⟩
    rw [Zone.step_held hs]
    exact hgrows _ (List.mem_append_right _ List.mem_cons_self) _ ha'

/-- The pointer that a lookup returns is to its key's node. -/
theorem LookupEvents.keyNode_eq (h : z.Wf) {r : LookupResult} {evs : List Event}
    (hevs : LookupEvents limit now hash key account (keyNode hash key z.toShctx) crowded r evs)
    (hr : zoneSys.Run Any z evs z') (ha : r.node = some a) :
    keyNode hash key z'.toShctx = some a := by
  cases hevs with
  | busy excess b => cases ha
  | accept excess b haccount hnode => cases ha
  | reserve excess b haccount hnode =>
    obtain rfl : b = a := Option.some.inj ha
    obtain ⟨z₁, -, hbump, hr⟩ := hr.first_step
    obtain ⟨z₂, -, hreserve, hr⟩ := hr.first_step
    obtain rfl := hr.eq_of_nil
    have hbump' : z.step (.bump b) = some z₁ := hbump
    have hreserve' : z₁.step (.reserve limit now b) = some z₂ := hreserve
    rw [Zone.step_keyNode rfl hreserve', Zone.step_keyNode rfl hbump']
    exact hnode
  | make b hrs =>
    obtain ⟨z₁, hr₁, -, hs⟩ := hr.last_step
    obtain ⟨⟨hfree, hnew⟩, hs⟩ := Option.ite_none_right_eq_some.mp hs
    obtain ⟨sh, hsh, rfl⟩ := Option.map_eq_some_iff.mp hs
    rw [(h.run hr₁).sh.keyNode_insertNode _ _ hfree hnew hsh, if_pos ⟨rfl, rfl⟩]
    cases account with
    | true => cases ha
    | false => exact ha
  | error hrs => cases ha

/-- A node that a worker holds a pointer to is charged. -/
theorem accountNode_spec (rate now : UInt64) (h : z.Wf) (ha : a ∈ z.held) :
    ∃ excess z', accountNode rate now a z.toShctx = some (excess, z'.toShctx) ∧
      z.step (.charge rate now a) = some z' := by
  obtain ⟨lr, hlr⟩ := Option.ne_none_iff_exists'.mp (h.held a ha)
  refine ⟨_, ⟨_, z.held.erase a⟩, by simp only [accountNode, hlr]; rfl, ?_⟩
  simp only [Zone.step, accountNode, hlr, Option.bind_eq_bind, Option.bind_some, ha, ↓reduceIte]

/-- A reservation is taken back. -/
theorem releaseNode_spec (h : z.Wf) (ha : a ∈ z.held) :
    ∃ z', releaseNode a z.toShctx = some z'.toShctx ∧ z.step (.release a) = some z' := by
  obtain ⟨lr, hlr⟩ := Option.ne_none_iff_exists'.mp (h.held a ha)
  refine ⟨⟨_, z.held.erase a⟩, by simp only [releaseNode, hlr]; rfl, ?_⟩
  simp only [Zone.step, releaseNode, hlr, Option.bind_eq_bind, Option.bind_some, ha, ↓reduceIte]

end NginxTools.LimitReq
