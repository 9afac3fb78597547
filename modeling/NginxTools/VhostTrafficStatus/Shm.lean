import NginxTools.Core.KeyedTree
import NginxTools.VhostTrafficStatus.Key

/-!
# The shared memory of the traffic status module

All workers account their requests in one tree of nodes, under the mutex of its zone. A worker keeps
for each location the node it used last of each group, to save the way through the tree, and tells
whether it is the one it looks for by the hash alone:

    if (vtscf->node_caches[type] != NULL) {
        if (vtscf->node_caches[type]->key == hash) {
            node = vtscf->node_caches[type];
            goto found;
        }
    }

    node = ngx_http_vhost_traffic_status_node_lookup(ctx->rbtree, key, hash);

A key that has no node gets one. If the nodes of filters are limited, and there are as many as are
allowed, the one that was used longest ago is deleted before.

## The model

`Shm` is the zone's memory with the pointers that the workers keep; following a pointer to memory
that is not allocated is `none`. What the allocators give is given: of the zone the memory at an
address, with what was in it before, or none; of the request's pool whether there is memory for the
counts that `find_lru` takes (where there is none, it finds no node). `Setup` has the hash function,
and which keys of filters are counted against the limit. The walks over the tree read the nodes that
are in it, which are always allocated.

## What is proved

What the functions keep is `Shm.Wf`: the tree has the nodes that are allocated, each under the hash
of its key. What accounting a request does is said once (`Accounted`, `shmAddNode_cases`). **It
fails only where the pointer that is kept is to memory that is free** (`shmAddNode_eq_none_iff`).
-/

namespace NginxTools.VhostTrafficStatus

open NginxTools.Library
open NginxTools.Core

/-! ### The memory -/

/-- A node in memory, with its key's hash. -/
structure Cell extends TrafficNode where
  /-- `node->key`. -/
  key : UInt32

/-- The zone, and the pointers to its nodes that workers keep for each location and group. -/
structure Shm (ω ℓ : Type) where
  rbtree : RbTree KeyedNode
  /-- The node at an address, where one is allocated. -/
  mem : ℕ → Option Cell
  /-- `vtscf->node_caches[type]`, of a worker's location. -/
  nodeCaches : ω × ℓ × Group → Option ℕ
  /-- The mutex was left locked. -/
  locked : Bool

/-- What the functions are run with. -/
structure Setup where
  /-- `ngx_crc32_short`. -/
  crc32 : List UInt8 → UInt32
  /-- `ctx->filter_max_node`. -/
  filterMaxNode : ℕ
  /-- `ngx_http_vhost_traffic_status_filter_max_node_match` of the key of a node. -/
  maxNodeMatch : List UInt8 → Bool

/-- What `ngx_slab_alloc_locked` gives. -/
inductive Alloc where
  /-- The memory at an address, with what was there. -/
  | slot (a : ℕ) (raw : TrafficNode)
  /-- There is none. -/
  | full
  /-- There is none, nor in the request's pool for the message that says so. -/
  | fullTwice

variable {ω ℓ : Type}

namespace Shm

/-- The node at an address is set. -/
def write (a : ℕ) (c : Cell) (s : Shm ω ℓ) : Shm ω ℓ :=
  { s with mem := Function.update s.mem a (some c) }

/-- A pointer is kept. -/
def cacheNode [DecidableEq ω] [DecidableEq ℓ] (k : ω × ℓ × Group) (node : Option ℕ)
    (s : Shm ω ℓ) : Shm ω ℓ :=
  { s with nodeCaches := Function.update s.nodeCaches k node }

/-- `ngx_rbtree_insert`, of a node at an address that is free. -/
def insertNode (e : KeyedNode) (v : TrafficNode) (s : Shm ω ℓ) : Option (Shm ω ℓ) := do
  let t ← Core.insert insertValue e s.rbtree
  some { s with rbtree := t, mem := Function.update s.mem e.addr (some ⟨v, e.key⟩) }

/-- `ngx_rbtree_delete` and `ngx_slab_free_locked`. -/
def removeNode (a : ℕ) (s : Shm ω ℓ) : Option (Shm ω ℓ) := do
  let t ← Core.deleteNode (fun e => decide (e.addr = a)) s.rbtree
  some { s with rbtree := t, mem := Function.update s.mem a none }

end Shm

/-! ### The functions -/

/-- `ngx_http_vhost_traffic_status_find_node`, through the pointer that is kept. -/
def findNode (k : ω × ℓ × Group) (key : List UInt8) (hash : UInt32) (s : Shm ω ℓ) :
    Option (Option ℕ) :=
  let found := (lookupNode hash key s.rbtree).map KeyedNode.addr
  match s.nodeCaches k with
  | some a => do
    let c ← s.mem a
    some (if c.key = hash then some a else found)
  | none => some found

/-- A node of the tree is one of a filter that is counted. -/
def counted (e : Setup) (s : Shm ω ℓ) (x : KeyedNode) : Bool :=
  match s.mem x.addr with
  | some c => c.upstreamType = .fg ∧ e.maxNodeMatch x.data
  | none => false

/-- `ngx_http_vhost_traffic_status_shm_info_node`: `filter_used_node`. -/
def shmInfoNode (p : KeyedNode → Bool) (t : RbTree KeyedNode) : ℕ :=
  t.walk (fun n x => if p x then n + 1 else n) 0

/-- When a node was used last. -/
def lastTime (v : TrafficNode) : UInt64 :=
  (v.requestTimes.slots (timeQueueRear v.requestTimes)).time

/-- `ngx_http_vhost_traffic_status_find_lru_node_cmp`. -/
def findLruNodeCmp (mem : ℕ → Option Cell) (a : Option ℕ) (b : ℕ) : Option ℕ :=
  match a with
  | none => some b
  | some a =>
    match mem a, mem b with
    | some av, some bv =>
      if av.requestTimes.front = av.requestTimes.rear then some a
      else if bv.requestTimes.front = bv.requestTimes.rear then some b
      else if lastTime av.toTrafficNode < lastTime bv.toTrafficNode then some a
      else some b
    | _, _ => some a

/-- `ngx_http_vhost_traffic_status_find_lru_node`. -/
def findLruNode (mem : ℕ → Option Cell) (p : KeyedNode → Bool) (t : RbTree KeyedNode) : Option ℕ :=
  t.walk (fun a x => if p x then findLruNodeCmp mem a x.addr else a) none

/-- `ngx_http_vhost_traffic_status_find_lru`, where there is memory for `shm_info` or not. -/
def findLru (e : Setup) (info : Bool) (s : Shm ω ℓ) : Option ℕ :=
  if e.filterMaxNode = 0 then none
  else if info = false then none
  else if shmInfoNode (counted e s) s.rbtree ≥ e.filterMaxNode then
    findLruNode s.mem (counted e s) s.rbtree
  else none

/-- "delete lru node". -/
def deleteLru (e : Setup) (info : Bool) (s : Shm ω ℓ) : Option (Shm ω ℓ) :=
  match findLru e info s with
  | some a => s.removeNode a
  | none => some s

/-- The bytes of a key that a node keeps: `(u_short) key->len` of them. -/
def stored (key : List UInt8) : List UInt8 := key.take (key.length % 2 ^ 16)

/-- `ngx_http_vhost_traffic_status_shm_add_node`, in a worker's location. `info` says whether the
request's pool has memory for `find_lru`. -/
def shmAddNode [DecidableEq ω] [DecidableEq ℓ] (e : Setup) (w : ω) (l : ℓ) (key : List UInt8)
    (type : Group) (r : Access) (info : Bool) (alloc : Alloc) (s : Shm ω ℓ) :
    Option (Shm ω ℓ) :=
  if key = [] then some s
  else do
    let hash := e.crc32 key
    match ← findNode (w, l, type) key hash s with
    | some a => do
      let c ← s.mem a
      let s := s.write a ⟨nextAccess type c.toTrafficNode r, c.key⟩
      some (s.cacheNode (w, l, type) (some a))
    | none => do
      let s ← deleteLru e info s
      match alloc with
      | .slot a raw =>
        if s.mem a = none then do
          let s ← s.insertNode ⟨a, hash, stored key⟩ (firstAccess type r raw)
          some (s.cacheNode (w, l, type) (some a))
        else none
      | .full => some s
      | .fullTwice => some { s with locked := true }

/-- The limits and the variables read a node: `ngx_http_vhost_traffic_status_limit_handler_traffic`
keeps the pointer if there is a node, `ngx_http_vhost_traffic_status_node_variable` in any case. -/
def readNode [DecidableEq ω] [DecidableEq ℓ] (e : Setup) (w : ω) (l : ℓ) (key : List UInt8)
    (type : Group) (always : Bool) (s : Shm ω ℓ) : Option (Shm ω ℓ) := do
  let node ← findNode (w, l, type) key (e.crc32 key) s
  some (if node.isSome ∨ always then s.cacheNode (w, l, type) node else s)

/-- `ngx_http_vhost_traffic_status_dump_restore_add_node`. -/
def dumpRestoreAddNode (e : Setup) (ov : TrafficNode) (key : List UInt8) (alloc : Alloc)
    (s : Shm ω ℓ) : Option (Shm ω ℓ) :=
  if key = [] then some s
  else
    let hash := e.crc32 key
    match lookupNode hash key s.rbtree with
    | some _ => some s
    | none =>
      match alloc with
      | .slot a _ => if s.mem a = none then s.insertNode ⟨a, hash, stored key⟩ ov else none
      | _ => some s

/-! ### What every function keeps -/

/-- The tree has the nodes that are allocated, each under the hash of its key. -/
structure Shm.Wf (e : Setup) (s : Shm ω ℓ) : Prop where
  tree : KeyedTree s.rbtree
  nodup : (s.rbtree.toList.map KeyedNode.addr).Nodup
  live : ∀ a, s.mem a ≠ none ↔ a ∈ s.rbtree.toList.map KeyedNode.addr
  key : ∀ x ∈ s.rbtree.toList, ∀ c, s.mem x.addr = some c → c.key = x.key
  hashed : ∀ x ∈ s.rbtree.toList, x.key = e.crc32 x.data

variable {e : Setup} {s s' : Shm ω ℓ} {a : ℕ} {c : Cell} {x : KeyedNode} {k : ω × ℓ × Group}
  {w : ω} {l : ℓ} {key : List UInt8} {hash : UInt32} {type : Group} {r : Access} {info : Bool}
  {alloc : Alloc}

theorem Shm.Wf.exists_node (h : s.Wf e) (ha : s.mem a ≠ none) :
    ∃ x ∈ s.rbtree.toList, x.addr = a := List.mem_map.mp ((h.live a).mp ha)

theorem Shm.Wf.exists_cell (h : s.Wf e) (hx : x ∈ s.rbtree.toList) :
    ∃ c, s.mem x.addr = some c :=
  Option.ne_none_iff_exists'.mp ((h.live _).mpr (List.mem_map_of_mem hx))

/-- A node of the tree is the one at its address. -/
theorem Shm.Wf.eq_of_addr (h : s.Wf e) {y : KeyedNode} (hx : x ∈ s.rbtree.toList)
    (hy : y ∈ s.rbtree.toList) (haddr : x.addr = y.addr) : x = y :=
  List.inj_on_of_nodup_map h.nodup hx hy haddr

/-- A node is set, its key apart. -/
theorem Shm.Wf.write (h : s.Wf e) (hc : s.mem a = some c) (v : TrafficNode) :
    (s.write a ⟨v, c.key⟩).Wf e := by
  refine ⟨h.tree, h.nodup, fun b => ?_, fun x hx c' hc' => ?_, h.hashed⟩
  · refine Iff.trans ?_ (h.live b)
    by_cases hb : b = a
    · subst hb
      exact iff_of_true (by simp [Shm.write]) (by simp [hc])
    · simp [Shm.write, Function.update_of_ne hb]
  · by_cases hxa : x.addr = a
    · subst hxa
      obtain rfl : _ = c' := by simpa [Shm.write] using hc'
      exact h.key x hx c hc
    · exact h.key x hx c' (by simpa [Shm.write, Function.update_of_ne hxa] using hc')

/-- A node is made for a key that has none, at an address that is free. -/
theorem Shm.Wf.insertNode (h : s.Wf e) (v : TrafficNode) (hfree : s.mem x.addr = none)
    (hnew : lookupNode x.key x.data s.rbtree = none) (hhash : x.key = e.crc32 x.data) :
    ∃ t, s.insertNode x v = some { s with
        rbtree := t, mem := Function.update s.mem x.addr (some ⟨v, x.key⟩) } ∧
      t.toList.Perm (x :: s.rbtree.toList) ∧
      Shm.Wf e { s with rbtree := t, mem := Function.update s.mem x.addr (some ⟨v, x.key⟩) } := by
  obtain ⟨t, ht, htree, hperm⟩ := h.tree.insert hnew
  have hnot : x.addr ∉ s.rbtree.toList.map KeyedNode.addr := fun hmem => (h.live _).mpr hmem hfree
  have haddrs := hperm.map KeyedNode.addr
  refine ⟨t, by simp [Shm.insertNode, ht], hperm, htree, ?_, fun b => ?_, ?_, ?_⟩
  · exact haddrs.nodup_iff.mpr (List.nodup_cons.mpr ⟨hnot, h.nodup⟩)
  · rw [haddrs.mem_iff, List.map_cons, List.mem_cons]
    by_cases hb : b = x.addr
    · subst hb
      simp
    · simpa [Function.update_of_ne hb, hb] using h.live b
  · intro y hy c' hc'
    rcases List.mem_cons.mp (hperm.mem_iff.mp hy) with rfl | hy
    · obtain rfl : _ = c' := by simpa using hc'
      rfl
    · have hne : y.addr ≠ x.addr := fun heq => hnot (heq ▸ List.mem_map_of_mem hy)
      exact h.key y hy c' (by simpa [Function.update_of_ne hne] using hc')
  · intro y hy
    rcases List.mem_cons.mp (hperm.mem_iff.mp hy) with rfl | hy
    · exact hhash
    · exact h.hashed y hy

/-- A node of the tree is deleted. -/
theorem Shm.Wf.removeNode (h : s.Wf e) (ha : s.mem a ≠ none) :
    ∃ t x, s.removeNode a =
        some { s with rbtree := t, mem := Function.update s.mem a none } ∧ x.addr = a ∧
      s.rbtree.toList.Perm (x :: t.toList) ∧
      Shm.Wf e { s with rbtree := t, mem := Function.update s.mem a none } := by
  obtain ⟨x, hx, rfl⟩ := h.exists_node ha
  obtain ⟨t, ht, htree, hperm⟩ := h.tree.deleteNode h.nodup hx
  have haddrs := hperm.map KeyedNode.addr
  have hnodup := haddrs.nodup_iff.mp h.nodup
  rw [List.map_cons, List.nodup_cons] at hnodup
  refine ⟨t, x, by simp [Shm.removeNode, ht], rfl, hperm, htree, hnodup.2, fun b => ?_, ?_, ?_⟩
  · have hlive := h.live b
    rw [haddrs.mem_iff, List.map_cons, List.mem_cons] at hlive
    by_cases hb : b = x.addr
    · subst hb
      exact iff_of_false (by simp) hnodup.1
    · simpa [Function.update_of_ne hb, hb] using hlive
  · intro y hy c' hc'
    have hne : y.addr ≠ x.addr := fun heq => hnodup.1 (heq ▸ List.mem_map_of_mem hy)
    exact h.key y (hperm.mem_iff.mpr (List.mem_cons_of_mem _ hy)) c'
      (by simpa [Function.update_of_ne hne] using hc')
  · exact fun y hy => h.hashed y (hperm.mem_iff.mpr (List.mem_cons_of_mem _ hy))

/-! ### Following a pointer -/

/-- A pointer that is kept is to a node. -/
def Shm.Live (s : Shm ω ℓ) (k : ω × ℓ × Group) : Prop :=
  ∀ a, s.nodeCaches k = some a → s.mem a ≠ none

/-- A node is found through the pointer or in the tree, if the pointer is to a node. -/
theorem findNode_spec (k : ω × ℓ × Group) (key : List UInt8) (hash : UInt32) (h : s.Live k) :
    (∃ a c, s.nodeCaches k = some a ∧ s.mem a = some c ∧ c.key = hash ∧
        findNode k key hash s = some (some a)) ∨
      findNode k key hash s = some ((lookupNode hash key s.rbtree).map KeyedNode.addr) := by
  unfold findNode
  cases hk : s.nodeCaches k with
  | none => exact .inr rfl
  | some a =>
    obtain ⟨c, hc⟩ := Option.ne_none_iff_exists'.mp (h a hk)
    by_cases hhash : c.key = hash
    · exact .inl ⟨a, c, rfl, hc, hhash, by simp [hc, hhash]⟩
    · exact .inr (by simp [hc, hhash])

/-- The pointer is followed first: it must not be to memory that is free. -/
theorem findNode_eq_none_iff : findNode k key hash s = none ↔ ¬ s.Live k := by
  unfold findNode Shm.Live
  cases hk : s.nodeCaches k with
  | none => simp
  | some a => cases hc : s.mem a <;> simp [hc]

/-- What is found is a node. -/
theorem Shm.Wf.cell_of_findNode (h : s.Wf e) (hfind : findNode k key hash s = some (some a)) :
    ∃ c, s.mem a = some c ∧ c.key = hash := by
  have hlive : s.Live k := by
    by_contra hnot
    rw [findNode_eq_none_iff.mpr hnot] at hfind
    simp at hfind
  rcases findNode_spec k key hash hlive with ⟨b, c, -, hc, hhash, hb⟩ | hfound
  · rw [hfind] at hb
    obtain rfl : a = b := by simpa using hb
    exact ⟨c, hc, hhash⟩
  · rw [hfind, Option.some.injEq, eq_comm, Option.map_eq_some_iff] at hfound
    obtain ⟨x, hx, rfl⟩ := hfound
    obtain ⟨hmem, rfl, -⟩ := h.tree.lookupNode_iff.mp hx
    obtain ⟨c, hc⟩ := h.exists_cell hmem
    exact ⟨c, hc, h.key x hmem c hc⟩

/-! ### Deleting the node that was used longest ago -/

theorem shmInfoNode_eq (p : KeyedNode → Bool) (t : RbTree KeyedNode) :
    shmInfoNode p t = (t.preorder.filter p).length := by
  have hfold : ∀ (l : List KeyedNode) (n : ℕ),
      l.foldl (fun n x => if p x then n + 1 else n) n = n + (l.filter p).length := by
    intro l
    induction l with
    | nil => exact fun n => rfl
    | cons x l ih =>
      intro n
      rw [List.foldl_cons, ih]
      by_cases hx : p x
      · rw [if_pos hx, List.filter_cons_of_pos hx, List.length_cons]
        omega
      · rw [if_neg hx, List.filter_cons_of_neg hx]
  rw [shmInfoNode, RbTree.walk_eq, hfold, Nat.zero_add]

theorem findLruNode_eq (mem : ℕ → Option Cell) (p : KeyedNode → Bool) (t : RbTree KeyedNode) :
    findLruNode mem p t =
      ((t.preorder.filter p).map KeyedNode.addr).foldl (findLruNodeCmp mem) none := by
  rw [findLruNode, RbTree.walk_eq, List.foldl_map, List.foldl_filter]

/-- The comparison takes one of the two. -/
theorem findLruNodeCmp_cases (mem : ℕ → Option Cell) (a : Option ℕ) (b : ℕ) :
    findLruNodeCmp mem a b = a ∧ a ≠ none ∨ findLruNodeCmp mem a b = some b := by
  cases a with
  | none => exact .inr rfl
  | some a =>
    simp only [findLruNodeCmp]
    split
    · split_ifs <;> simp
    · simp

theorem foldl_findLruNodeCmp_mem {mem : ℕ → Option Cell} {l : List ℕ} {a : Option ℕ} {b : ℕ}
    (h : l.foldl (findLruNodeCmp mem) a = some b) : a = some b ∨ b ∈ l := by
  induction l generalizing a with
  | nil => exact .inl h
  | cons x l ih =>
    rw [List.foldl_cons] at h
    rcases ih h with hcmp | hmem
    · rcases findLruNodeCmp_cases mem a x with ⟨heq, -⟩ | heq
      · exact .inl (heq ▸ hcmp)
      · rw [heq, Option.some.injEq] at hcmp
        exact .inr (hcmp ▸ List.mem_cons_self)
    · exact .inr (List.mem_cons_of_mem _ hmem)

/-- The node that is deleted is one of the tree that is counted. -/
theorem findLru_mem (h : findLru e info s = some a) :
    ∃ x ∈ s.rbtree.toList, x.addr = a ∧ counted e s x = true := by
  unfold findLru at h
  split_ifs at h
  rw [findLruNode_eq] at h
  rcases foldl_findLruNodeCmp_mem h with hnone | hmem
  · simp at hnone
  · obtain ⟨x, hx, rfl⟩ := List.mem_map.mp hmem
    obtain ⟨hx, hcounted⟩ := List.mem_filter.mp hx
    exact ⟨x, (RbTree.preorder_perm _).mem_iff.mp hx, rfl, hcounted⟩

theorem mem_ne_none_of_counted (h : counted e s x = true) : s.mem x.addr ≠ none := by
  intro hnone
  simp [counted, hnone] at h

/-- Either no node is deleted, or the one that `find_lru` has found. -/
theorem Shm.Wf.deleteLru_cases (h : s.Wf e) :
    findLru e info s = none ∧ deleteLru e info s = some s ∨
      ∃ a t x, findLru e info s = some a ∧
        deleteLru e info s = some { s with rbtree := t, mem := Function.update s.mem a none } ∧
        x.addr = a ∧ counted e s x = true ∧ s.rbtree.toList.Perm (x :: t.toList) ∧
        Shm.Wf e { s with rbtree := t, mem := Function.update s.mem a none } := by
  unfold deleteLru
  cases hlru : findLru e info s with
  | none => exact .inl ⟨rfl, rfl⟩
  | some a =>
    obtain ⟨y, hy, rfl, hcounted⟩ := findLru_mem hlru
    obtain ⟨t, x, ht, haddr, hperm, hwf⟩ := h.removeNode (mem_ne_none_of_counted hcounted)
    obtain rfl : x = y := h.eq_of_addr (hperm.mem_iff.mpr List.mem_cons_self) hy haddr
    exact .inr ⟨x.addr, t, x, rfl, ht, rfl, hcounted, hperm, hwf⟩

/-! ### Accounting a request -/

theorem lookupNode_of_findNode (h : findNode k key hash s = some none) :
    lookupNode hash key s.rbtree = none := by
  unfold findNode at h
  cases hk : s.nodeCaches k with
  | none => simpa [hk] using h
  | some a =>
    cases hc : s.mem a with
    | none => simp [hk, hc] at h
    | some c =>
      simp only [hk, hc, Option.bind_eq_bind, Option.bind_some, Option.some.injEq] at h
      split_ifs at h
      simpa using h

/-- A key that has no node has none after one was deleted. -/
theorem Shm.Wf.lookupNode_deleteLru {s₁ : Shm ω ℓ} (h : s.Wf e) (h₁ : deleteLru e info s = some s₁)
    (hnone : lookupNode hash key s.rbtree = none) :
    s₁.Wf e ∧ lookupNode hash key s₁.rbtree = none := by
  rcases h.deleteLru_cases with ⟨-, heq⟩ | ⟨a, t, x, -, heq, -, -, hperm, hwf⟩
  · obtain rfl := Option.some.inj (heq.symm.trans h₁)
    exact ⟨h, hnone⟩
  · obtain rfl := Option.some.inj (heq.symm.trans h₁)
    refine ⟨hwf, hwf.tree.lookupNode_eq_none_iff.mpr fun y hy => ?_⟩
    exact h.tree.lookupNode_eq_none_iff.mp hnone y (hperm.mem_iff.mpr (List.mem_cons_of_mem _ hy))

theorem stored_of_short (h : key.length < 2 ^ 16) : stored key = key := by
  rw [stored, Nat.mod_eq_of_lt h, List.take_length]

/-- A node can be made for a key that was not found. -/
theorem Shm.Wf.made {s₁ : Shm ω ℓ} (h : s.Wf e) (hshort : key.length < 2 ^ 16)
    (hfind : findNode k key (e.crc32 key) s = some none) (hlru : deleteLru e info s = some s₁)
    (hfree : s₁.mem a = none) (v : TrafficNode) :
    ∃ t, s₁.insertNode ⟨a, e.crc32 key, stored key⟩ v = some { s₁ with
        rbtree := t, mem := Function.update s₁.mem a (some ⟨v, e.crc32 key⟩) } ∧
      t.toList.Perm (⟨a, e.crc32 key, key⟩ :: s₁.rbtree.toList) ∧
      Shm.Wf e { s₁ with
        rbtree := t, mem := Function.update s₁.mem a (some ⟨v, e.crc32 key⟩) } := by
  obtain ⟨hwf, hnone⟩ := h.lookupNode_deleteLru hlru (lookupNode_of_findNode hfind)
  rw [stored_of_short hshort]
  exact hwf.insertNode (x := ⟨a, e.crc32 key, key⟩) v hfree hnone rfl

variable [DecidableEq ω] [DecidableEq ℓ]

theorem Shm.Wf.cacheNode (h : s.Wf e) (k : ω × ℓ × Group) (node : Option ℕ) :
    (s.cacheNode k node).Wf e := ⟨h.tree, h.nodup, h.live, h.key, h.hashed⟩

@[simp] theorem nodeCaches_cacheNode_self (s : Shm ω ℓ) (k : ω × ℓ × Group) (node : Option ℕ) :
    (s.cacheNode k node).nodeCaches k = node := Function.update_self _ _ _

theorem nodeCaches_cacheNode_of_ne {k' : ω × ℓ × Group} (s : Shm ω ℓ) (node : Option ℕ)
    (h : k' ≠ k) : (s.cacheNode k node).nodeCaches k' = s.nodeCaches k' :=
  Function.update_of_ne h _ _

/-- What accounting a request under a key does, by where its node is. -/
inductive Accounted (e : Setup) (w : ω) (l : ℓ) (key : List UInt8) (type : Group) (r : Access)
    (info : Bool) (s s' : Shm ω ℓ) : Alloc → Prop where
  /-- It has a node: the request is added. -/
  | found {alloc : Alloc} (a : ℕ) (c : Cell) :
    findNode (w, l, type) key (e.crc32 key) s = some (some a) → s.mem a = some c →
    s' = (s.write a ⟨nextAccess type c.toTrafficNode r, c.key⟩).cacheNode (w, l, type) (some a) →
    Accounted e w l key type r info s s' alloc
  /-- It has none: one is made, where another one may have been deleted. -/
  | made (a : ℕ) (raw : TrafficNode) (s₁ s₂ : Shm ω ℓ) :
    findNode (w, l, type) key (e.crc32 key) s = some none → deleteLru e info s = some s₁ →
    s₁.mem a = none →
    s₁.insertNode ⟨a, e.crc32 key, stored key⟩ (firstAccess type r raw) = some s₂ →
    s' = s₂.cacheNode (w, l, type) (some a) → Accounted e w l key type r info s s' (.slot a raw)
  /-- There is no memory for one. -/
  | full (s₁ : Shm ω ℓ) :
    findNode (w, l, type) key (e.crc32 key) s = some none → deleteLru e info s = some s₁ → s' = s₁ →
    Accounted e w l key type r info s s' .full
  /-- Nor for the message that says so: the mutex stays locked. -/
  | fullTwice (s₁ : Shm ω ℓ) :
    findNode (w, l, type) key (e.crc32 key) s = some none → deleteLru e info s = some s₁ →
    s' = { s₁ with locked := true } → Accounted e w l key type r info s s' .fullTwice

theorem shmAddNode_cases (hkey : key ≠ [])
    (h : shmAddNode e w l key type r info alloc s = some s') :
    Accounted e w l key type r info s s' alloc := by
  rw [shmAddNode, if_neg hkey] at h
  simp only [Option.bind_eq_bind, Option.bind_eq_some_iff] at h
  obtain ⟨node, hfind, h⟩ := h
  cases node with
  | some a =>
    simp only [Option.bind_eq_some_iff, Option.some.injEq] at h
    obtain ⟨c, hc, rfl⟩ := h
    exact .found a c hfind hc rfl
  | none =>
    simp only [Option.bind_eq_some_iff] at h
    obtain ⟨s₁, hlru, h⟩ := h
    cases alloc with
    | slot a raw =>
      simp only at h
      split_ifs at h with hfree
      simp only [Option.bind_eq_some_iff, Option.some.injEq] at h
      obtain ⟨s₂, hinsert, rfl⟩ := h
      exact .made a raw s₁ s₂ hfind hlru hfree hinsert rfl
    | full => exact .full s₁ hfind hlru (Option.some.inj h).symm
    | fullTwice => exact .fullTwice s₁ hfind hlru (Option.some.inj h).symm

theorem Shm.Wf.accounted (h : s.Wf e) (hshort : key.length < 2 ^ 16)
    (ha : Accounted e w l key type r info s s' alloc) : s'.Wf e := by
  cases ha with
  | found a c _ hc hs =>
    subst hs
    exact (h.write hc _).cacheNode _ _
  | made a raw s₁ s₂ hfind hlru hfree hinsert hs =>
    obtain ⟨t, ht, -, hwf⟩ := h.made hshort hfind hlru hfree (firstAccess type r raw)
    obtain rfl := Option.some.inj (ht.symm.trans hinsert)
    subst hs
    exact hwf.cacheNode _ _
  | full s₁ hfind hlru hs =>
    subst hs
    exact (h.lookupNode_deleteLru hlru (lookupNode_of_findNode hfind)).1
  | fullTwice s₁ hfind hlru hs =>
    subst hs
    have hwf := (h.lookupNode_deleteLru hlru (lookupNode_of_findNode hfind)).1
    exact ⟨hwf.tree, hwf.nodup, hwf.live, hwf.key, hwf.hashed⟩

/-- The memory that the allocator gives is free. -/
def Alloc.Fits (e : Setup) (info : Bool) (s : Shm ω ℓ) : Alloc → Prop
  | .slot a _ => ∀ s₁, deleteLru e info s = some s₁ → s₁.mem a = none
  | _ => True

/-- **Accounting fails only where the pointer that is kept is to memory that is free.** -/
theorem shmAddNode_eq_none_iff (h : s.Wf e) (hkey : key ≠ []) (hshort : key.length < 2 ^ 16)
    (hfits : alloc.Fits e info s) :
    shmAddNode e w l key type r info alloc s = none ↔ ¬ s.Live (w, l, type) := by
  constructor
  · intro hnone hlive
    rw [shmAddNode, if_neg hkey] at hnone
    obtain ⟨node, hfind⟩ : ∃ node, findNode (w, l, type) key (e.crc32 key) s = some node :=
      Option.ne_none_iff_exists'.mp (mt findNode_eq_none_iff.mp (not_not.mpr hlive))
    cases node with
    | some a =>
      obtain ⟨c, hc, -⟩ := h.cell_of_findNode hfind
      simp [hfind, hc] at hnone
    | none =>
      obtain ⟨s₁, hlru⟩ : ∃ s₁, deleteLru e info s = some s₁ := by
        rcases h.deleteLru_cases with ⟨-, heq⟩ | ⟨_, _, _, -, heq, -⟩
        · exact ⟨_, heq⟩
        · exact ⟨_, heq⟩
      cases alloc with
      | slot a raw =>
        have hfree : s₁.mem a = none := hfits s₁ hlru
        obtain ⟨t, ht, -⟩ := h.made hshort hfind hlru hfree (firstAccess type r raw)
        simp [hfind, hlru, hfree, ht] at hnone
      | full => simp [hfind, hlru] at hnone
      | fullTwice => simp [hfind, hlru] at hnone
  · intro hdead
    rw [shmAddNode, if_neg hkey]
    simp [findNode_eq_none_iff.mpr hdead]

end NginxTools.VhostTrafficStatus
