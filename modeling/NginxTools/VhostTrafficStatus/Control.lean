import NginxTools.VhostTrafficStatus.Shm

/-!
# The commands of the control page

The control page deletes nodes and resets them: all of them, those of a group, or the one of a key.
All nodes are deleted from the root of the tree on, until it is empty:

    while (node != sentinel) {

        ngx_rbtree_delete(ctx->rbtree, node);
        ngx_slab_free_locked(shpool, node);

        control->count++;

        node = ctx->rbtree->root;
    }

The nodes of a group are found in a walk over the tree, and deleted after it, unless there was no
memory for them:

    delete = ngx_array_push(*nodes);
    if (delete == NULL) {
        ngx_log_error(NGX_LOG_ERR, control->r->connection->log, 0,
                      "node_delete_get_nodes::ngx_array_push() failed");
        return NGX_ERROR;
    }

What is displayed in the end is how many nodes there were.

## The model

The functions are those of the source, over the zone's memory; `inRange` says of a node whether a
command is for it. What a request's pool has memory for is given: for how many nodes of a group, or,
where it is not zero, for the key of a zone.

## What is proved

**A command is for the nodes in its range, for all of them and for no others**: deleting leaves the
nodes out of the range with what they had counted, frees the memory of the others, and keeps the
tree in its order and balance (`nodeDelete_spec`); resetting zeroes the counters in the range
(`nodeReset_spec`). Both count the nodes that they were for. Where the pool has no memory, they are
for none (`nodeDelete_of_no_room`, `nodeReset_of_no_room`).
-/

namespace NginxTools.VhostTrafficStatus

open NginxTools.Library
open NginxTools.Core

variable {ω ℓ : Type}

/-! ### The commands -/

/-- What a command of the control page is for. -/
inductive Range where
  | all
  | group (g : Group)
  | zone (dst : List UInt8) (g : Group)

/-- `ngx_http_vhost_traffic_status_node_delete_all`, with as many turns as there are nodes: what is
left, and `control->count`. -/
def nodeDeleteAll : ℕ → ℕ → Shm ω ℓ → Option (Shm ω ℓ × ℕ)
  | 0, count, s => some (s, count)
  | turns + 1, count, s =>
    match s.rbtree with
    | .nil => some (s, count)
    | .node _ _ x _ => do
      let s ← s.removeNode x.addr
      nodeDeleteAll turns (count + 1) s

/-- The node is one of the group. -/
def inGroup (s : Shm ω ℓ) (g : Group) (x : KeyedNode) : Bool :=
  match s.mem x.addr with
  | some c => c.upstreamType = g
  | none => false

/-- `ngx_array_push`, where there is memory for `room` nodes. -/
def arrayPush (room : ℕ) (nodes : List ℕ) (a : ℕ) : Option (List ℕ) :=
  if nodes.length < room then some (nodes ++ [a]) else none

/-- `ngx_http_vhost_traffic_status_node_delete_get_nodes`: the nodes that are found, unless the
array cannot be made or has no room for one more. -/
def nodeDeleteGetNodes (s : Shm ω ℓ) (g : Group) (room : ℕ) (t : RbTree KeyedNode) :
    Option (List ℕ) :=
  t.walk (fun nodes x =>
    if inGroup s g x then nodes.bind fun nodes => arrayPush room nodes x.addr else nodes) (some [])

/-- `ngx_http_vhost_traffic_status_node_delete_group`, over the nodes that were found. -/
def nodeDeleteEach : List ℕ → ℕ → Shm ω ℓ → Option (Shm ω ℓ × ℕ)
  | [], count, s => some (s, count)
  | a :: nodes, count, s => do
    let s ← s.removeNode a
    nodeDeleteEach nodes (count + 1) s

/-- `ngx_http_vhost_traffic_status_node_delete`. `room` says what the request's pool has memory for:
the nodes of a group, or the key of a zone. -/
def nodeDelete (e : Setup) (range : Range) (room : ℕ) (s : Shm ω ℓ) : Option (Shm ω ℓ × ℕ) :=
  match range with
  | .all => nodeDeleteAll s.rbtree.toList.length 0 s
  | .group g =>
    match nodeDeleteGetNodes s g room s.rbtree with
    | some nodes => nodeDeleteEach nodes 0 s
    | none => some (s, 0)
  | .zone dst g =>
    -- `generate_key` fails
    if room = 0 then some (s, 0)
    else
      let key := generateKey dst g
      match lookupNode (e.crc32 key) key s.rbtree with
      | some x => nodeDeleteEach [x.addr] 0 s
      | none => some (s, 0)

/-- The node at an address is reset: `ngx_http_vhost_traffic_status_node_zero`. -/
def zeroNode (a : ℕ) (s : Shm ω ℓ) : Shm ω ℓ :=
  match s.mem a with
  | some c => s.write a ⟨nodeZero c.toTrafficNode, c.key⟩
  | none => s

/-- `ngx_http_vhost_traffic_status_node_reset_all` and `_reset_group`: the walk, with
`control->count`. -/
def nodeResetEach (p : Shm ω ℓ → KeyedNode → Bool) (s : Shm ω ℓ) : Shm ω ℓ × ℕ :=
  s.rbtree.walk
    (fun (s, count) x => if p s x then (zeroNode x.addr s, count + 1) else (s, count)) (s, 0)

/-- `ngx_http_vhost_traffic_status_node_reset`. No memory is needed but for the key of a zone. -/
def nodeReset (e : Setup) (range : Range) (room : ℕ) (s : Shm ω ℓ) : Shm ω ℓ × ℕ :=
  match range with
  | .all => nodeResetEach (fun _ _ => true) s
  | .group g => nodeResetEach (fun s x => inGroup s g x) s
  | .zone dst g =>
    if room = 0 then (s, 0)
    else
      let key := generateKey dst g
      match lookupNode (e.crc32 key) key s.rbtree with
      | some x => (zeroNode x.addr s, 1)
      | none => (s, 0)

/-- A command is for a node. -/
def inRange (range : Range) (s : Shm ω ℓ) (x : KeyedNode) : Bool :=
  match range with
  | .all => true
  | .group g => inGroup s g x
  | .zone dst g => x.data = generateKey dst g

/-- There is memory for deleting. -/
def deletes (range : Range) (room : ℕ) (s : Shm ω ℓ) : Bool :=
  match range with
  | .all => true
  | .group g => s.rbtree.toList.countP (inGroup s g) ≤ room
  | .zone _ _ => 0 < room

/-- There is memory for resetting. -/
def resets (range : Range) (room : ℕ) : Bool :=
  match range with
  | .all => true
  | .group _ => true
  | .zone _ _ => 0 < room

/-! ### Deleting -/

variable {e : Setup} {s s' : Shm ω ℓ} {xs : List KeyedNode}

/-- Nodes were deleted, and nothing else was done. -/
structure Removed (e : Setup) (xs : List KeyedNode) (s s' : Shm ω ℓ) : Prop where
  wf : s'.Wf e
  perm : s.rbtree.toList.Perm (xs ++ s'.rbtree.toList)
  mem : ∀ a, s'.mem a = if a ∈ xs.map KeyedNode.addr then none else s.mem a
  nodeCaches : s'.nodeCaches = s.nodeCaches
  locked : s'.locked = s.locked

theorem Shm.Wf.removed_nil (h : s.Wf e) : Removed e [] s s :=
  ⟨h, .refl _, by simp, rfl, rfl⟩

/-- One node is deleted before others. -/
theorem Shm.Wf.removed_cons {x : KeyedNode} (h : s.Wf e) (hx : x ∈ s.rbtree.toList) :
    ∃ s₁, s.removeNode x.addr = some s₁ ∧ Removed e [x] s s₁ ∧
      ∀ {ys s₂}, Removed e ys s₁ s₂ → Removed e (x :: ys) s s₂ := by
  obtain ⟨t, y, ht, haddr, hperm, hwf⟩ :=
    h.removeNode ((h.live _).mpr (List.mem_map_of_mem hx))
  obtain rfl : y = x := h.eq_of_addr (hperm.mem_iff.mpr List.mem_cons_self) hx haddr
  refine ⟨_, ht, ⟨hwf, hperm, fun a => ?_, rfl, rfl⟩, fun {ys s₂} h₂ => ?_⟩
  · by_cases ha : a = y.addr
    · subst ha
      simp
    · simp [ha]
  · refine ⟨h₂.wf, hperm.trans (h₂.perm.cons y), fun a => ?_, h₂.nodeCaches, h₂.locked⟩
    rw [h₂.mem, List.map_cons]
    by_cases ha : a = y.addr
    · subst ha
      simp
    · simp [ha]

/-- The loop over the nodes that were found deletes them. -/
theorem Shm.Wf.nodeDeleteEach (h : s.Wf e) (hsub : xs.Nodup) (hxs : ∀ x ∈ xs, x ∈ s.rbtree.toList)
    (count : ℕ) :
    ∃ s', VhostTrafficStatus.nodeDeleteEach (xs.map KeyedNode.addr) count s =
      some (s', count + xs.length) ∧ Removed e xs s s' := by
  induction xs generalizing s count with
  | nil => exact ⟨s, rfl, h.removed_nil⟩
  | cons x xs ih =>
    obtain ⟨hx, hrest⟩ := List.forall_mem_cons.mp hxs
    obtain ⟨hnot, hnodup⟩ := List.nodup_cons.mp hsub
    obtain ⟨s₁, hs₁, hone, hthen⟩ := h.removed_cons hx
    have hleft : ∀ y ∈ xs, y ∈ s₁.rbtree.toList := by
      intro y hy
      rcases List.mem_cons.mp (hone.perm.mem_iff.mp (hrest y hy)) with rfl | hmem
      · exact absurd hy hnot
      · exact hmem
    obtain ⟨s', hs', hrem⟩ := ih hone.wf hnodup hleft (count + 1)
    refine ⟨s', ?_, hthen hrem⟩
    simp only [List.map_cons, VhostTrafficStatus.nodeDeleteEach, hs₁, Option.bind_eq_bind,
      Option.bind_some, hs', List.length_cons]
    congr 2
    omega

/-- The loop over the root ends with an empty tree. -/
theorem Shm.Wf.nodeDeleteAll (h : s.Wf e) {turns : ℕ} (hturns : s.rbtree.toList.length ≤ turns)
    (count : ℕ) :
    ∃ s' xs, VhostTrafficStatus.nodeDeleteAll turns count s = some (s', count + xs.length) ∧
      Removed e xs s s' ∧ s'.rbtree.toList = [] := by
  induction turns generalizing s count with
  | zero =>
    have hnil : s.rbtree.toList = [] := List.length_eq_zero_iff.mp (by omega)
    exact ⟨s, [], rfl, h.removed_nil, hnil⟩
  | succ turns ih =>
    cases htree : s.rbtree with
    | nil =>
      have hdone : VhostTrafficStatus.nodeDeleteAll (turns + 1) count s = some (s, count) := by
        simp [VhostTrafficStatus.nodeDeleteAll, htree]
      exact ⟨s, [], hdone, h.removed_nil, by simp [htree]⟩
    | node c left x right =>
      have hx : x ∈ s.rbtree.toList := by simp [htree]
      obtain ⟨s₁, hs₁, hone, hthen⟩ := h.removed_cons hx
      have hlen := hone.perm.length_eq
      rw [List.length_append, List.length_singleton] at hlen
      obtain ⟨s', xs, hs', hrem, hnil⟩ := ih hone.wf (by omega) (count + 1)
      refine ⟨s', x :: xs, ?_, hthen hrem, hnil⟩
      simp only [VhostTrafficStatus.nodeDeleteAll, htree, hs₁, Option.bind_eq_bind,
        Option.bind_some, hs', List.length_cons]
      congr 2
      omega

/-- The nodes of a group are found, if there is room for them. -/
theorem nodeDeleteGetNodes_eq (s : Shm ω ℓ) (g : Group) (room : ℕ) (t : RbTree KeyedNode) :
    nodeDeleteGetNodes s g room t =
      if t.toList.countP (inGroup s g) ≤ room then
        some ((t.preorder.filter (inGroup s g)).map KeyedNode.addr) else none := by
  have hfailed : ∀ l : List ℕ,
      l.foldl (fun nodes a => nodes.bind fun nodes => arrayPush room nodes a) none = none := by
    intro l
    induction l with
    | nil => rfl
    | cons a l ih => rwa [List.foldl_cons]
  have hpushed : ∀ l nodes : List ℕ, nodes.length ≤ room →
      l.foldl (fun nodes a => nodes.bind fun nodes => arrayPush room nodes a) (some nodes) =
        if nodes.length + l.length ≤ room then some (nodes ++ l) else none := by
    intro l
    induction l with
    | nil =>
      intro nodes hle
      simp [hle]
    | cons a l ih =>
      intro nodes hle
      rw [List.foldl_cons, Option.bind_some, arrayPush]
      by_cases hroom : nodes.length < room
      · rw [if_pos hroom, ih _ (by simp only [List.length_append, List.length_singleton]; omega)]
        simp [Nat.add_comm, Nat.add_left_comm]
      · rw [if_neg hroom, hfailed, if_neg (by simp only [List.length_cons]; omega)]
  have hfound := hpushed ((t.preorder.filter (inGroup s g)).map KeyedNode.addr) [] (Nat.zero_le _)
  rw [List.foldl_map, List.foldl_filter, List.length_map, ← List.countP_eq_length_filter,
    (t.preorder_perm).countP_eq, List.length_nil, Nat.zero_add, List.nil_append] at hfound
  rw [nodeDeleteGetNodes, RbTree.walk_eq, hfound]

theorem Shm.Wf.toList_nodup (h : s.Wf e) : s.rbtree.toList.Nodup := h.nodup.of_map _

/-- The node of a key is the only one in its range. -/
theorem Shm.Wf.perm_zone (h : s.Wf e) (dst : List UInt8) (g : Group) :
    ((lookupNode (e.crc32 (generateKey dst g)) (generateKey dst g) s.rbtree).toList).Perm
      (s.rbtree.toList.filter (inRange (.zone dst g) s)) := by
  refine (List.perm_ext_iff_of_nodup ?_ (h.toList_nodup.filter _)).mpr fun x => ?_
  · cases lookupNode (e.crc32 (generateKey dst g)) (generateKey dst g) s.rbtree <;> simp
  · rw [Option.mem_toList, h.tree.lookupNode_iff, List.mem_filter, inRange,
      decide_eq_true_eq]
    refine and_congr_right fun hx => ⟨fun hkey => hkey.2, fun hdata => ⟨?_, hdata⟩⟩
    rw [h.hashed x hx, hdata]

/-- The nodes of a list are those of the tree that a command is for. -/
theorem Shm.Wf.addr_mem_iff (h : s.Wf e) {p : KeyedNode → Bool}
    (hxs : xs.Perm (s.rbtree.toList.filter p)) {x : KeyedNode} (hx : x ∈ s.rbtree.toList) :
    x.addr ∈ xs.map KeyedNode.addr ↔ p x = true := by
  constructor
  · intro hin
    obtain ⟨y, hy, heq⟩ := List.mem_map.mp hin
    obtain ⟨hytree, hyrange⟩ := List.mem_filter.mp (hxs.mem_iff.mp hy)
    obtain rfl := h.eq_of_addr hytree hx heq
    exact hyrange
  · exact fun hrange =>
      List.mem_map_of_mem (hxs.mem_iff.mpr (List.mem_filter.mpr ⟨hx, hrange⟩))

/-- What is left, where some nodes were deleted. -/
theorem Removed.left (h : s.Wf e) {p : KeyedNode → Bool} (hrem : Removed e xs s s')
    (hxs : xs.Perm (s.rbtree.toList.filter p)) :
    (∀ x, x ∈ s'.rbtree.toList ↔ x ∈ s.rbtree.toList ∧ p x = false) ∧
      (∀ x ∈ s.rbtree.toList, s'.mem x.addr = if p x then none else s.mem x.addr) ∧
      xs.length = s.rbtree.toList.countP p := by
  have hnodup := hrem.perm.nodup_iff.mp h.toList_nodup
  have hmem : ∀ x, x ∈ xs ↔ x ∈ s.rbtree.toList ∧ p x = true := fun x => by
    rw [hxs.mem_iff, List.mem_filter]
  refine ⟨fun x => ?_, fun x hx => ?_, ?_⟩
  · have hx := hrem.perm.mem_iff (a := x)
    rw [List.mem_append, hmem] at hx
    have hdisjoint : x ∈ s'.rbtree.toList → x ∉ xs := fun hx' hxs =>
      (List.nodup_append.mp hnodup).2.2 x hxs x hx' rfl
    rw [hmem] at hdisjoint
    cases hp : p x <;> simp_all
  · rw [hrem.mem]
    simp only [h.addr_mem_iff hxs hx]
  · rw [hxs.length_eq, List.countP_eq_length_filter]

/-- Where there is no memory for it, no node is deleted. -/
theorem nodeDelete_of_no_room {range : Range} {room : ℕ} (hroom : deletes range room s = false) :
    nodeDelete e range room s = some (s, 0) := by
  cases range with
  | all => cases hroom
  | group g =>
    have hmore : ¬ s.rbtree.toList.countP (inGroup s g) ≤ room := of_decide_eq_false hroom
    rw [nodeDelete, nodeDeleteGetNodes_eq, if_neg hmore]
  | zone dst g =>
    have hzero : ¬ 0 < room := of_decide_eq_false hroom
    rw [nodeDelete, if_pos (Nat.eq_zero_of_not_pos hzero)]

/-- **The command `delete` is for the nodes in its range**, if there is memory for it: they are
gone, and the others are left with what they had counted. -/
theorem nodeDelete_spec (h : s.Wf e) (range : Range) (room : ℕ) :
    ∃ s' count, nodeDelete e range room s = some (s', count) ∧ s'.Wf e ∧
      (∀ x, x ∈ s'.rbtree.toList ↔
        x ∈ s.rbtree.toList ∧ (deletes range room s && inRange range s x) = false) ∧
      (∀ x ∈ s.rbtree.toList, s'.mem x.addr =
        if deletes range room s && inRange range s x then none else s.mem x.addr) ∧
      s'.nodeCaches = s.nodeCaches ∧ s'.locked = s.locked ∧
      count = s.rbtree.toList.countP fun x => deletes range room s && inRange range s x := by
  suffices hrem : ∃ s' xs, nodeDelete e range room s = some (s', xs.length) ∧ Removed e xs s s' ∧
      xs.Perm (s.rbtree.toList.filter fun x => deletes range room s && inRange range s x) by
    obtain ⟨s', xs, hs', hrem, hxs⟩ := hrem
    obtain ⟨hleft, hmem, hcount⟩ := hrem.left h hxs
    exact ⟨s', xs.length, hs', hrem.wf, hleft, hmem, hrem.nodeCaches, hrem.locked, hcount⟩
  cases hroom : deletes range room s with
  | false =>
    refine ⟨s, [], nodeDelete_of_no_room hroom, h.removed_nil, ?_⟩
    simp
  | true =>
    simp only [Bool.true_and]
    cases range with
    | all =>
      obtain ⟨s', xs, hs', hrem, hnil⟩ := h.nodeDeleteAll (Nat.le_refl _) 0
      have hperm := hrem.perm
      rw [hnil, List.append_nil] at hperm
      have hall : s.rbtree.toList.filter (inRange .all s) = s.rbtree.toList :=
        List.filter_eq_self.mpr fun _ _ => rfl
      exact ⟨s', xs, by rw [nodeDelete, hs', Nat.zero_add], hrem, hall.symm ▸ hperm.symm⟩
    | group g =>
      have hperm := (s.rbtree.preorder_perm).filter (inGroup s g)
      obtain ⟨s', hs', hrem⟩ := h.nodeDeleteEach
        (hperm.nodup_iff.mpr (h.toList_nodup.filter _))
        (fun x hx => List.mem_of_mem_filter (hperm.mem_iff.mp hx)) 0
      refine ⟨s', _, ?_, hrem, hperm⟩
      have hfew : s.rbtree.toList.countP (inGroup s g) ≤ room := of_decide_eq_true hroom
      simp only [nodeDelete, nodeDeleteGetNodes_eq, if_pos hfew, hs', Nat.zero_add]
    | zone dst g =>
      have hperm := h.perm_zone dst g
      have hpos : 0 < room := of_decide_eq_true hroom
      simp only [nodeDelete, if_neg hpos.ne']
      cases hlookup : lookupNode (e.crc32 (generateKey dst g)) (generateKey dst g) s.rbtree with
      | none => exact ⟨s, [], rfl, h.removed_nil, by simpa [hlookup] using hperm⟩
      | some x =>
        have hone : [x].Nodup := List.nodup_singleton x
        obtain ⟨s', hs', hrem⟩ := h.nodeDeleteEach hone
          (by simpa using (h.tree.lookupNode_iff.mp hlookup).1) 0
        exact ⟨s', [x], hs', hrem, by simpa [hlookup] using hperm⟩

/-! ### Resetting -/

/-- A node that was reset. -/
def zeroCell (c : Cell) : Cell := ⟨nodeZero c.toTrafficNode, c.key⟩

/-- Nodes were reset, and nothing else was done. -/
structure Zeroed (e : Setup) (xs : List KeyedNode) (s s' : Shm ω ℓ) : Prop where
  wf : s'.Wf e
  rbtree : s'.rbtree = s.rbtree
  mem : ∀ a, s'.mem a = if a ∈ xs.map KeyedNode.addr then (s.mem a).map zeroCell else s.mem a
  nodeCaches : s'.nodeCaches = s.nodeCaches
  locked : s'.locked = s.locked

theorem Shm.Wf.zeroed_nil (h : s.Wf e) : Zeroed e [] s s := ⟨h, rfl, by simp, rfl, rfl⟩

theorem Shm.Wf.zeroed_one {x : KeyedNode} (h : s.Wf e) (hx : x ∈ s.rbtree.toList) :
    Zeroed e [x] s (zeroNode x.addr s) := by
  obtain ⟨c, hc⟩ := h.exists_cell hx
  have heq : zeroNode x.addr s = s.write x.addr (zeroCell c) := by simp [zeroNode, hc, zeroCell]
  rw [heq]
  refine ⟨h.write hc _, rfl, fun a => ?_, rfl, rfl⟩
  by_cases ha : a = x.addr
  · subst ha
    simp [Shm.write, hc]
  · simp [Shm.write, ha]

/-- Resetting a node does not change its group. -/
theorem inGroup_zeroNode (s : Shm ω ℓ) (g : Group) (a : ℕ) (x : KeyedNode) :
    inGroup (zeroNode a s) g x = inGroup s g x := by
  unfold zeroNode
  cases hc : s.mem a with
  | none => rfl
  | some c =>
    by_cases hx : x.addr = a
    · subst hx
      simp [inGroup, Shm.write, hc, nodeZero]
    · simp [inGroup, Shm.write, Function.update_of_ne hx]

/-- The walk resets the nodes that it is for. -/
theorem Shm.Wf.foldl_zeroNode {p : Shm ω ℓ → KeyedNode → Bool} (h : s.Wf e)
    (hp : ∀ s a x, p (zeroNode a s) x = p s x) (hnodup : xs.Nodup)
    (hxs : ∀ x ∈ xs, x ∈ s.rbtree.toList) (count : ℕ) :
    ∃ s', xs.foldl
        (fun (s, count) x => if p s x then (zeroNode x.addr s, count + 1) else (s, count))
        (s, count) = (s', count + (xs.filter (p s)).length) ∧
      Zeroed e (xs.filter (p s)) s s' := by
  induction xs generalizing s count with
  | nil => exact ⟨s, rfl, h.zeroed_nil⟩
  | cons x xs ih =>
    obtain ⟨hx, hrest⟩ := List.forall_mem_cons.mp hxs
    obtain ⟨hnot, hnodup⟩ := List.nodup_cons.mp hnodup
    rw [List.foldl_cons]
    by_cases hpx : p s x
    · have hone := h.zeroed_one hx
      have hsame : p (zeroNode x.addr s) = p s := funext (hp s x.addr)
      obtain ⟨s', hs', hz⟩ := ih hone.wf hnodup (fun y hy => hone.rbtree ▸ hrest y hy) (count + 1)
      rw [hsame] at hs' hz
      refine ⟨s', ?_, ?_⟩
      · simp only [hpx, ↓reduceIte, List.filter_cons_of_pos, List.length_cons]
        rw [hs']
        congr 1
        omega
      · rw [List.filter_cons_of_pos hpx]
        refine ⟨hz.wf, hz.rbtree.trans hone.rbtree, fun a => ?_,
          hz.nodeCaches.trans hone.nodeCaches, hz.locked.trans hone.locked⟩
        rw [hz.mem, hone.mem]
        simp only [List.map_cons, List.map_nil]
        by_cases ha : a = x.addr
        · subst ha
          have hother : x.addr ∉ (xs.filter (p s)).map KeyedNode.addr := by
            intro hin
            obtain ⟨y, hy, heq⟩ := List.mem_map.mp hin
            have hy := List.mem_of_mem_filter hy
            exact hnot (h.eq_of_addr (hrest y hy) hx heq ▸ hy)
          simp [hother]
        · simp only [List.mem_cons, List.not_mem_nil, ha, false_or, ↓reduceIte]
    · obtain ⟨s', hs', hz⟩ := ih h hnodup hrest count
      refine ⟨s', ?_, ?_⟩
      · simp only [hpx, Bool.false_eq_true, ↓reduceIte]
        rw [hs', List.filter_cons_of_neg hpx]
      · rw [List.filter_cons_of_neg hpx]
        exact hz

/-- Where there is no memory for it, no node is reset. -/
theorem nodeReset_of_no_room {range : Range} {room : ℕ} (hroom : resets range room = false) :
    nodeReset e range room s = (s, 0) := by
  cases range with
  | all => cases hroom
  | group g => cases hroom
  | zone dst g =>
    have hzero : ¬ 0 < room := of_decide_eq_false hroom
    rw [nodeReset, if_pos (Nat.eq_zero_of_not_pos hzero)]

/-- **The command `reset` is for the nodes in its range**, if there is memory for it: their counters
are zero, and the others are left with what they had counted. -/
theorem nodeReset_spec (h : s.Wf e) (range : Range) (room : ℕ) :
    (nodeReset e range room s).1.Wf e ∧ (nodeReset e range room s).1.rbtree = s.rbtree ∧
      (∀ x ∈ s.rbtree.toList, (nodeReset e range room s).1.mem x.addr =
        if resets range room && inRange range s x then (s.mem x.addr).map zeroCell
        else s.mem x.addr) ∧
      (nodeReset e range room s).1.nodeCaches = s.nodeCaches ∧
      (nodeReset e range room s).1.locked = s.locked ∧
      (nodeReset e range room s).2 =
        s.rbtree.toList.countP fun x => resets range room && inRange range s x := by
  suffices hz : ∃ xs, (nodeReset e range room s).2 = xs.length ∧
      Zeroed e xs s (nodeReset e range room s).1 ∧
      xs.Perm (s.rbtree.toList.filter fun x => resets range room && inRange range s x) by
    obtain ⟨xs, hcount, hz, hxs⟩ := hz
    refine ⟨hz.wf, hz.rbtree, fun x hx => ?_, hz.nodeCaches, hz.locked, ?_⟩
    · rw [hz.mem]
      simp only [h.addr_mem_iff hxs hx]
    · rw [hcount, hxs.length_eq, List.countP_eq_length_filter]
  have heach : ∀ {p : Shm ω ℓ → KeyedNode → Bool}, (∀ s a x, p (zeroNode a s) x = p s x) →
      p s = inRange range s → nodeReset e range room s = nodeResetEach p s →
      ∃ xs, (nodeReset e range room s).2 = xs.length ∧
        Zeroed e xs s (nodeReset e range room s).1 ∧
        xs.Perm (s.rbtree.toList.filter (inRange range s)) := by
    intro p hp hrange heq
    have hpre := s.rbtree.preorder_perm
    obtain ⟨s', hs', hz⟩ := h.foldl_zeroNode hp (hpre.nodup_iff.mpr h.toList_nodup)
      (fun x hx => hpre.mem_iff.mp hx) 0
    rw [heq, nodeResetEach, RbTree.walk_eq, hs', Nat.zero_add, ← hrange]
    exact ⟨_, rfl, hz, hpre.filter _⟩
  cases hroom : resets range room with
  | false =>
    rw [nodeReset_of_no_room hroom]
    exact ⟨[], rfl, h.zeroed_nil, by simp⟩
  | true =>
    simp only [Bool.true_and]
    cases range with
    | all => exact heach (p := fun _ _ => true) (fun _ _ _ => rfl) rfl rfl
    | group g =>
      exact heach (p := fun s x => inGroup s g x) (fun s a x => inGroup_zeroNode s g a x) rfl rfl
    | zone dst g =>
      have hperm := h.perm_zone dst g
      have hpos : 0 < room := of_decide_eq_true hroom
      simp only [nodeReset, if_neg hpos.ne']
      cases hlookup : lookupNode (e.crc32 (generateKey dst g)) (generateKey dst g) s.rbtree with
      | none => exact ⟨[], rfl, h.zeroed_nil, by simpa [hlookup] using hperm⟩
      | some x =>
        have hone := h.zeroed_one (h.tree.lookupNode_iff.mp hlookup).1
        exact ⟨[x], rfl, hone, by simpa [hlookup] using hperm⟩

end NginxTools.VhostTrafficStatus
