import NginxTools.VhostTrafficStatus.Workers
import Mathlib.Data.Set.Function

/-!
# What the zone is for

All that the tree, the hashes and the pointers of the workers are for is to keep one node for each
key, which the requests of that key are accounted in:

    /* init node */
    if (node == NULL) {
        ...
        ngx_http_vhost_traffic_status_node_init(r, vtsn);
        ...
        ngx_rbtree_insert(ctx->rbtree, node);
    } else {
        init = NGX_HTTP_VHOST_TRAFFIC_STATUS_NODE_FIND;
        vtsn = ngx_http_vhost_traffic_status_get_node(node);
        ngx_http_vhost_traffic_status_node_set(r, vtsn);
    }

## The model

A `Ledger` is a function from keys to nodes, and an `Entry` is what is done to it: there are no
workers, addresses, hashes or pointers in it. `contents` is the ledger of a zone's memory, and
`entries` is what an action of the workers does to it.

## What is proved

**While no two keys have the same hash, the zone is its ledger**: after any run of the workers, with
nodes that are deleted, reset, restored and evicted in between, it has what its entries make of an
empty ledger, one after the other, and it takes every action that follows no pointer to a node that
was deleted (`shm_refines`). So each key's node says what the requests of the key were, by whatever
worker and in whatever location (`shm_reports`). With two keys of one hash that is not so
(`shm_reports_collision`).
-/

namespace NginxTools.VhostTrafficStatus

open NginxTools.Library
open NginxTools.Core

/-! ### The ledger -/

/-- A node for each key that has one. -/
abbrev Ledger := List UInt8 → Option TrafficNode

/-- What is done to a ledger. -/
inductive Entry where
  /-- A request, with the memory for a node where there is some. -/
  | account (key : List UInt8) (type : Group) (r : Access) (raw : Option TrafficNode)
  /-- A node that was dumped. -/
  | restore (key : List UInt8) (v : TrafficNode)
  | delete (range : Range)
  | reset (range : Range)
  /-- The node of a key is deleted for another one. -/
  | evict (key : List UInt8)

/-- A command is for the node of a key. -/
def Range.has (range : Range) (key : List UInt8) (v : TrafficNode) : Bool :=
  match range with
  | .all => true
  | .group g => v.upstreamType = g
  | .zone dst g => key = generateKey dst g

/-- The ledger after an entry. -/
def Entry.apply (m : Ledger) : Entry → Ledger
  | .account key type r raw => Function.update m key <|
    match m key with
    | some v => some (nextAccess type v r)
    | none => raw.map (firstAccess type r)
  | .restore key v => Function.update m key (some ((m key).getD v))
  | .delete range => fun key => (m key).filter fun v => !range.has key v
  | .reset range => fun key => (m key).map fun v => if range.has key v then nodeZero v else v
  | .evict key => Function.update m key none

variable {ω ℓ : Type}

/-- The ledger of a zone. -/
def contents (e : Setup) (s : Shm ω ℓ) : Ledger := fun key =>
  (lookupNode (e.crc32 key) key s.rbtree).bind fun x => (s.mem x.addr).map Cell.toTrafficNode

/-- The key of the node that is deleted for a new one. -/
def evicted (e : Setup) (info : Bool) (s : Shm ω ℓ) : Option (List UInt8) :=
  (s.rbtree.toList.find? fun x => findLru e info s = some x.addr).map KeyedNode.data

/-- The memory for a node. -/
def Alloc.raw : Alloc → Option TrafficNode
  | .slot _ raw => some raw
  | _ => none

/-- What an action does to the ledger. -/
def entries (e : Setup) (s : Shm ω ℓ) : Act ω ℓ → List Entry
  | .account w l key type r info alloc =>
    if key = [] then []
    else
      (if findNode (w, l, type) key (e.crc32 key) s = some none then
        (evicted e info s).toList.map Entry.evict else []) ++ [.account key type r alloc.raw]
  | .read _ _ _ _ _ => []
  | .delete range room => if deletes range room s then [.delete range] else []
  | .reset range room => if resets range room then [.reset range] else []
  | .restore v key alloc =>
    if key = [] then [] else alloc.raw.toList.map fun _ => .restore key v
  | .start _ => []

/-! ### The ledger of a zone -/

variable {e : Setup} {s s' : Shm ω ℓ} {x : KeyedNode} {c : Cell} {a : ℕ} {key : List UInt8}
  {v : TrafficNode} {act : Act ω ℓ} {K : Set (List UInt8)}

/-- A key has the node that is in the tree under it. -/
theorem Shm.Wf.contents_eq_some_iff (h : s.Wf e) : contents e s key = some v ↔
    ∃ x ∈ s.rbtree.toList, x.data = key ∧ ∃ c, s.mem x.addr = some c ∧ c.toTrafficNode = v := by
  rw [contents, Option.bind_eq_some_iff]
  constructor
  · rintro ⟨x, hx, hv⟩
    obtain ⟨hmem, -, hdata⟩ := h.tree.lookupNode_iff.mp hx
    exact ⟨x, hmem, hdata, Option.map_eq_some_iff.mp hv⟩
  · rintro ⟨x, hmem, rfl, c, hc, rfl⟩
    refine ⟨x, h.tree.lookupNode_iff.mpr ⟨hmem, h.hashed x hmem, rfl⟩, ?_⟩
    rw [hc, Option.map_some]

theorem Shm.Wf.contents_of_mem (h : s.Wf e) (hx : x ∈ s.rbtree.toList)
    (hc : s.mem x.addr = some c) : contents e s x.data = some c.toTrafficNode :=
  h.contents_eq_some_iff.mpr ⟨x, hx, rfl, c, hc, rfl⟩

theorem Shm.Wf.contents_eq_none_iff (h : s.Wf e) :
    contents e s key = none ↔ ∀ x ∈ s.rbtree.toList, x.data ≠ key := by
  constructor
  · rintro hnone x hx rfl
    obtain ⟨c, hc⟩ := h.exists_cell hx
    simp [h.contents_of_mem hx hc] at hnone
  · intro hall
    by_contra hne
    obtain ⟨v, hv⟩ := Option.ne_none_iff_exists'.mp hne
    obtain ⟨x, hx, hdata, -⟩ := h.contents_eq_some_iff.mp hv
    exact hall x hx hdata

/-- A key has one node. -/
theorem Shm.Wf.eq_of_data (h : s.Wf e) {y : KeyedNode} (hx : x ∈ s.rbtree.toList)
    (hy : y ∈ s.rbtree.toList) (hdata : x.data = y.data) : x = y := by
  have hlookup : ∀ z ∈ s.rbtree.toList, lookupNode (e.crc32 z.data) z.data s.rbtree = some z :=
    fun z hz => h.tree.lookupNode_iff.mpr ⟨hz, h.hashed z hz, rfl⟩
  have hxy := hlookup x hx
  rw [hdata, hlookup y hy] at hxy
  exact (Option.some.inj hxy).symm

/-- The nodes of two zones are the same but for one key. -/
theorem contents_update {v' : Option TrafficNode} (h : s.Wf e) (h' : s'.Wf e)
    (hself : contents e s' key = v')
    (hother : ∀ k ≠ key, ∀ x c, x.data = k → (x ∈ s'.rbtree.toList ∧ s'.mem x.addr = some c ↔
      x ∈ s.rbtree.toList ∧ s.mem x.addr = some c)) :
    contents e s' = Function.update (contents e s) key v' := by
  funext k
  by_cases hk : k = key
  · subst hk
    rw [hself, Function.update_self]
  · rw [Function.update_of_ne hk]
    refine Option.ext fun v => ?_
    rw [h'.contents_eq_some_iff, h.contents_eq_some_iff]
    constructor
    · rintro ⟨x, hx, hdata, c, hc, hv⟩
      obtain ⟨hx, hc⟩ := (hother k hk x c hdata).mp ⟨hx, hc⟩
      exact ⟨x, hx, hdata, c, hc, hv⟩
    · rintro ⟨x, hx, hdata, c, hc, hv⟩
      obtain ⟨hx, hc⟩ := (hother k hk x c hdata).mpr ⟨hx, hc⟩
      exact ⟨x, hx, hdata, c, hc, hv⟩

/-- A node is set. -/
theorem Shm.Wf.contents_write (h : s.Wf e) (hx : x ∈ s.rbtree.toList)
    (hc : s.mem x.addr = some c) (v : TrafficNode) :
    contents e (s.write x.addr ⟨v, c.key⟩) =
      Function.update (contents e s) x.data (some v) := by
  have hwf := h.write hc v
  refine contents_update h hwf ?_ fun k hk y c' hdata => ?_
  · exact hwf.contents_of_mem (c := ⟨v, c.key⟩) hx (by simp [Shm.write])
  · refine and_congr_right fun hy => ?_
    have hne : y.addr ≠ x.addr := fun haddr => hk (hdata ▸ h.eq_of_addr hy hx haddr ▸ rfl)
    simp [Shm.write, Function.update_of_ne hne]

/-- A node is made. -/
theorem Shm.Wf.contents_insert (h : s.Wf e) {t : RbTree KeyedNode}
    (hfree : s.mem x.addr = none) (hperm : t.toList.Perm (x :: s.rbtree.toList))
    (hwf : Shm.Wf e { s with
      rbtree := t, mem := Function.update s.mem x.addr (some ⟨v, x.key⟩) }) :
    contents e { s with rbtree := t, mem := Function.update s.mem x.addr (some ⟨v, x.key⟩) } =
      Function.update (contents e s) x.data (some v) := by
  have hmem : x ∈ t.toList := hperm.mem_iff.mpr List.mem_cons_self
  refine contents_update h hwf ?_ fun k hk y c' hdata => ?_
  · exact hwf.contents_of_mem (c := ⟨v, x.key⟩) hmem (by simp)
  · have hyx : y ≠ x := fun heq => hk (hdata ▸ heq ▸ rfl)
    simp only [hperm.mem_iff, List.mem_cons, hyx, false_or]
    refine and_congr_right fun hy => ?_
    have hne : y.addr ≠ x.addr := fun haddr =>
      (h.live _).mpr (List.mem_map_of_mem hy) (haddr ▸ hfree)
    rw [Function.update_of_ne hne]

/-- A node is deleted. -/
theorem Shm.Wf.contents_remove (h : s.Wf e) {t : RbTree KeyedNode}
    (hperm : s.rbtree.toList.Perm (x :: t.toList))
    (hwf : Shm.Wf e { s with rbtree := t, mem := Function.update s.mem x.addr none }) :
    contents e { s with rbtree := t, mem := Function.update s.mem x.addr none } =
      Function.update (contents e s) x.data none := by
  have hx : x ∈ s.rbtree.toList := hperm.mem_iff.mpr List.mem_cons_self
  have hnot : x.addr ∉ t.toList.map KeyedNode.addr := fun hmem =>
    (hwf.live _).mpr hmem (by simp)
  have hsub : ∀ y ∈ t.toList, y ∈ s.rbtree.toList := fun y hy =>
    hperm.mem_iff.mpr (List.mem_cons_of_mem _ hy)
  refine contents_update h hwf ?_ fun k hk y c' hdata => ?_
  · refine hwf.contents_eq_none_iff.mpr fun y hy hdata => hnot ?_
    exact h.eq_of_data (hsub y hy) hx hdata ▸ List.mem_map_of_mem hy
  · have hyx : y ≠ x := fun heq => hk (hdata ▸ heq ▸ rfl)
    simp only [hperm.mem_iff, List.mem_cons, hyx, false_or]
    refine and_congr_right fun hy => ?_
    have hne : y.addr ≠ x.addr := fun haddr => hnot (haddr ▸ List.mem_map_of_mem hy)
    rw [Function.update_of_ne hne]

/-- The node that was used longest ago is deleted. -/
theorem Shm.Wf.contents_deleteLru {info : Bool} {s₁ : Shm ω ℓ} (h : s.Wf e)
    (hlru : deleteLru e info s = some s₁) : contents e s₁ =
      ((evicted e info s).toList.map Entry.evict).foldl Entry.apply (contents e s) := by
  rcases h.deleteLru_cases with ⟨hnone, heq⟩ | ⟨a, t, x, ha, heq, rfl, -, hperm, hwf⟩
  · obtain rfl := Option.some.inj (heq.symm.trans hlru)
    have hevicted : evicted e info s = none := by simp [evicted, hnone]
    rw [hevicted]
    rfl
  · obtain rfl := Option.some.inj (heq.symm.trans hlru)
    have hx : x ∈ s.rbtree.toList := hperm.mem_iff.mpr List.mem_cons_self
    have hevicted : evicted e info s = some x.data := by
      rw [evicted, ha]
      obtain ⟨y, hy⟩ : ∃ y,
          s.rbtree.toList.find? (fun y => some x.addr = some y.addr) = some y := by
        rw [← Option.isSome_iff_exists, List.find?_isSome]
        exact ⟨x, hx, by simp⟩
      have haddr : x.addr = y.addr := by simpa using List.find?_some hy
      obtain rfl := h.eq_of_addr hx (List.mem_of_find?_eq_some hy) haddr
      rw [hy, Option.map_some]
    rw [hevicted, h.contents_remove hperm hwf]
    rfl

/-- A command says of a key what it says of the key's node. -/
theorem has_eq_inRange (hc : s.mem x.addr = some c) (range : Range) :
    range.has x.data c.toTrafficNode = inRange range s x := by
  cases range with
  | all => rfl
  | group g => simp [Range.has, inRange, inGroup, hc]
  | zone dst g => rfl

theorem Shm.Wf.contents_delete (h : s.Wf e) {range : Range} {room count : ℕ}
    (hroom : deletes range room s = true) (hs : nodeDelete e range room s = some (s', count)) :
    contents e s' = Entry.apply (contents e s) (.delete range) := by
  obtain ⟨s₁, n, hdel, hwf, hleft, hmem, -⟩ := nodeDelete_spec h range room
  obtain ⟨rfl, -⟩ := Prod.mk.inj (Option.some.inj (hdel.symm.trans hs))
  simp only [hroom, Bool.true_and] at hleft hmem
  funext key
  refine Option.ext fun v => ?_
  rw [hwf.contents_eq_some_iff, Entry.apply, Option.filter_eq_some_iff, h.contents_eq_some_iff]
  constructor
  · rintro ⟨x, hx, rfl, c, hc, rfl⟩
    obtain ⟨hx, hrange⟩ := (hleft x).mp hx
    rw [hmem x hx, hrange] at hc
    exact ⟨⟨x, hx, rfl, c, hc, rfl⟩, by simp [has_eq_inRange hc, hrange]⟩
  · rintro ⟨⟨x, hx, rfl, c, hc, rfl⟩, hrange⟩
    rw [has_eq_inRange hc, Bool.not_eq_true'] at hrange
    exact ⟨x, (hleft x).mpr ⟨hx, hrange⟩, rfl, c, by rw [hmem x hx, hrange]; exact hc, rfl⟩

theorem Shm.Wf.contents_reset (h : s.Wf e) {range : Range} {room : ℕ}
    (hroom : resets range room = true) :
    contents e (nodeReset e range room s).1 = Entry.apply (contents e s) (.reset range) := by
  obtain ⟨hwf, htree, hmem, -⟩ := nodeReset_spec h range room
  simp only [hroom, Bool.true_and] at hmem
  funext key
  refine Option.ext fun v => ?_
  rw [hwf.contents_eq_some_iff, Entry.apply, Option.map_eq_some_iff, htree]
  constructor
  · rintro ⟨x, hx, rfl, c, hc, rfl⟩
    obtain ⟨c₀, hc₀⟩ := h.exists_cell hx
    refine ⟨c₀.toTrafficNode, h.contents_of_mem hx hc₀, ?_⟩
    rw [hmem x hx, hc₀] at hc
    rw [has_eq_inRange hc₀]
    split_ifs at hc ⊢
    · obtain rfl := Option.some.inj hc
      rfl
    · obtain rfl := Option.some.inj hc
      rfl
  · rintro ⟨v₀, hv₀, rfl⟩
    obtain ⟨x, hx, rfl, c₀, hc₀, rfl⟩ := h.contents_eq_some_iff.mp hv₀
    rw [has_eq_inRange hc₀]
    refine ⟨x, hx, rfl, if inRange range s x then zeroCell c₀ else c₀, ?_, ?_⟩
    · rw [hmem x hx, hc₀]
      split_ifs <;> rfl
    · split_ifs <;> rfl

/-! ### What an action does to the ledger -/

/-- The keys of an action are some, and short. -/
def Act.Within (K : Set (List UInt8)) : Act ω ℓ → Prop
  | .account _ _ key _ _ _ _ => key ∈ K ∧ key.length < 2 ^ 16
  | .restore _ key _ => key ∈ K ∧ key.length < 2 ^ 16
  | _ => True

theorem Act.Within.short (h : act.Within K) : act.Short := by
  cases act <;> first | exact h.2 | trivial

/-- The nodes of a zone have some of the keys. -/
def Shm.Keyed (K : Set (List UInt8)) (s : Shm ω ℓ) : Prop := ∀ x ∈ s.rbtree.toList, x.data ∈ K

/-- What is found is the node of the key, if no other key has its hash. -/
theorem Shm.Wf.found_node {k : ω × ℓ × Group} (h : s.Wf e) (hK : Set.InjOn e.crc32 K)
    (hkeyed : s.Keyed K) (hkey : key ∈ K)
    (hfind : findNode k key (e.crc32 key) s = some (some a)) :
    ∃ x ∈ s.rbtree.toList, x.addr = a ∧ x.data = key := by
  obtain ⟨c, hc, hhash⟩ := h.cell_of_findNode hfind
  obtain ⟨x, hx, rfl⟩ := h.exists_node (a := a) (by simp [hc])
  refine ⟨x, hx, rfl, hK (hkeyed x hx) hkey ?_⟩
  rw [← h.hashed x hx, ← h.key x hx c hc, hhash]

/-- A key without a node has none either when a node was deleted for it. -/
theorem Shm.Wf.contents_of_not_found {k : ω × ℓ × Group} {info : Bool} {s₁ : Shm ω ℓ}
    (h : s.Wf e) (hlru : deleteLru e info s = some s₁)
    (hfind : findNode k key (e.crc32 key) s = some none) : contents e s₁ key = none := by
  obtain ⟨-, hnone⟩ := h.lookupNode_deleteLru hlru (lookupNode_of_findNode hfind)
  rw [contents, hnone]
  rfl

variable [DecidableEq ω] [DecidableEq ℓ]

/-- A request is accounted in the node of its key. -/
theorem Shm.Wf.contents_accounted {w : ω} {l : ℓ} {type : Group} {r : Access} {info : Bool}
    {alloc : Alloc} (h : s.Wf e) (hK : Set.InjOn e.crc32 K) (hkeyed : s.Keyed K)
    (hact : (Act.account w l key type r info alloc).Within K) (hkey : key ≠ [])
    (ha : Accounted e w l key type r info s s' alloc) :
    contents e s' =
      (entries e s (.account w l key type r info alloc)).foldl Entry.apply (contents e s) := by
  rw [entries, if_neg hkey, List.foldl_append]
  cases ha with
  | found a c hfind hc heq =>
    obtain ⟨x, hx, rfl, rfl⟩ := h.found_node hK hkeyed hact.1 hfind
    rw [hfind, if_neg (by simp), heq]
    refine (h.contents_write hx hc _).trans ?_
    simp only [List.foldl_nil, List.foldl_cons, Entry.apply, h.contents_of_mem hx hc]
  | made a raw s₁ s₂ hfind hlru hfree hinsert heq =>
    obtain ⟨t, ht, hperm, hwf⟩ := h.made hact.2 hfind hlru hfree (firstAccess type r raw)
    obtain rfl := Option.some.inj (ht.symm.trans hinsert)
    obtain ⟨hwf₁, -⟩ := h.lookupNode_deleteLru hlru (lookupNode_of_findNode hfind)
    have hcontents := h.contents_of_not_found hlru hfind
    rw [if_pos hfind, ← h.contents_deleteLru hlru, heq]
    refine (hwf₁.contents_insert (x := ⟨a, e.crc32 key, key⟩) hfree hperm hwf).trans ?_
    simp only [List.foldl_nil, List.foldl_cons, Entry.apply, hcontents, Alloc.raw, Option.map_some]
  | full s₁ hfind hlru heq =>
    have hcontents := h.contents_of_not_found hlru hfind
    rw [if_pos hfind, ← h.contents_deleteLru hlru, heq]
    simp only [List.foldl_nil, List.foldl_cons, Entry.apply, hcontents, Alloc.raw, Option.map_none]
    rw [← hcontents, Function.update_eq_self]
  | fullTwice s₁ hfind hlru heq =>
    have hcontents := h.contents_of_not_found hlru hfind
    have hlocked : contents e { s₁ with locked := true } = contents e s₁ := rfl
    rw [if_pos hfind, ← h.contents_deleteLru hlru, heq, hlocked]
    simp only [List.foldl_nil, List.foldl_cons, Entry.apply, hcontents, Alloc.raw, Option.map_none]
    rw [← hcontents, Function.update_eq_self]

omit [DecidableEq ω] [DecidableEq ℓ] in
/-- A node of the dump is restored for a key that has none. -/
theorem Shm.Wf.contents_restored {alloc : Alloc} (h : s.Wf e)
    (hshort : key.length < 2 ^ 16) (hs : dumpRestoreAddNode e v key alloc s = some s') :
    contents e s' = (entries e s (.restore v key alloc : Act ω ℓ)).foldl Entry.apply
      (contents e s) := by
  unfold dumpRestoreAddNode at hs
  rw [entries]
  split_ifs at hs ⊢ with hkey
  · obtain rfl := Option.some.inj hs
    rfl
  · cases hlookup : lookupNode (e.crc32 key) key s.rbtree with
    | some x =>
      simp only [hlookup] at hs
      obtain rfl := Option.some.inj hs
      obtain ⟨hx, -, rfl⟩ := h.tree.lookupNode_iff.mp hlookup
      obtain ⟨c, hc⟩ := h.exists_cell hx
      have hsame := h.contents_of_mem hx hc
      cases alloc with
      | slot a raw =>
        simp only [Alloc.raw, Option.toList_some, List.map_singleton, List.foldl_cons,
          List.foldl_nil, Entry.apply, hsame, Option.getD_some]
        rw [← hsame, Function.update_eq_self]
      | full => rfl
      | fullTwice => rfl
    | none =>
      have hnone : contents e s key = none := by rw [contents, hlookup]; rfl
      cases alloc with
      | slot a raw =>
        simp only [hlookup] at hs
        split_ifs at hs with hfree
        rw [stored_of_short hshort] at hs
        obtain ⟨t, ht, hperm, hwf⟩ :=
          h.insertNode (x := ⟨a, e.crc32 key, key⟩) v hfree hlookup rfl
        obtain rfl := Option.some.inj (ht.symm.trans hs)
        refine (h.contents_insert (x := ⟨a, e.crc32 key, key⟩) hfree hperm hwf).trans ?_
        simp only [Alloc.raw, Option.toList_some, List.map_singleton, List.foldl_cons,
          List.foldl_nil, Entry.apply, hnone, Option.getD_none]
      | full =>
        simp only [hlookup] at hs
        obtain rfl := Option.some.inj hs
        rfl
      | fullTwice =>
        simp only [hlookup] at hs
        obtain rfl := Option.some.inj hs
        rfl

/-- **Every action does to the zone's ledger what its entries say**, if no two keys have the same
hash. -/
theorem Shm.Wf.contents_step (h : s.Wf e) (hK : Set.InjOn e.crc32 K) (hkeyed : s.Keyed K)
    (hact : act.Within K) (hs : s.step e act = some s') :
    contents e s' = (entries e s act).foldl Entry.apply (contents e s) := by
  cases act with
  | account w l key type r info alloc =>
    simp only [Shm.step] at hs
    split_ifs at hs
    by_cases hkey : key = []
    · rw [shmAddNode, if_pos hkey] at hs
      rw [entries, if_pos hkey, ← Option.some.inj hs]
      rfl
    · exact h.contents_accounted hK hkeyed hact hkey (shmAddNode_cases hkey hs)
  | read w l key type always =>
    simp only [Shm.step, readNode, Option.bind_eq_bind] at hs
    split_ifs at hs
    obtain ⟨node, -, hs⟩ := Option.bind_eq_some_iff.mp hs
    split_ifs at hs
    · exact Option.some.inj hs ▸ rfl
    · exact Option.some.inj hs ▸ rfl
  | delete range room =>
    simp only [Shm.step] at hs
    split_ifs at hs
    obtain ⟨⟨s₁, count⟩, hdel, rfl⟩ := Option.map_eq_some_iff.mp hs
    rw [entries]
    split_ifs with hroom
    · exact h.contents_delete hroom hdel
    · rw [nodeDelete_of_no_room (Bool.not_eq_true _ ▸ hroom)] at hdel
      rw [← (Prod.mk.inj (Option.some.inj hdel)).1]
      rfl
  | reset range room =>
    simp only [Shm.step] at hs
    split_ifs at hs
    rw [entries, ← Option.some.inj hs]
    split_ifs with hroom
    · exact h.contents_reset hroom
    · rw [nodeReset_of_no_room (Bool.not_eq_true _ ▸ hroom)]
      rfl
  | restore v key alloc =>
    simp only [Shm.step] at hs
    split_ifs at hs
    exact h.contents_restored hact.2 hs
  | start w => exact Option.some.inj hs ▸ rfl

/-! ### Any order of the workers -/

/-- A ledger has nodes for some keys only. -/
def Ledger.Within (K : Set (List UInt8)) (m : Ledger) : Prop := ∀ key, m key ≠ none → key ∈ K

/-- An entry makes nodes for some keys only. -/
def Entry.Within (K : Set (List UInt8)) : Entry → Prop
  | .account key _ _ _ => key ∈ K
  | .restore key _ => key ∈ K
  | _ => True

omit [DecidableEq ω] [DecidableEq ℓ] in
theorem Shm.Wf.keyed_iff (h : s.Wf e) : s.Keyed K ↔ (contents e s).Within K := by
  constructor
  · intro hkeyed key hne
    by_contra hnot
    exact hne (h.contents_eq_none_iff.mpr fun x hx hdata => hnot (hdata ▸ hkeyed x hx))
  · intro hwithin x hx
    refine hwithin _ fun hnone => ?_
    exact h.contents_eq_none_iff.mp hnone x hx rfl

theorem Ledger.Within.update {m : Ledger} (h : m.Within K) (hkey : key ∈ K)
    (v : Option TrafficNode) : Ledger.Within K (Function.update m key v) := by
  intro k hk
  by_cases heq : k = key
  · exact heq ▸ hkey
  · exact h k (by rwa [Function.update_of_ne heq] at hk)

theorem Ledger.Within.apply {m : Ledger} (h : m.Within K) {entry : Entry}
    (hentry : entry.Within K) : (entry.apply m).Within K := by
  cases entry with
  | account key type r raw => exact h.update hentry _
  | restore key v => exact h.update hentry _
  | delete range =>
    refine fun key hne => h key fun hnone => hne ?_
    simp [Entry.apply, hnone]
  | reset range =>
    refine fun key hne => h key fun hnone => hne ?_
    simp [Entry.apply, hnone]
  | evict key =>
    intro k hk
    by_cases heq : k = key
    · simp [Entry.apply, heq] at hk
    · exact h k (by rwa [Entry.apply, Function.update_of_ne heq] at hk)

theorem Ledger.Within.foldl {m : Ledger} (h : m.Within K) {es : List Entry}
    (hes : ∀ entry ∈ es, entry.Within K) : Ledger.Within K (es.foldl Entry.apply m) := by
  induction es generalizing m with
  | nil => exact h
  | cons entry es ih =>
    obtain ⟨hentry, hes⟩ := List.forall_mem_cons.mp hes
    exact ih (h.apply hentry) hes

omit [DecidableEq ω] [DecidableEq ℓ] in
theorem Act.Within.entries (h : act.Within K) :
    ∀ entry ∈ VhostTrafficStatus.entries e s act, entry.Within K := by
  intro entry hentry
  cases act with
  | account w l key type r info alloc =>
    rw [VhostTrafficStatus.entries] at hentry
    split_ifs at hentry
    · cases hentry
    · rcases List.mem_append.mp hentry with hevict | haccount
      · obtain ⟨key, -, rfl⟩ := List.mem_map.mp hevict
        trivial
      · obtain rfl := List.mem_singleton.mp haccount
        exact h.1
    · obtain rfl := List.mem_singleton.mp (List.nil_append _ ▸ hentry)
      exact h.1
  | read w l key type always => cases hentry
  | delete range room =>
    rw [VhostTrafficStatus.entries] at hentry
    split_ifs at hentry
    · obtain rfl := List.mem_singleton.mp hentry
      trivial
    · cases hentry
  | reset range room =>
    rw [VhostTrafficStatus.entries] at hentry
    split_ifs at hentry
    · obtain rfl := List.mem_singleton.mp hentry
      trivial
    · cases hentry
  | restore v key alloc =>
    rw [VhostTrafficStatus.entries] at hentry
    split_ifs at hentry
    · cases hentry
    · obtain ⟨_, -, rfl⟩ := List.mem_map.mp hentry
      exact h.1
  | start w => cases hentry

/-- A run does to the ledger what its entries say, one after the other. -/
theorem shm_contents {s₀ : Shm ω ℓ} {acts : List (Act ω ℓ)} (hK : Set.InjOn e.crc32 K)
    (hinit : (shmSys ω ℓ e).init s₀)
    (h : (shmSys ω ℓ e).Run (fun _ act => act.Within K) s₀ acts s) :
    s.Wf e ∧ s.Keyed K ∧ contents e s =
      ((shmSys ω ℓ e).log (entries e) s₀ acts).foldl Entry.apply fun _ => none := by
  induction h with
  | nil =>
    have hwf := shm_wf_init hinit
    obtain rfl : s₀ = _ := hinit
    exact ⟨hwf, by simp [Shm.Keyed], rfl⟩
  | snoc hr hC hs ih =>
    obtain ⟨hwf, hkeyed, hcontents⟩ := ih
    have hstep := hwf.contents_step hK hkeyed hC hs
    have hwf' := hwf.step hC.short hs
    refine ⟨hwf', hwf'.keyed_iff.mpr ?_, ?_⟩
    · rw [hstep]
      exact (hwf.keyed_iff.mp hkeyed).foldl hC.entries
    · rw [hstep, hcontents, hr.log_snoc hs, List.foldl_append]

/-- **The zone is its ledger**: whatever the workers do, in whatever order and in however many
locations, the zone has what the entries make of an empty ledger, one after the other, if no two of
the keys have the same hash. It goes on with every action that finds the mutex unlocked and follows
no pointer to a node that was deleted. -/
theorem shm_refines {s₀ : Shm ω ℓ} {acts : List (Act ω ℓ)} (hK : Set.InjOn e.crc32 K)
    (hinit : (shmSys ω ℓ e).init s₀)
    (h : (shmSys ω ℓ e).Run (fun _ act => act.Within K) s₀ acts s) :
    s.Wf e ∧
      contents e s =
        ((shmSys ω ℓ e).log (entries e) s₀ acts).foldl Entry.apply (fun _ => none) ∧
      ∀ act : Act ω ℓ, act.Short → act.Fits e s → ((s.step e act).isSome ↔ act.Ready s) := by
  obtain ⟨hwf, -, hcontents⟩ := shm_contents hK hinit h
  exact ⟨hwf, hcontents, fun _ hshort hfits => hwf.isSome_step_iff hshort hfits⟩

/-- The keys of two servers. -/
def serverNodes : Set (List UInt8) := {serverNode 97, serverNode 98}

theorem serverNodes_injOn : Set.InjOn crc32Short serverNodes := by
  rintro x (rfl | rfl) y (rfl | rfl) h
  · rfl
  · exact absurd h (by decide +kernel)
  · exact absurd h (by decide +kernel)
  · rfl

theorem twoServers_within : ∀ act ∈ twoServers, act.Within serverNodes := by
  have ha : serverNode 97 ∈ serverNodes := .inl rfl
  have hb : serverNode 98 ∈ serverNodes := .inr rfl
  have hlen : ∀ name, (serverNode name).length < 2 ^ 16 := by
    intro name
    simp only [serverNode, generateKey, groupToString, List.length_append, List.length_cons,
      List.length_nil]
    omega
  intro act hact
  simp only [twoServers, List.mem_cons, List.not_mem_nil, or_false] at hact
  rcases hact with rfl | rfl | rfl | rfl | rfl | rfl
  · exact ⟨ha, hlen _⟩
  · exact ⟨ha, hlen _⟩
  · exact ⟨hb, hlen _⟩
  · trivial
  · trivial
  · exact ⟨hb, hlen _⟩

/-- Two workers, two servers and a reset. -/
theorem shm_refines_twoServers : ∃ s : Shm Bool Unit,
    (shmSys Bool Unit noLimit).exec freshShm twoServers = some s ∧
      contents noLimit s =
        ((shmSys Bool Unit noLimit).log (entries noLimit) freshShm twoServers).foldl
          Entry.apply fun _ => none := by
  obtain ⟨s, hs, -⟩ : ∃ s, (shmSys Bool Unit noLimit).exec freshShm twoServers = some s ∧
      s.locked = false := by
    refine Option.map_eq_some_iff.mp ?_
    decide +kernel
  obtain ⟨-, hcontents, -⟩ := shm_refines serverNodes_injOn rfl
    ((Sys.run_of_exec hs).mono_mem fun _ act hact _ => twoServers_within act hact)
  exact ⟨s, hs, hcontents⟩

/-! ### The requests of a key -/

/-- Requests are accounted, and nodes are read, under keys of their groups. -/
def Act.Counts (K : Set (List UInt8)) : Act ω ℓ → Prop
  | .account _ _ key type _ _ _ =>
    key ∈ K ∧ key.length < 2 ^ 16 ∧ ∃ dst, key = generateKey dst type
  | .read _ _ key type _ => ∃ dst, key = generateKey dst type
  | .start _ => True
  | _ => False

/-- The requests of a key, each with the memory for a node where there was some. -/
def requestsOf (key : List UInt8) (acts : List (Act ω ℓ)) : List (Access × Option TrafficNode) :=
  acts.filterMap fun
    | .account _ _ k _ r _ alloc => if k = key then some (r, alloc.raw) else none
    | _ => none

omit [DecidableEq ω] [DecidableEq ℓ] in
theorem Act.Counts.within (h : act.Counts K) : act.Within K := by
  cases act <;> first | exact ⟨h.1, h.2.1⟩ | trivial

/-- A key's node, one request further. -/
def accountNode (type : Group) (m : Option TrafficNode) (r : Access × Option TrafficNode) :
    Option TrafficNode :=
  match m with
  | some v => some (nextAccess type v r.1)
  | none => r.2.map (firstAccess type r.1)

theorem foldl_accountNode_some (type : Group) (v : TrafficNode)
    (rs : List (Access × Option TrafficNode)) :
    rs.foldl (accountNode type) (some v) = some ((rs.map Prod.fst).foldl (nextAccess type) v) := by
  induction rs generalizing v with
  | nil => rfl
  | cons r rs ih => rw [List.foldl_cons, accountNode, ih, List.map_cons, List.foldl_cons]

/-- The first request for which there is memory makes the node. -/
theorem foldl_accountNode_none (type : Group) (rs : List (Access × Option TrafficNode)) :
    match rs.dropWhile fun r => r.2.isNone with
    | [] => rs.foldl (accountNode type) none = none
    | (r, _) :: rest => ∃ v, rs.foldl (accountNode type) none = some v ∧
      Reports type r (rest.map Prod.fst) v := by
  induction rs with
  | nil => rfl
  | cons p rs ih =>
    obtain ⟨r, raw⟩ := p
    cases raw with
    | none => simpa [accountNode] using ih
    | some raw =>
      refine ⟨replay type raw r (rs.map Prod.fst), ?_, replay_reports type raw r _⟩
      rw [List.foldl_cons, accountNode, Option.map_some, foldl_accountNode_some]
      rfl

omit [DecidableEq ω] [DecidableEq ℓ] in
/-- What an action does to the node of a key. -/
theorem Act.Counts.apply_entries (h : act.Counts K) (hmax : e.filterMaxNode = 0) (m : Ledger)
    (dst : List UInt8) (type : Group) :
    (entries e s act).foldl Entry.apply m (generateKey dst type) =
      (requestsOf (generateKey dst type) [act]).foldl (accountNode type)
        (m (generateKey dst type)) := by
  cases act with
  | account w l key type' r info alloc =>
    obtain ⟨-, -, dst', rfl⟩ := h
    have hne : generateKey dst' type' ≠ [] := by simp [generateKey]
    have hevicted : evicted e info s = none := by simp [evicted, findLru, hmax]
    rw [entries, if_neg hne, hevicted]
    by_cases hkey : generateKey dst' type' = generateKey dst type
    · obtain ⟨rfl, rfl⟩ := generateKey_inj.mp hkey
      simp only [Option.toList_none, List.map_nil, ite_self, List.nil_append, List.foldl_cons,
        List.foldl_nil, Entry.apply, Function.update_self, requestsOf, List.filterMap_cons,
        List.filterMap_nil, ↓reduceIte]
      rfl
    · simp [Entry.apply, requestsOf, hkey, Function.update_of_ne (Ne.symm hkey)]
  | read w l key type always => rfl
  | delete range room => exact h.elim
  | reset range room => exact h.elim
  | restore v key alloc => exact h.elim
  | start w => rfl

/-- **A key's node says what the requests of the key were**, by whatever workers and in whatever
locations they were accounted, from the first one on for which there was memory for a node; if no
two keys have the same hash. -/
theorem shm_reports {s₀ : Shm ω ℓ} {acts : List (Act ω ℓ)} (hmax : e.filterMaxNode = 0)
    (hK : Set.InjOn e.crc32 K) (hinit : (shmSys ω ℓ e).init s₀)
    (h : (shmSys ω ℓ e).Run (fun _ act => act.Counts K) s₀ acts s) (dst : List UInt8)
    (type : Group) :
    match (requestsOf (generateKey dst type) acts).dropWhile fun r => r.2.isNone with
    | [] => contents e s (generateKey dst type) = none
    | (r, _) :: rest => ∃ v, contents e s (generateKey dst type) = some v ∧
      Reports type r (rest.map Prod.fst) v := by
  obtain ⟨-, -, hcontents⟩ := shm_contents hK hinit (h.mono fun _ _ hC => hC.within)
  have hfold : ((shmSys ω ℓ e).log (entries e) s₀ acts).foldl Entry.apply (fun _ => none)
      (generateKey dst type) =
      (requestsOf (generateKey dst type) acts).foldl (accountNode type) none := by
    clear hcontents
    induction h with
    | nil => rfl
    | snoc hr hC hs ih =>
      have hsplit : ∀ as bs : List (Act ω ℓ), requestsOf (generateKey dst type) (as ++ bs) =
          requestsOf (generateKey dst type) as ++ requestsOf (generateKey dst type) bs :=
        fun as bs => List.filterMap_append
      rw [hr.log_snoc hs, List.foldl_append, hC.apply_entries hmax, ih, hsplit, List.foldl_append]
  rw [hcontents, hfold]
  exact foldl_accountNode_none type _

/-- Three requests of one server, by two workers; for the first one there is no memory. -/
def threeRequests : List (Act Bool Unit) :=
  [.account true () (serverNode 97) .no shortRequest true .full,
    .account false () (serverNode 97) .no shortRequest true (.slot 1 freshMemory),
    .account true () (serverNode 97) .no shortRequest true .full]

/-- The server's node says what the last two were. -/
theorem shm_reports_threeRequests : ∃ s v,
    (shmSys Bool Unit noLimit).exec freshShm threeRequests = some s ∧
      contents noLimit s (serverNode 97) = some v ∧
      Reports .no shortRequest [shortRequest] v := by
  obtain ⟨s, hs, -⟩ : ∃ s, (shmSys Bool Unit noLimit).exec freshShm threeRequests = some s ∧
      s.locked = false := by
    refine Option.map_eq_some_iff.mp ?_
    decide +kernel
  have hcounts : ∀ act ∈ threeRequests, act.Counts serverNodes := by
    intro act hact
    simp only [threeRequests, List.mem_cons, List.not_mem_nil, or_false] at hact
    rcases hact with rfl | rfl | rfl <;> exact ⟨.inl rfl, by decide, [97], rfl⟩
  obtain ⟨v, hv, hreports⟩ := shm_reports rfl serverNodes_injOn rfl
    ((Sys.run_of_exec hs).mono_mem fun _ act hact _ => hcounts act hact) [97] .no
  exact ⟨s, v, hs, hv, hreports⟩

/-- The key of a filter `h` whose value is `plumless`. -/
def plumless : List UInt8 :=
  generateKey [0x68, 0x1f, 112, 108, 117, 109, 108, 101, 115, 115] .fg

/-- The key of a filter `h` whose value is `buckeroo`. -/
def buckeroo : List UInt8 :=
  generateKey [0x68, 0x1f, 98, 117, 99, 107, 101, 114, 111, 111] .fg

/-- **Two keys of one hash are taken for one** in the location that has just used the other: the
request of the second key is accounted in the node of the first. -/
theorem shm_reports_collision : ∃ s : Shm Bool Unit,
    (shmSys Bool Unit noLimit).exec freshShm
      [.account true () plumless .fg shortRequest true (.slot 1 freshMemory),
        .account true () buckeroo .fg shortRequest true (.slot 2 freshMemory)] = some s ∧
      (contents noLimit s buckeroo).isNone ∧
      (contents noLimit s plumless).map (fun v => v.stat .request) = some 2 := by
  obtain ⟨s, hs, h⟩ : ∃ s, (shmSys Bool Unit noLimit).exec freshShm
      [.account true () plumless .fg shortRequest true (.slot 1 freshMemory),
        .account true () buckeroo .fg shortRequest true (.slot 2 freshMemory)] = some s ∧
      ((contents noLimit s buckeroo).isNone,
        (contents noLimit s plumless).map (fun v => v.stat .request)) = (true, some 2) := by
    refine Option.map_eq_some_iff.mp ?_
    decide +kernel
  exact ⟨s, hs, congrArg Prod.fst h, congrArg Prod.snd h⟩

end NginxTools.VhostTrafficStatus
