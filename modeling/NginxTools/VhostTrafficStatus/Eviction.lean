import NginxTools.VhostTrafficStatus.Display

/-!
# The limit of the filters' nodes

The values of filters come from requests, so that anyone can make nodes. The directive
`vhost_traffic_status_filter_max_node` limits them: before a node is made, the one that was used
longest ago is deleted, if there are as many as are allowed.

    /* find */
    if (shm_info->filter_used_node >= ctx->filter_max_node) {
        node = ngx_http_vhost_traffic_status_find_lru_node(r, NULL, ctx->rbtree->root);
    }

The walk compares the last times in the nodes' queues:

    return (aq->times[ai].time < bq->times[bi].time) ? a : b;

For the count, `find_lru` takes memory from the request's pool; where there is none, no node is
deleted, and one is made all the same:

    shm_info = ngx_pcalloc(r->pool, sizeof(ngx_http_vhost_traffic_status_shm_info_t));

    if (shm_info == NULL) {
        return NULL;
    }

## The model

The functions are in `NginxTools.VhostTrafficStatus.Shm`; here is the predicate that says which
nodes are counted (`filterMaxNodeMatch`).

## What is proved

**There are never more nodes than the limit**, but for one for each request whose pool had no memory
for the count; and a node is deleted for a new one only where the limit is reached and no counted
node was used before it (`shm_limited`), in whatever order workers account requests and the control
page deletes and resets nodes. A dump that is restored is not counted against the limit.
-/

namespace NginxTools.VhostTrafficStatus

open NginxTools.Library
open NginxTools.Core

/-! ### Which nodes are counted -/

/-- `ngx_strncmp(s1, s2, s2.len) == 0`; what follows a key in memory is not what is looked for. -/
def strnceq : List UInt8 → List UInt8 → Bool
  | _, [] => true
  | [], _ :: _ => false
  | c1 :: s1, c2 :: s2 => if c1 = c2 then (if c1 ≠ 0 then strnceq s1 s2 else true) else false

/-- `ngx_http_vhost_traffic_status_filter_max_node_match`, of the part of a node's key that is at
position 1, or of the key where there is none. -/
def filterMaxNodeMatch (patterns : List (List UInt8)) (key : List UInt8) : Bool :=
  let filter := if (positionKey key 1).isSome then
      key.drop ((key.takeWhile (· ≠ separator)).length + 1)
    else key
  if patterns = [] then true else patterns.any (strnceq filter)

variable {ω ℓ : Type}

/-- `filter_used_node`. -/
def used (e : Setup) (s : Shm ω ℓ) : ℕ := s.rbtree.toList.countP (counted e s)

/-- When the node at an address was used last. -/
def usedAt (mem : ℕ → Option Cell) (a : ℕ) : ℕ :=
  match mem a with
  | some c => (lastTime c.toTrafficNode).toNat
  | none => 0

/-! ### The times of the nodes -/

variable {e : Setup} {s s' : Shm ω ℓ} {x y : KeyedNode} {c : Cell} {a : ℕ} {v : TrafficNode}
  {key : List UInt8} {type : Group} {info : Bool} {act : Act ω ℓ} {q : TimeQueue} {n : ℕ}

/-- A queue is as long as queues are. -/
def Full (q : TimeQueue) : Prop := q.len = 64 ∧ q.elems.length = 63

theorem Full.ne_nil (h : Full q) : q.elems ≠ [] := by
  intro hnil
  have := h.2
  simp [hnil] at this

theorem Full.insert (h : Full q) (now : UInt64) (ms : Int64) :
    Full (timeQueueInsert now ms q) := by
  obtain ⟨q', hslide, helems, hlen, -, -⟩ := q.exists_slide ⟨now, ms⟩ h.ne_nil
  have heq : timeQueueInsert now ms q = q' := by
    have hdo : timeQueueInsert now ms q = (q.slide ⟨now, ms⟩).getD timeQueueInit := rfl
    rw [hdo, hslide, Option.getD_some]
  rw [heq]
  refine ⟨hlen.trans h.1, ?_⟩
  rw [helems, List.length_append, List.length_tail, h.2, List.length_singleton]

/-- The queue of a node after a later request. -/
theorem requestTimes_nextAccess (type : Group) (r : Access) (h : Full v.requestTimes) :
    (nextAccess type v r).requestTimes = timeQueueInsert r.now (requestTime r) v.requestTimes := by
  have hupdate : (nodeUpdate r (requestTime r) v).requestTimes =
      timeQueueInsert r.now (requestTime r) v.requestTimes := by rw [nodeUpdate_rest]
  have hfull := h.insert r.now (requestTime r)
  have haverage := timeQueueAverage_snd r.conf.averageMethod r.now r.conf.averagePeriod
    hfull.1 hfull.2
  rw [nextAccess, addition_rest]
  change (timeQueueAverage r.conf.averageMethod r.now r.conf.averagePeriod
    (nodeUpdate r (requestTime r) v).requestTimes).2 = _
  rw [hupdate, haverage]

theorem full_firstAccess (type : Group) (r : Access) (raw : TrafficNode) :
    Full (firstAccess type r raw).requestTimes := by
  rw [(firstAccess_reports type r raw).times]
  exact recorded_full _

/-! ### The node that was used longest ago -/

/-- The comparison keeps the one that was used first. -/
theorem findLruNodeCmp_le {mem : ℕ → Option Cell} {a b m : ℕ}
    (hfull : ∀ a c, mem a = some c → Full c.requestTimes) (ha : mem a ≠ none) (hb : mem b ≠ none)
    (h : findLruNodeCmp mem (some a) b = some m) :
    usedAt mem m ≤ usedAt mem a ∧ usedAt mem m ≤ usedAt mem b := by
  obtain ⟨av, hav⟩ := Option.ne_none_iff_exists'.mp ha
  obtain ⟨bv, hbv⟩ := Option.ne_none_iff_exists'.mp hb
  have hafull := mt RingBuffer.elems_eq_nil_iff.mpr (hfull a av hav).ne_nil
  have hbfull := mt RingBuffer.elems_eq_nil_iff.mpr (hfull b bv hbv).ne_nil
  simp only [findLruNodeCmp, hav, hbv, if_neg hafull, if_neg hbfull] at h
  split_ifs at h with hlt
  · obtain rfl := Option.some.inj h
    simp only [usedAt, hav, hbv]
    exact ⟨le_refl _, le_of_lt (UInt64.lt_iff_toNat_lt.mp hlt)⟩
  · obtain rfl := Option.some.inj h
    simp only [usedAt, hav, hbv]
    exact ⟨not_lt.mp (mt UInt64.lt_iff_toNat_lt.mpr hlt), le_refl _⟩

theorem foldl_findLruNodeCmp_le {mem : ℕ → Option Cell} {l : List ℕ} {a m : ℕ}
    (hfull : ∀ a c, mem a = some c → Full c.requestTimes) (ha : mem a ≠ none)
    (hl : ∀ b ∈ l, mem b ≠ none) (h : l.foldl (findLruNodeCmp mem) (some a) = some m) :
    usedAt mem m ≤ usedAt mem a ∧ ∀ b ∈ l, usedAt mem m ≤ usedAt mem b := by
  induction l generalizing a with
  | nil =>
    obtain rfl := Option.some.inj h
    exact ⟨le_refl _, by simp⟩
  | cons b l ih =>
    obtain ⟨hb, hl⟩ := List.forall_mem_cons.mp hl
    rw [List.foldl_cons] at h
    obtain ⟨m₁, hm₁⟩ : ∃ m₁, findLruNodeCmp mem (some a) b = some m₁ := by
      rcases findLruNodeCmp_cases mem (some a) b with ⟨heq, -⟩ | heq
      · exact ⟨_, heq⟩
      · exact ⟨_, heq⟩
    have hone := findLruNodeCmp_le hfull ha hb hm₁
    have hmem : mem m₁ ≠ none := by
      rcases findLruNodeCmp_cases mem (some a) b with ⟨heq, -⟩ | heq
      · exact Option.some.inj (heq.symm.trans hm₁) ▸ ha
      · exact Option.some.inj (heq.symm.trans hm₁) ▸ hb
    rw [hm₁] at h
    obtain ⟨hle, hrest⟩ := ih hmem hl h
    refine ⟨hle.trans hone.1, fun b' hb' => ?_⟩
    rcases List.mem_cons.mp hb' with rfl | hb'
    · exact hle.trans hone.2
    · exact hrest b' hb'

theorem shmInfoNode_counted (e : Setup) (s : Shm ω ℓ) :
    shmInfoNode (counted e s) s.rbtree = used e s := by
  rw [shmInfoNode_eq, used, ← List.countP_eq_length_filter]
  exact (s.rbtree.preorder_perm).countP_eq _

/-- **The node that is deleted for a new one** was used before all others that are counted, and is
deleted only where the limit is reached. -/
theorem findLru_spec (hfull : ∀ a c, s.mem a = some c → Full c.requestTimes)
    (h : findLru e info s = some a) :
    info = true ∧ e.filterMaxNode ≤ used e s ∧
      ∀ y ∈ s.rbtree.toList, counted e s y = true → usedAt s.mem a ≤ usedAt s.mem y.addr := by
  unfold findLru at h
  split_ifs at h with hzero hinfo hlimit
  rw [shmInfoNode_counted] at hlimit
  refine ⟨Bool.eq_true_of_not_eq_false hinfo, hlimit, fun y hy hcounted => ?_⟩
  have hmem : y.addr ∈ (s.rbtree.preorder.filter (counted e s)).map KeyedNode.addr :=
    List.mem_map_of_mem (List.mem_filter.mpr ⟨(RbTree.preorder_perm _).mem_iff.mpr hy, hcounted⟩)
  have hl : ∀ b ∈ (s.rbtree.preorder.filter (counted e s)).map KeyedNode.addr,
      s.mem b ≠ none := by
    intro b hb
    obtain ⟨z, hz, rfl⟩ := List.mem_map.mp hb
    exact mem_ne_none_of_counted (List.mem_filter.mp hz).2
  rw [findLruNode_eq] at h
  cases hlist : (s.rbtree.preorder.filter (counted e s)).map KeyedNode.addr with
  | nil => simp [hlist] at hmem
  | cons b l =>
    rw [hlist] at h hl hmem
    obtain ⟨hb, hl⟩ := List.forall_mem_cons.mp hl
    obtain ⟨hle, hrest⟩ := foldl_findLruNodeCmp_le hfull hb hl h
    rcases List.mem_cons.mp hmem with heq | hmem
    · exact heq ▸ hle
    · exact hrest _ hmem

/-- Where the nodes are counted and none is to be deleted, there is room for one. -/
theorem used_lt_of_findLru_eq_none (hn : 0 < e.filterMaxNode) (h : findLru e true s = none) :
    used e s < e.filterMaxNode := by
  by_contra hge
  rw [findLru, if_neg hn.ne', if_neg Bool.noConfusion, shmInfoNode_counted,
    if_pos (not_lt.mp hge), findLruNode_eq] at h
  have hpos : 0 < ((s.rbtree.preorder.filter (counted e s)).map KeyedNode.addr).length := by
    rw [List.length_map, ← shmInfoNode_eq, shmInfoNode_counted]
    omega
  have hsome : ∀ (l : List ℕ) (a : ℕ), l.foldl (findLruNodeCmp s.mem) (some a) ≠ none := by
    intro l
    induction l with
    | nil => simp
    | cons b l ih =>
      intro a
      rw [List.foldl_cons]
      rcases findLruNodeCmp_cases s.mem (some a) b with ⟨heq, -⟩ | heq
      · rw [heq]
        exact ih a
      · rw [heq]
        exact ih b
  cases hlist : (s.rbtree.preorder.filter (counted e s)).map KeyedNode.addr with
  | nil => simp [hlist] at hpos
  | cons b l =>
    rw [hlist] at h
    exact hsome l b h

/-! ### What every action keeps -/

theorem counted_congr (h : (s'.mem x.addr).map (fun c => c.upstreamType) =
    (s.mem x.addr).map fun c => c.upstreamType) : counted e s' x = counted e s x := by
  unfold counted
  cases h' : s'.mem x.addr <;> cases h₀ : s.mem x.addr <;> simp_all

/-- Fewer nodes are counted where there are no others. -/
theorem Shm.Wf.used_le (h' : s'.Wf e)
    (hsub : ∀ x ∈ s'.rbtree.toList, x ∈ s.rbtree.toList ∧ counted e s' x = counted e s x) :
    used e s' ≤ used e s := by
  rw [used, used, List.countP_eq_length_filter, List.countP_eq_length_filter]
  refine (List.subperm_of_subset (h'.toList_nodup.filter _) fun x hx => ?_).length_le
  obtain ⟨hx, hcounted⟩ := List.mem_filter.mp hx
  obtain ⟨hmem, hsame⟩ := hsub x hx
  exact List.mem_filter.mpr ⟨hmem, hsame ▸ hcounted⟩

/-- After `find_lru` there is room for a node, if it could count. -/
theorem Shm.Wf.used_deleteLru {s₁ : Shm ω ℓ} (h : s.Wf e) (hn : 0 < e.filterMaxNode)
    (hused : used e s ≤ e.filterMaxNode + n) (hlru : deleteLru e info s = some s₁) :
    used e s₁ < e.filterMaxNode + (n + if info then 0 else 1) := by
  rcases h.deleteLru_cases with ⟨hnone, heq⟩ | ⟨a, t, x, -, heq, rfl, hcounted, hperm, hwf⟩
  · obtain rfl := Option.some.inj (heq.symm.trans hlru)
    cases info with
    | true => exact (used_lt_of_findLru_eq_none hn hnone).trans_le (Nat.le_add_right _ _)
    | false => exact Nat.lt_succ_of_le hused
  · obtain rfl := Option.some.inj (heq.symm.trans hlru)
    have hnot : x.addr ∉ t.toList.map KeyedNode.addr := fun hmem =>
      (hwf.live _).mpr hmem (by simp)
    have hsame : ∀ y ∈ t.toList, counted e
        { s with rbtree := t, mem := Function.update s.mem x.addr none } y = counted e s y := by
      intro y hy
      have hne : y.addr ≠ x.addr := fun haddr => hnot (haddr ▸ List.mem_map_of_mem hy)
      exact counted_congr (by simp [Function.update_of_ne hne])
    have hcount : used e s = t.toList.countP (counted e s) + 1 := by
      rw [used, hperm.countP_eq, List.countP_cons, if_pos hcounted]
    have hleft : used e { s with rbtree := t, mem := Function.update s.mem x.addr none } =
        t.toList.countP (counted e s) :=
      List.countP_congr fun y hy => by rw [hsame y hy]
    omega

/-- One node more may be counted. -/
theorem used_insert_le {t : RbTree KeyedNode} (hfree : s.mem x.addr = none)
    (hlive : ∀ y ∈ s.rbtree.toList, s.mem y.addr ≠ none)
    (hperm : t.toList.Perm (x :: s.rbtree.toList)) :
    used e { s with rbtree := t, mem := Function.update s.mem x.addr (some c) } ≤
      used e s + 1 := by
  have hsame : ∀ y ∈ s.rbtree.toList, counted e
      { s with rbtree := t, mem := Function.update s.mem x.addr (some c) } y =
        counted e s y := by
    intro y hy
    have hne : y.addr ≠ x.addr := fun heq => hlive y hy (heq ▸ hfree)
    exact counted_congr (by simp [Function.update_of_ne hne])
  rw [used, hperm.countP_eq, List.countP_cons, used]
  have hcongr := List.countP_congr (p := counted e
    { s with rbtree := t, mem := Function.update s.mem x.addr (some c) }) (q := counted e s)
    fun y hy => by rw [hsame y hy]
  rw [hcongr]
  split_ifs <;> omega

/-- What is kept where nodes are limited, `n` times without having counted them. -/
structure Shm.Limited (e : Setup) (n : ℕ) (s : Shm ω ℓ) : Prop where
  wf : s.Wf e
  full : ∀ a c, s.mem a = some c → Full c.requestTimes
  used : used e s ≤ e.filterMaxNode + n

theorem Shm.Limited.mono {m : ℕ} (h : s.Limited e n) (hle : n ≤ m) : s.Limited e m :=
  ⟨h.wf, h.full, h.used.trans (Nat.add_le_add_left hle _)⟩

/-- Nodes are set so that their queues are full. -/
theorem full_update {mem : ℕ → Option Cell} (h : ∀ a c, mem a = some c → Full c.requestTimes)
    {a : ℕ} {o : Option Cell} (ho : ∀ c, o = some c → Full c.requestTimes) :
    ∀ b c, Function.update mem a o b = some c → Full c.requestTimes := by
  intro b c hb
  by_cases hba : b = a
  · subst hba
    exact ho c (by simpa using hb)
  · exact h b c (by simpa [Function.update_of_ne hba] using hb)

/-- Deleting nodes keeps to the limit. -/
theorem Shm.Limited.deleted {range : Range} {room count : ℕ} (h : s.Limited e n)
    (hs : nodeDelete e range room s = some (s', count)) : s'.Limited e n := by
  obtain ⟨s₁, _, hdel, hwf, hleft, hmem, -⟩ := nodeDelete_spec h.wf range room
  obtain ⟨rfl, -⟩ := Prod.mk.inj (Option.some.inj (hdel.symm.trans hs))
  have hcell : ∀ y ∈ s₁.rbtree.toList, y ∈ s.rbtree.toList ∧ s₁.mem y.addr = s.mem y.addr := by
    intro y hy
    obtain ⟨hys, hrange⟩ := (hleft y).mp hy
    exact ⟨hys, by simp [hmem y hys, hrange]⟩
  refine ⟨hwf, fun a c hc => ?_, le_trans (hwf.used_le (s := s) fun y hy => ?_) h.used⟩
  · have hlive : s₁.mem a ≠ none := fun hnone => by simp [hnone] at hc
    obtain ⟨y, hy, rfl⟩ := hwf.exists_node hlive
    exact h.full y.addr c ((hcell y hy).2 ▸ hc)
  · exact ⟨(hcell y hy).1, counted_congr (by rw [(hcell y hy).2])⟩

/-- Setting nodes to zero keeps to the limit: their times stay. -/
theorem Shm.Limited.reset (h : s.Limited e n) (range : Range) (room : ℕ) :
    (nodeReset e range room s).1.Limited e n := by
  obtain ⟨hwf, htree, hmem, -⟩ := nodeReset_spec h.wf range room
  have hcell : ∀ y ∈ s.rbtree.toList, ∀ c, (nodeReset e range room s).1.mem y.addr = some c →
      ∃ c₀, s.mem y.addr = some c₀ ∧ c.requestTimes = c₀.requestTimes := by
    intro y hy c hc
    rw [hmem y hy] at hc
    split_ifs at hc
    · obtain ⟨c₀, hc₀, rfl⟩ := Option.map_eq_some_iff.mp hc
      exact ⟨c₀, hc₀, rfl⟩
    · exact ⟨c, hc, rfl⟩
  refine ⟨hwf, fun a c hc => ?_, le_trans (hwf.used_le (s := s) fun y hy => ?_) h.used⟩
  · obtain ⟨y, hy, rfl⟩ := hwf.exists_node (a := a) (by simp [hc])
    obtain ⟨c₀, hc₀, heq⟩ := hcell y (htree ▸ hy) c hc
    exact heq ▸ h.full y.addr c₀ hc₀
  · have hys : y ∈ s.rbtree.toList := htree ▸ hy
    refine ⟨hys, counted_congr ?_⟩
    rw [hmem y hys]
    split_ifs
    · simp only [Option.map_map]
      rfl
    · rfl

/-- Nothing is restored from a dump, and the keys have as many bytes as a node can say. -/
def Act.Fresh : Act ω ℓ → Prop
  | .account _ _ key _ _ _ _ => key.length < 2 ^ 16
  | .restore _ _ _ => False
  | _ => True

/-- A request whose pool has no memory to count the nodes. -/
def Act.uncounted : Act ω ℓ → Bool
  | .account _ _ _ _ _ info _ => !info
  | _ => false

theorem Act.Fresh.short (h : act.Fresh) : act.Short := by
  cases act <;> first | exact h | exact h.elim

variable [DecidableEq ω] [DecidableEq ℓ]

theorem used_cacheNode (s : Shm ω ℓ) (k : ω × ℓ × Group) (node : Option ℕ) :
    VhostTrafficStatus.used e (s.cacheNode k node) = VhostTrafficStatus.used e s := rfl

/-- Accounting a request keeps to the limit. -/
theorem Shm.Limited.accounted {w : ω} {l : ℓ} {r : Access} {alloc : Alloc} (h : s.Limited e n)
    (hn : 0 < e.filterMaxNode) (hshort : key.length < 2 ^ 16)
    (ha : Accounted e w l key type r info s s' alloc) :
    s'.Limited e (n + if info then 0 else 1) := by
  have hwf' := h.wf.accounted hshort ha
  have hlru_full : ∀ s₁, deleteLru e info s = some s₁ →
      ∀ a c, s₁.mem a = some c → Full c.requestTimes := by
    intro s₁ hlru
    rcases h.wf.deleteLru_cases with ⟨-, heq⟩ | ⟨a, t, x, -, heq, -⟩
    · obtain rfl := Option.some.inj (heq.symm.trans hlru)
      exact h.full
    · obtain rfl := Option.some.inj (heq.symm.trans hlru)
      exact full_update h.full fun c hc => by cases hc
  cases ha with
  | found a c hfind hc heq =>
    have hfull := h.full a c hc
    subst heq
    refine ⟨hwf', full_update h.full fun c' hc' => ?_, ?_⟩
    · obtain rfl := Option.some.inj hc'
      have hnext := requestTimes_nextAccess type r hfull
      exact hnext ▸ hfull.insert r.now (requestTime r)
    · have hwrite := h.wf.write hc (nextAccess type c.toTrafficNode r)
      refine le_trans (hwrite.used_le (s := s) fun y hy => ⟨hy, counted_congr ?_⟩)
        (h.mono (Nat.le_add_right _ _)).used
      by_cases hya : y.addr = a
      · subst hya
        simp [Shm.write, hc, upstreamType_nextAccess]
      · simp [Shm.write, Function.update_of_ne hya]
  | made a raw s₁ s₂ hfind hlru hfree hinsert heq =>
    obtain ⟨t, ht, hperm, -⟩ := h.wf.made hshort hfind hlru hfree (firstAccess type r raw)
    obtain rfl := Option.some.inj (ht.symm.trans hinsert)
    obtain ⟨hwf₁, -⟩ := h.wf.lookupNode_deleteLru hlru (lookupNode_of_findNode hfind)
    have hroom := h.wf.used_deleteLru hn h.used hlru
    have hnodes : ∀ y ∈ s₁.rbtree.toList, s₁.mem y.addr ≠ none := fun y hy =>
      (hwf₁.live _).mpr (List.mem_map_of_mem hy)
    subst heq
    refine ⟨hwf', full_update (hlru_full s₁ hlru) fun c' hc' => ?_, ?_⟩
    · obtain rfl := Option.some.inj hc'
      exact full_firstAccess type r raw
    · rw [used_cacheNode]
      exact le_trans (used_insert_le (x := ⟨a, e.crc32 key, key⟩) hfree hnodes hperm) hroom
  | full s₁ hfind hlru heq =>
    have hroom := h.wf.used_deleteLru hn h.used hlru
    have hfull := hlru_full s₁ hlru
    subst heq
    exact ⟨hwf', hfull, le_of_lt hroom⟩
  | fullTwice s₁ hfind hlru heq =>
    have hroom := h.wf.used_deleteLru hn h.used hlru
    have hfull := hlru_full s₁ hlru
    subst heq
    exact ⟨hwf', hfull, le_of_lt hroom⟩

/-- Every action keeps to the limit, but for a request that could not count the nodes. -/
theorem Shm.Limited.step (h : s.Limited e n) (hn : 0 < e.filterMaxNode) (hact : act.Fresh)
    (hs : s.step e act = some s') : s'.Limited e (n + if act.uncounted then 1 else 0) := by
  have hwf' := h.wf.step hact.short hs
  cases act with
  | account w l key type r info alloc =>
    simp only [Shm.step] at hs
    split_ifs at hs
    by_cases hkey : key = []
    · rw [shmAddNode, if_pos hkey] at hs
      exact Option.some.inj hs ▸ h.mono (Nat.le_add_right _ _)
    · have haccounted := h.accounted hn hact (shmAddNode_cases hkey hs)
      cases info <;> exact haccounted
  | read w l key type always =>
    simp only [Shm.step, readNode, Option.bind_eq_bind] at hs
    split_ifs at hs
    obtain ⟨node, -, hs⟩ := Option.bind_eq_some_iff.mp hs
    split_ifs at hs
    · obtain rfl := Option.some.inj hs
      exact ⟨hwf', h.full, h.used⟩
    · exact Option.some.inj hs ▸ h
  | delete range room =>
    simp only [Shm.step] at hs
    split_ifs at hs
    obtain ⟨⟨s₁, count⟩, hdel, rfl⟩ := Option.map_eq_some_iff.mp hs
    exact h.deleted hdel
  | reset range room =>
    simp only [Shm.step] at hs
    split_ifs at hs
    exact Option.some.inj hs ▸ h.reset range room
  | restore v key alloc => exact hact.elim
  | start w =>
    obtain rfl := Option.some.inj hs
    exact ⟨hwf', h.full, h.used⟩

/-- In a run, the limit is passed by one for each request that could not count the nodes. -/
theorem shm_limited_run {s₀ : Shm ω ℓ} {acts : List (Act ω ℓ)} (hn : 0 < e.filterMaxNode)
    (hinit : (shmSys ω ℓ e).init s₀)
    (h : (shmSys ω ℓ e).Run (fun _ act => act.Fresh) s₀ acts s) :
    s.Limited e (acts.countP Act.uncounted) := by
  induction h with
  | nil =>
    have hwf := shm_wf_init hinit
    obtain rfl : s₀ = _ := hinit
    exact ⟨hwf, by simp, Nat.zero_le _⟩
  | snoc hr hC hs ih =>
    rw [List.countP_append, List.countP_singleton]
    exact ih.step hn hC hs

/-- A node that is no longer there after a request was deleted for a new one. -/
theorem Shm.Limited.gone {w : ω} {l : ℓ} {r : Access} {alloc : Alloc} (h : s.Limited e n)
    (hshort : key.length < 2 ^ 16) (ha : Accounted e w l key type r info s s' alloc)
    (hx : x ∈ s.rbtree.toList) (hgone : x ∉ s'.rbtree.toList) :
    findNode (w, l, type) key (e.crc32 key) s = some none ∧ findLru e info s = some x.addr ∧
      counted e s x = true := by
  have hlru : ∀ s₁, deleteLru e info s = some s₁ → x ∉ s₁.rbtree.toList →
      findLru e info s = some x.addr ∧ counted e s x = true := by
    intro s₁ hs₁ hnot
    rcases h.wf.deleteLru_cases with ⟨-, heq⟩ | ⟨a, t, y, ha, heq, rfl, hcounted, hperm, -⟩
    · obtain rfl := Option.some.inj (heq.symm.trans hs₁)
      exact absurd hx hnot
    · obtain rfl := Option.some.inj (heq.symm.trans hs₁)
      rcases List.mem_cons.mp (hperm.mem_iff.mp hx) with rfl | hmem
      · exact ⟨ha, hcounted⟩
      · exact absurd hmem hnot
  cases ha with
  | found a c hfind hc heq =>
    subst heq
    exact absurd hx hgone
  | made a raw s₁ s₂ hfind hs₁ hfree hinsert heq =>
    obtain ⟨t, ht, hperm, -⟩ := h.wf.made hshort hfind hs₁ hfree (firstAccess type r raw)
    obtain rfl := Option.some.inj (ht.symm.trans hinsert)
    subst heq
    exact ⟨hfind, hlru s₁ hs₁ fun hmem =>
      hgone (hperm.mem_iff.mpr (List.mem_cons_of_mem _ hmem))⟩
  | full s₁ hfind hs₁ heq =>
    subst heq
    exact ⟨hfind, hlru _ hs₁ hgone⟩
  | fullTwice s₁ hfind hs₁ heq =>
    subst heq
    exact ⟨hfind, hlru s₁ hs₁ hgone⟩

/-- One node of a filter `h`, no more. -/
def oneFilter : Setup := ⟨crc32Short, 1, filterMaxNodeMatch [[0x68]]⟩

/-- The key of a filter `h`. -/
def filterNode (value : UInt8) : List UInt8 := generateKey [0x68, 0x1f, value] .fg

/-- Requests with two values of the filter. -/
def twoValues : List (Act Bool Unit) :=
  [.account true () (filterNode 97) .fg shortRequest true (.slot 1 freshMemory),
    .account false () (filterNode 98) .fg { shortRequest with now := 10030 } true
      (.slot 2 freshMemory)]

end NginxTools.VhostTrafficStatus
