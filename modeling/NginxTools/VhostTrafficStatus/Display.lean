import NginxTools.VhostTrafficStatus.Ledger

/-!
# The sum of the servers

The page of the module shows the nodes of all servers and, under the name `*`, their sum, which is
taken in the walk over the tree:

    ovtsn = vtscf->stats;
    ...
    /* calculates the sum */
    vtscf->stats.stat_request_counter += vtsn->stat_request_counter;
    ...
    vtscf->stats.stat_request_counter_oc += vtsn->stat_request_counter_oc;
    ...
    ngx_http_vhost_traffic_status_add_oc((&ovtsn), (&vtscf->stats));

## The model

`displaySetServer` is the walk, with what it makes of `vtscf->stats`; the text of the page is left
out.

## What is proved

**No request is lost, and none is counted twice**, whether or not keys have the same hash: the nodes
of a group have counted together what was accounted for the group, by whatever workers, and the sum
that is shown is that of the servers (`shm_conserves`). What holds it up is that a pointer that is
kept for a group is to a node of the group (`Shm.Typed`).
-/

namespace NginxTools.VhostTrafficStatus

open NginxTools.Library
open NginxTools.Core

/-! ### The functions -/

/-- A turn of `ngx_http_vhost_traffic_status_node_time_queue_merge`. -/
def mergeTurn (x : UInt64) (b : TimeQueue) (a : TimeQueue) (i : ℕ) : TimeQueue :=
  let time := if (a.slots i).time > (b.slots i).time then (a.slots i).time else (b.slots i).time
  let msec := if x < time then
      ((a.slots i).msec + (b.slots i).msec) / 2 + ((a.slots i).msec + (b.slots i).msec) % 2
    else 0
  { a with slots := Function.update a.slots i ⟨time, msec⟩ }

/-- `ngx_http_vhost_traffic_status_node_time_queue_merge`. -/
def timeQueueMerge (now period : UInt64) (a b : TimeQueue) : TimeQueue :=
  a.loop (mergeTurn (since now period) b) a

/-- "calculates the sum". -/
def addStats (now period : UInt64) (stats v : TrafficNode) : TrafficNode :=
  addOc stats { stats with
    stat := fun c => stats.stat c + v.stat c
    requestTimes := timeQueueMerge now period stats.requestTimes v.requestTimes
    statOc := fun c => stats.statOc c + v.statOc c }

/-- `vtscf->stats`, before the walk. Nothing is read of the upstream's part. -/
def initStats : TrafficNode :=
  ⟨fun _ => 0, fun _ => 0, 0, timeQueueInit, [], 0, 0, 0, .no, ⟨0, 0, timeQueueInit, []⟩⟩

variable {ω ℓ : Type}

/-- `ngx_http_vhost_traffic_status_display_set_server`: what becomes of `vtscf->stats`. -/
def displaySetServer (now period : UInt64) (s : Shm ω ℓ) (stats : TrafficNode) : TrafficNode :=
  s.rbtree.walk (fun stats x =>
    match s.mem x.addr with
    | some c => if c.upstreamType = .no then addStats now period stats c.toTrafficNode else stats
    | none => stats) stats

/-! ### The sum of a group -/

/-- What the node at an address has counted, if it is one of the group. -/
def share (s : Shm ω ℓ) (g : Group) (k : Counter) (a : ℕ) : ℕ :=
  match s.mem a with
  | some c => if c.upstreamType = g then c.total k else 0
  | none => 0

/-- What the nodes of a group have counted. -/
def groupTotal (s : Shm ω ℓ) (g : Group) (k : Counter) : ℕ :=
  (s.rbtree.toList.map fun x => share s g k x.addr).sum

variable {e : Setup} {s s' : Shm ω ℓ} {x : KeyedNode} {c : Cell} {a : ℕ} {v : TrafficNode}
  {key : List UInt8} {type g : Group} {act : Act ω ℓ}

theorem addStats_total (now period : UInt64) (stats v : TrafficNode) (k : Counter) :
    (addStats now period stats v).total k ≡ stats.total k + v.total k [MOD 2 ^ 128] :=
  wide_add (stats.stat k) (stats.statOc k) (v.stat k) (v.statOc k)

/-- **The sum that is shown** is that of the servers. -/
theorem displaySetServer_total (now period : UInt64) (s : Shm ω ℓ) (k : Counter) :
    (displaySetServer now period s initStats).total k ≡ groupTotal s .no k [MOD 2 ^ 128] := by
  have hfold : ∀ (l : List KeyedNode) (stats : TrafficNode),
      (l.foldl (fun stats x =>
        match s.mem x.addr with
        | some c =>
          if c.upstreamType = .no then addStats now period stats c.toTrafficNode else stats
        | none => stats) stats).total k ≡
      stats.total k + (l.map fun x => share s .no k x.addr).sum [MOD 2 ^ 128] := by
    intro l
    induction l with
    | nil => exact fun stats => Nat.ModEq.refl _
    | cons x l ih =>
      intro stats
      rw [List.foldl_cons, List.map_cons, List.sum_cons, ← Nat.add_assoc]
      refine (ih _).trans (Nat.ModEq.add_right _ ?_)
      cases hx : s.mem x.addr with
      | none => simp [share, hx, Nat.ModEq.refl]
      | some c =>
        simp only [share, hx]
        split_ifs
        · exact addStats_total now period stats c.toTrafficNode k
        · rfl
  have hzero : initStats.total k = 0 := rfl
  have h := hfold s.rbtree.preorder initStats
  rw [hzero, Nat.zero_add] at h
  rw [((s.rbtree.preorder_perm).map _).sum_eq] at h
  rw [displaySetServer, RbTree.walk_eq]
  exact h

/-- One node's share of the sum changes. -/
theorem sum_share {f f' : ℕ → ℕ} {l : List KeyedNode} (hnodup : (l.map KeyedNode.addr).Nodup)
    (hx : x ∈ l) (hother : ∀ a ≠ x.addr, f' a = f a) :
    (l.map fun y => f' y.addr).sum + f x.addr = (l.map fun y => f y.addr).sum + f' x.addr := by
  induction l with
  | nil => cases hx
  | cons y l ih =>
    rw [List.map_cons, List.nodup_cons] at hnodup
    simp only [List.map_cons, List.sum_cons]
    rcases List.mem_cons.mp hx with rfl | hx
    · have hsame : (l.map fun y => f' y.addr) = l.map fun y => f y.addr :=
        List.map_congr_left fun z hz =>
          hother _ fun heq => hnodup.1 (heq ▸ List.mem_map_of_mem hz)
      rw [hsame]
      omega
    · have hne : y.addr ≠ x.addr := fun heq => hnodup.1 (heq ▸ List.mem_map_of_mem hx)
      have := ih hnodup.2 hx
      rw [hother _ hne]
      omega

/-- A node is set. -/
theorem Shm.Wf.groupTotal_write (h : s.Wf e) (hc : s.mem a = some c) (c' : Cell) (g : Group)
    (k : Counter) : groupTotal (s.write a c') g k + share s g k a =
      groupTotal s g k + share (s.write a c') g k a := by
  obtain ⟨x, hx, rfl⟩ := h.exists_node (a := a) (by simp [hc])
  refine sum_share h.nodup hx fun b hb => ?_
  simp [share, Shm.write, Function.update_of_ne hb]

/-- A node is made. -/
theorem groupTotal_insert {t : RbTree KeyedNode} (hfree : s.mem x.addr = none)
    (hlive : ∀ y ∈ s.rbtree.toList, s.mem y.addr ≠ none)
    (hperm : t.toList.Perm (x :: s.rbtree.toList)) (g : Group) (k : Counter) :
    groupTotal { s with rbtree := t, mem := Function.update s.mem x.addr (some c) } g k =
      (if c.upstreamType = g then c.total k else 0) + groupTotal s g k := by
  rw [groupTotal, (hperm.map _).sum_eq, List.map_cons, List.sum_cons]
  congr 1
  · simp [share]
  · refine congrArg List.sum (List.map_congr_left fun y hy => ?_)
    have hne : y.addr ≠ x.addr := fun heq => hlive y hy (heq ▸ hfree)
    simp [share, Function.update_of_ne hne]

/-! ### What every action keeps -/

/-- Every node is of the group of its key, and a pointer that is kept for a group is to a node of
the group. -/
structure Shm.Typed (s : Shm ω ℓ) : Prop where
  node : ∀ x ∈ s.rbtree.toList, ∀ c, s.mem x.addr = some c →
    ∃ dst, x.data = generateKey dst c.upstreamType
  pointer : ∀ k a, s.nodeCaches k = some a → ∀ c, s.mem a = some c → c.upstreamType = k.2.2

/-- A request does not change the group of its node. -/
theorem upstreamType_nextAccess (type : Group) (v : TrafficNode) (r : Access) :
    (nextAccess type v r).upstreamType = v.upstreamType := by
  have hupdate : (nodeUpdate r (requestTime r) v).upstreamType = v.upstreamType := by
    rw [nodeUpdate_rest]
  rw [nextAccess, addition_rest]
  exact hupdate

/-- A request is added to the counters of its node. -/
theorem nextAccess_total (type : Group) (v : TrafficNode) (r : Access) (k : Counter) :
    (nextAccess type v r).total k ≡ v.total k + (added r k).toNat [MOD 2 ^ 128] := by
  have hstat : (nodeSet r v).stat k = v.stat k + added r k := nodeUpdate_stat r v k
  have hstatOc : (nodeSet r v).statOc k =
      if v.stat k > v.stat k + added r k then v.statOc k + 1 else v.statOc k := by
    have hupdate : (nodeUpdate r (requestTime r) v).statOc = v.statOc := by rw [nodeUpdate_rest]
    rw [← nodeUpdate_stat r v k, ← hupdate]
    rfl
  have hadd := wide_add (v.stat k) (v.statOc k) (added r k) 0
  rw [UInt64.add_zero, wide_zero] at hadd
  rw [nextAccess, addition_rest]
  change wide ((nodeSet r v).stat k) ((nodeSet r v).statOc k) ≡ _ [MOD 2 ^ 128]
  rw [hstat, hstatOc]
  exact hadd

theorem upstreamType_firstAccess (type : Group) (r : Access) (raw : TrafficNode) :
    (firstAccess type r raw).upstreamType = type := (firstAccess_reports type r raw).typed

/-- What is found for a key of a group is a node of the group. -/
theorem Shm.Typed.found {w : ω} {l : ℓ} (h : s.Typed) (hwf : s.Wf e)
    (hkey : ∃ dst, key = generateKey dst type)
    (hfind : findNode (w, l, type) key (e.crc32 key) s = some (some a)) :
    ∃ c, s.mem a = some c ∧ c.upstreamType = type := by
  obtain ⟨dst, rfl⟩ := hkey
  obtain ⟨c, hc, -⟩ := hwf.cell_of_findNode hfind
  refine ⟨c, hc, ?_⟩
  have hlive : s.Live (w, l, type) := by
    by_contra hnot
    rw [findNode_eq_none_iff.mpr hnot] at hfind
    cases hfind
  rcases findNode_spec (w, l, type) _ _ hlive with ⟨b, -, hb, -, -, hfound⟩ | hlookup
  · obtain rfl : a = b := by simpa using hfind.symm.trans hfound
    exact h.pointer _ a hb c hc
  · rw [hfind, Option.some.injEq, eq_comm, Option.map_eq_some_iff] at hlookup
    obtain ⟨x, hx, rfl⟩ := hlookup
    obtain ⟨hmem, -, hdata⟩ := hwf.tree.lookupNode_iff.mp hx
    obtain ⟨dst', hdst⟩ := h.node x hmem c hc
    exact (generateKey_inj.mp (hdata.symm.trans hdst)).2.symm

variable [DecidableEq ω] [DecidableEq ℓ]

/-- A pointer is kept to a node of the group. -/
theorem Shm.Typed.cacheNode (h : s.Typed) {k : ω × ℓ × Group} {node : Option ℕ}
    (hnode : ∀ a, node = some a → ∃ c, s.mem a = some c ∧ c.upstreamType = k.2.2) :
    (s.cacheNode k node).Typed := by
  refine ⟨h.node, fun k' a ha c hc => ?_⟩
  by_cases hk : k' = k
  · subst hk
    rw [nodeCaches_cacheNode_self] at ha
    obtain ⟨c', hc', htype⟩ := hnode a ha
    obtain rfl := Option.some.inj (hc.symm.trans hc')
    exact htype
  · rw [nodeCaches_cacheNode_of_ne s node hk] at ha
    exact h.pointer k' a ha c hc

omit [DecidableEq ω] [DecidableEq ℓ] in
/-- A node is set, its group apart. -/
theorem Shm.Typed.write (h : s.Typed) (hc : s.mem a = some c) {c' : Cell}
    (htype : c'.upstreamType = c.upstreamType) : (s.write a c').Typed := by
  have hmem : ∀ b cb, (s.write a c').mem b = some cb →
      ∃ cb', s.mem b = some cb' ∧ cb.upstreamType = cb'.upstreamType := by
    intro b cb hb
    by_cases hba : b = a
    · subst hba
      obtain rfl : c' = cb := by simpa [Shm.write] using hb
      exact ⟨c, hc, htype⟩
    · exact ⟨cb, by simpa [Shm.write, Function.update_of_ne hba] using hb, rfl⟩
  refine ⟨fun x hx cx hcx => ?_, fun k b hb cb hcb => ?_⟩
  · obtain ⟨cx', hcx', heq⟩ := hmem _ _ hcx
    exact heq ▸ h.node x hx cx' hcx'
  · obtain ⟨cb', hcb', heq⟩ := hmem _ _ hcb
    exact heq ▸ h.pointer k b hb cb' hcb'

omit [DecidableEq ω] [DecidableEq ℓ] in
/-- A node is made, at an address that no pointer is to. -/
theorem Shm.Typed.insertNode (h : s.Typed) {t : RbTree KeyedNode} (hfree : s.mem x.addr = none)
    (hlive : ∀ k, s.Live k) (hperm : t.toList.Perm (x :: s.rbtree.toList))
    (hnodes : ∀ y ∈ s.rbtree.toList, s.mem y.addr ≠ none)
    (hkey : ∃ dst, x.data = generateKey dst c.upstreamType) :
    Shm.Typed { s with rbtree := t, mem := Function.update s.mem x.addr (some c) } := by
  refine ⟨fun y hy cy hcy => ?_, fun k b hb cb hcb => ?_⟩
  · rcases List.mem_cons.mp (hperm.mem_iff.mp hy) with rfl | hy
    · obtain rfl : c = cy := by simpa using hcy
      exact hkey
    · have hne : y.addr ≠ x.addr := fun heq => hnodes y hy (heq ▸ hfree)
      exact h.node y hy cy (by simpa [Function.update_of_ne hne] using hcy)
  · have hne : b ≠ x.addr := fun heq => hlive k b hb (heq ▸ hfree)
    exact h.pointer k b hb cb (by simpa [Function.update_of_ne hne] using hcb)

/-! ### Any order of the workers -/

/-- The request that an action accounts, with its group. -/
def accounts (e : Setup) (s : Shm ω ℓ) : Act ω ℓ → List (Group × Access)
  | .account w l key type r _ alloc =>
    if findNode (w, l, type) key (e.crc32 key) s = some none ∧ alloc.raw.isNone then []
    else [(type, r)]
  | .read _ _ _ _ _ => []
  | .delete _ _ => []
  | .reset _ _ => []
  | .restore _ _ _ => []
  | .start _ => []

/-- What a request adds to a counter of a group. -/
def addedTo (g : Group) (k : Counter) (p : Group × Access) : ℕ :=
  if p.1 = g then (added p.2 k).toNat else 0

theorem modEq_of_eq {n a b : ℕ} (h : a = b) : a ≡ b [MOD n] := congrArg (· % n) h

/-- A share of a sum changes by what is added to it. -/
theorem modEq_of_add {n m m' t t' d : ℕ} (h : m' + t = m + t') (ht : t' ≡ t + d [MOD n]) :
    m' ≡ m + d [MOD n] := by
  have hadd : m' + t ≡ m + d + t [MOD n] := by
    rw [h, Nat.add_assoc, Nat.add_comm d t]
    exact ht.add_left m
  exact Nat.ModEq.add_right_cancel' t hadd

omit [DecidableEq ω] [DecidableEq ℓ] in
/-- A node that was there counts a request. -/
theorem Shm.Wf.groupTotal_nextAccess (h : s.Wf e) (hc : s.mem a = some c)
    (htype : c.upstreamType = type) (r : Access) (g : Group) (k : Counter) :
    groupTotal (s.write a ⟨nextAccess type c.toTrafficNode r, c.key⟩) g k ≡
      groupTotal s g k + addedTo g k (type, r) [MOD 2 ^ 128] := by
  have hnext := upstreamType_nextAccess type c.toTrafficNode r
  have hshare := h.groupTotal_write hc ⟨nextAccess type c.toTrafficNode r, c.key⟩ g k
  have hnode := nextAccess_total type c.toTrafficNode r k
  rw [addedTo]
  simp only [share, hc, Shm.write, Function.update_self, hnext, htype] at hshare ⊢
  split_ifs at hshare ⊢ with hg
  · exact modEq_of_add hshare hnode
  · exact modEq_of_eq hshare

omit [DecidableEq ω] [DecidableEq ℓ] in
/-- A node that is made has one request. -/
theorem groupTotal_firstAccess {t : RbTree KeyedNode} {raw : TrafficNode}
    (hfree : s.mem x.addr = none) (hnodes : ∀ y ∈ s.rbtree.toList, s.mem y.addr ≠ none)
    (hperm : t.toList.Perm (x :: s.rbtree.toList)) (r : Access) (g : Group) (k : Counter) :
    groupTotal { s with
        rbtree := t,
        mem := Function.update s.mem x.addr (some ⟨firstAccess type r raw, x.key⟩) } g k ≡
      groupTotal s g k + addedTo g k (type, r) [MOD 2 ^ 128] := by
  have hinsert :=
    groupTotal_insert (c := ⟨firstAccess type r raw, x.key⟩) hfree hnodes hperm g k
  have hfirst := (firstAccess_reports type r raw).total k
  refine (modEq_of_eq hinsert).trans ?_
  rw [Nat.add_comm, addedTo]
  refine Nat.ModEq.add_left _ ?_
  simp only [upstreamType_firstAccess]
  split_ifs
  · simpa using hfirst
  · rfl

/-- What is kept while requests are accounted. -/
structure Shm.Sums (e : Setup) (s : Shm ω ℓ) (ps : List (Group × Access)) : Prop where
  wf : s.Wf e
  live : ∀ k, s.Live k
  typed : s.Typed
  total : ∀ g k, groupTotal s g k ≡ (ps.map (addedTo g k)).sum [MOD 2 ^ 128]

/-- A request is added to the sums of its group. -/
theorem Shm.Sums.accounted {w : ω} {l : ℓ} {r : Access} {info : Bool} {alloc : Alloc}
    {ps : List (Group × Access)} (h : s.Sums e ps) (hmax : e.filterMaxNode = 0)
    (hkey : ∃ dst, key = generateKey dst type)
    (ha : Accounted e w l key type r info s s' alloc) (hwf' : s'.Wf e) (hlive' : ∀ k, s'.Live k)
    (hshort : key.length < 2 ^ 16) :
    s'.Sums e (ps ++ accounts e s (.account w l key type r info alloc)) := by
  have hsum : ∀ g k n m, n ≡ m + addedTo g k (type, r) [MOD 2 ^ 128] →
      m ≡ (ps.map (addedTo g k)).sum [MOD 2 ^ 128] →
      n ≡ ((ps ++ [(type, r)]).map (addedTo g k)).sum [MOD 2 ^ 128] := by
    intro g k n m hn hm
    rw [List.map_append, List.sum_append, List.map_singleton, List.sum_singleton]
    exact hn.trans (hm.add_right _)
  cases ha with
  | found a c hfind hc heq =>
    obtain ⟨c', hc', htype⟩ := h.typed.found h.wf hkey hfind
    obtain rfl := Option.some.inj (hc.symm.trans hc')
    have hnext := upstreamType_nextAccess type c.toTrafficNode r
    have hlog : accounts e s (.account w l key type r info alloc) = [(type, r)] := by
      rw [accounts, if_neg (by simp [hfind])]
    rw [hlog]
    subst heq
    refine ⟨hwf', hlive', ?_, fun g k => hsum g k _ _ ?_ (h.total g k)⟩
    · refine (h.typed.write hc hnext).cacheNode fun b hb => ?_
      obtain rfl := Option.some.inj hb
      exact ⟨⟨nextAccess type c.toTrafficNode r, c.key⟩, by simp [Shm.write],
        hnext.trans htype⟩
    · exact h.wf.groupTotal_nextAccess hc htype r g k
  | made a raw s₁ s₂ hfind hlru hfree hinsert heq =>
    obtain ⟨t, ht, hperm, -⟩ := h.wf.made hshort hfind hlru hfree (firstAccess type r raw)
    obtain rfl := Option.some.inj (ht.symm.trans hinsert)
    rw [deleteLru_of_zero hmax, Option.some.injEq] at hlru
    subst hlru
    have hlog : accounts e s (.account w l key type r info (.slot a raw)) = [(type, r)] := by
      rw [accounts, if_neg (by simp [Alloc.raw])]
    have htype := upstreamType_firstAccess type r raw
    have hnodes : ∀ y ∈ s.rbtree.toList, s.mem y.addr ≠ none := fun y hy =>
      (h.wf.live _).mpr (List.mem_map_of_mem hy)
    rw [hlog]
    subst heq
    refine ⟨hwf', hlive', ?_, fun g k => hsum g k _ _ ?_ (h.total g k)⟩
    · have hdata : ∃ dst, key = generateKey dst (firstAccess type r raw).upstreamType := by
        rwa [htype]
      refine (h.typed.insertNode (x := ⟨a, e.crc32 key, key⟩)
        (c := ⟨firstAccess type r raw, e.crc32 key⟩) hfree h.live hperm hnodes
        hdata).cacheNode fun b hb => ?_
      obtain rfl := Option.some.inj hb
      exact ⟨⟨firstAccess type r raw, e.crc32 key⟩, by simp, htype⟩
    · exact groupTotal_firstAccess (x := ⟨a, e.crc32 key, key⟩) hfree hnodes hperm r g k
  | full s₁ hfind hlru heq =>
    rw [deleteLru_of_zero hmax, Option.some.injEq] at hlru
    have hlog : accounts e s (.account w l key type r info .full) = [] := by
      rw [accounts, if_pos ⟨hfind, rfl⟩]
    rw [hlog, List.append_nil, heq, ← hlru]
    exact h
  | fullTwice s₁ hfind hlru heq =>
    rw [deleteLru_of_zero hmax, Option.some.injEq] at hlru
    subst hlru
    have hlog : accounts e s (.account w l key type r info .fullTwice) = [] := by
      rw [accounts, if_pos ⟨hfind, rfl⟩]
    rw [hlog, List.append_nil]
    subst heq
    exact ⟨hwf', hlive', ⟨h.typed.node, h.typed.pointer⟩, h.total⟩

/-- Every action keeps the sums. -/
theorem Shm.Sums.step {K : Set (List UInt8)} {ps : List (Group × Access)} (h : s.Sums e ps)
    (hmax : e.filterMaxNode = 0) (hact : act.Counts K) (hs : s.step e act = some s') :
    s'.Sums e (ps ++ accounts e s act) := by
  have hwf' := h.wf.step hact.within.short hs
  have hkeeps : act.Keeps := by cases act <;> first | exact hact.2.1 | exact hact.elim | trivial
  have hlive' := (h.wf.grows hmax hkeeps hs).live h.live
  cases act with
  | account w l key type r info alloc =>
    obtain ⟨-, hshort, dst, rfl⟩ := hact
    have hkey : generateKey dst type ≠ [] := by simp [generateKey]
    simp only [Shm.step] at hs
    split_ifs at hs
    exact h.accounted hmax ⟨dst, rfl⟩ (shmAddNode_cases hkey hs) hwf' hlive' hshort
  | read w l key type always =>
    simp only [Shm.step, readNode, Option.bind_eq_bind] at hs
    split_ifs at hs
    obtain ⟨node, hfind, hs⟩ := Option.bind_eq_some_iff.mp hs
    rw [accounts, List.append_nil]
    split_ifs at hs
    · obtain rfl := Option.some.inj hs
      refine ⟨hwf', hlive', h.typed.cacheNode fun a ha => ?_, h.total⟩
      exact h.typed.found h.wf hact (ha ▸ hfind)
    · obtain rfl := Option.some.inj hs
      exact h
  | delete range room => exact hact.elim
  | reset range room => exact hact.elim
  | restore v key alloc => exact hact.elim
  | start w =>
    obtain rfl := Option.some.inj hs
    rw [accounts, List.append_nil]
    refine ⟨hwf', hlive', ⟨h.typed.node, fun k a ha => ?_⟩, h.total⟩
    simp only at ha
    split_ifs at ha
    exact h.typed.pointer k a ha

/-- **No request is lost, and none is counted twice**, by whatever workers and in whatever locations
the requests are accounted, and whether or not keys have the same hash: the nodes of a group have
counted together what was accounted for the group, and the sum of the servers that is shown is what
was accounted for the servers. -/
theorem shm_conserves {s₀ : Shm ω ℓ} {acts : List (Act ω ℓ)} (hmax : e.filterMaxNode = 0)
    (hinit : (shmSys ω ℓ e).init s₀)
    (h : (shmSys ω ℓ e).Run (fun _ act => act.Counts Set.univ) s₀ acts s) (k : Counter) :
    (∀ g, groupTotal s g k ≡
      (((shmSys ω ℓ e).log (accounts e) s₀ acts).map (addedTo g k)).sum [MOD 2 ^ 128]) ∧
      ∀ now period, (displaySetServer now period s initStats).total k ≡
        (((shmSys ω ℓ e).log (accounts e) s₀ acts).map (addedTo .no k)).sum [MOD 2 ^ 128] := by
  have hsums : s.Sums e ((shmSys ω ℓ e).log (accounts e) s₀ acts) := by
    induction h with
    | nil =>
      have hwf := shm_wf_init hinit
      obtain rfl : s₀ = _ := hinit
      refine ⟨hwf, ?_, ⟨?_, ?_⟩, fun g k => rfl⟩
      · exact fun k a ha => by simp at ha
      · simp
      · exact fun k a ha => by simp at ha
    | snoc hr hC hs ih =>
      rw [hr.log_snoc hs]
      exact ih.step hmax hC hs
  exact ⟨fun g => hsums.total g k, fun now period =>
    (displaySetServer_total now period s k).trans (hsums.total .no k)⟩

/-- Requests of two servers and of two filters' values that have the same hash. -/
def fourRequests : List (Act Bool Unit) :=
  [.account true () (serverNode 97) .no shortRequest true (.slot 1 freshMemory),
    .account true () plumless .fg shortRequest true (.slot 2 freshMemory),
    .account false () (serverNode 98) .no shortRequest true (.slot 3 freshMemory),
    .account true () buckeroo .fg shortRequest true (.slot 4 freshMemory)]

/-- There are two requests of each group. -/
theorem shm_conserves_fourRequests : ∃ s : Shm Bool Unit,
    (shmSys Bool Unit noLimit).exec freshShm fourRequests = some s ∧
      groupTotal s .fg .request ≡ 2 [MOD 2 ^ 128] ∧
      (displaySetServer 0 0 s initStats).total .request ≡ 2 [MOD 2 ^ 128] := by
  obtain ⟨s, hs, -⟩ : ∃ s, (shmSys Bool Unit noLimit).exec freshShm fourRequests = some s ∧
      s.locked = false := by
    refine Option.map_eq_some_iff.mp ?_
    decide +kernel
  have hcounts : ∀ act ∈ fourRequests, act.Counts Set.univ := by
    intro act hact
    simp only [fourRequests, List.mem_cons, List.not_mem_nil, or_false] at hact
    rcases hact with rfl | rfl | rfl | rfl <;> exact ⟨trivial, by decide, _, rfl⟩
  have hsum : ∀ g ∈ [Group.fg, Group.no],
      (((shmSys Bool Unit noLimit).log (accounts noLimit) freshShm fourRequests).map
        (addedTo g .request)).sum = 2 := by decide +kernel
  obtain ⟨hgroup, hshown⟩ := shm_conserves rfl rfl
    ((Sys.run_of_exec hs).mono_mem fun _ act hact _ => hcounts act hact) .request
  exact ⟨s, hs, (hgroup .fg).trans (modEq_of_eq (hsum .fg (by simp))),
    (hshown 0 0).trans (modEq_of_eq (hsum .no (by simp)))⟩

end NginxTools.VhostTrafficStatus
