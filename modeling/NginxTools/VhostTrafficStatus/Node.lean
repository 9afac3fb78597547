import NginxTools.VhostTrafficStatus.TimeQueue
import Mathlib.Algebra.BigOperators.Group.List.Basic
import Mathlib.Data.Nat.ModEq

/-!
# The nodes of the traffic status module

A node of the traffic status module has the counters of one key: a server name, an upstream server,
a cache or the value of a filter. The first request of a key sets the node up
(`ngx_http_vhost_traffic_status_node_init`), each later one adds to it
(`ngx_http_vhost_traffic_status_node_set`). A counter has 64 bits and a second counter for its
overflows, told by the copy of the node that is made before the request is added:

    ovtsn = *vtsn;

    ms = ngx_http_vhost_traffic_status_request_time(r);
    ngx_http_vhost_traffic_status_node_update(r, vtsn, ms);
    ...
    ngx_http_vhost_traffic_status_add_oc((&ovtsn), vtsn);

where `add_oc` counts an overflow for each counter that is smaller than it was.

## The model

`Counter` names the counters that have a second one for overflows, so that `stat` is
`stat_request_counter` and its like, and `statOc` is `stat_request_counter_oc` and its like.
`Access` is one request as the functions see it, with the clock and the configuration that they
read. The memory of a node that is made is given: `node_init` leaves two of its words as they were.

## What is proved

`nodeUpdate` adds `added` to each counter (`nodeUpdate_stat`). **Both words of a counter are the sum
of what its requests added**, modulo `2 ^ 128`, after any number of requests; the queue has the last
of their times, and a bucket of the histogram counts those that took no longer than its bound
(`replay_spec`).
-/

namespace NginxTools.VhostTrafficStatus

open NginxTools.Library

/-! ### The data -/

/-- `stat_upstream.type`. -/
inductive Group where
  | no
  | ua
  | ug
  | cc
  | fg
deriving DecidableEq

/-- `r->upstream->cache_status`, where it is not 0. -/
inductive CacheStatus where
  | miss
  | bypass
  | expired
  | stale
  | updating
  | revalidated
  | hit
  | scarce
deriving DecidableEq

/-- The counters that have a counter for their overflows. -/
inductive Counter where
  | request
  | inBytes
  | outBytes
  | s1xx
  | s2xx
  | s3xx
  | s4xx
  | s5xx
  | requestTime
  | cache (s : CacheStatus)
deriving DecidableEq

/-- `ngx_http_vhost_traffic_status_node_histogram_t`. -/
structure Histogram where
  msec : Int64
  counter : UInt64
deriving DecidableEq

/-- `ngx_http_vhost_traffic_status_node_histogram_bucket_t`, the buckets in use. -/
abbrev Buckets := List Histogram

/-- `ngx_http_vhost_traffic_status_node_upstream_t`, but for its type. -/
structure UpstreamStats where
  responseTimeCounter : UInt64
  responseTime : UInt64
  responseTimes : TimeQueue
  responseBuckets : Buckets

/-- `ngx_http_vhost_traffic_status_node_t`, but for its key. -/
structure TrafficNode where
  stat : Counter → UInt64
  statOc : Counter → UInt64
  /-- `stat_request_time`, the average. -/
  requestTime : UInt64
  requestTimes : TimeQueue
  requestBuckets : Buckets
  /-- `stat_response_time_counter_oc`. -/
  responseTimeCounterOc : UInt64
  cacheMaxSize : UInt64
  cacheUsedSize : UInt64
  upstreamType : Group
  upstream : UpstreamStats

/-- The words of `r->cache->file_cache` that are read. -/
structure FileCache where
  maxSize : UInt64
  bsize : UInt64
  /-- `sh->size`. -/
  size : UInt64
deriving DecidableEq

/-- The part of a location's configuration that a node's functions read. -/
structure AverageConf where
  averageMethod : Method
  averagePeriod : UInt64
  /-- The bounds of the buckets, if they are configured. -/
  histogramBuckets : Option (List Int64)
deriving DecidableEq

/-- A request that is accounted, with what is read of the clock and of the configuration. -/
structure Access where
  /-- `r->headers_out.status`. -/
  status : UInt64
  requestLength : UInt64
  /-- `r->connection->sent`. -/
  sent : UInt64
  startSec : Int64
  startMsec : Int64
  /-- `r->upstream->cache_status`, if there is an upstream and it is not 0. -/
  cacheStatus : Option CacheStatus
  /-- `r->upstream_states`: the status and the response time of each. -/
  upstreamStates : List (UInt64 × UInt64)
  /-- `r->cache->file_cache`, if there is a cache. -/
  fileCache : Option FileCache
  /-- `ngx_timeofday()`. -/
  sec : Int64
  msec : Int64
  /-- `ngx_http_vhost_traffic_status_current_msec()`. -/
  now : UInt64
  conf : AverageConf
deriving DecidableEq

/-! ### The functions -/

/-- `ngx_http_vhost_traffic_status_request_time`. -/
def requestTime (r : Access) : Int64 :=
  let ms := (r.sec - r.startSec) * 1000 + (r.msec - r.startMsec)
  if 0 ≤ ms then ms else 0

/-- `ngx_http_vhost_traffic_status_upstream_response_time`. -/
def upstreamResponseTime (r : Access) : Int64 :=
  let ms := r.upstreamStates.foldl
    (fun ms state => if state.1 ≠ 0 then ms + state.2.toInt64 else ms) (0 : Int64)
  if 0 ≤ ms then ms else 0

/-- A counter is added to. -/
def TrafficNode.add (c : Counter) (n : UInt64) (v : TrafficNode) : TrafficNode :=
  { v with stat := Function.update v.stat c (v.stat c + n) }

/-- The counter of a status. -/
def statusCounter (status : UInt64) : Counter :=
  if status < 200 then .s1xx
  else if status < 300 then .s2xx
  else if status < 400 then .s3xx
  else if status < 500 then .s4xx
  else .s5xx

/-- `ngx_http_vhost_traffic_status_add_rc`. -/
def addRc (status : UInt64) (v : TrafficNode) : TrafficNode := v.add (statusCounter status) 1

/-- `ngx_http_vhost_traffic_status_add_cc`, where there is a cache status. -/
def addCc (s : Option CacheStatus) (v : TrafficNode) : TrafficNode :=
  match s with
  | some s => v.add (.cache s) 1
  | none => v

/-- `ngx_http_vhost_traffic_status_add_oc`. -/
def addOc (o c : TrafficNode) : TrafficNode :=
  { c with statOc := fun k => if o.stat k > c.stat k then c.statOc k + 1 else c.statOc k }

/-- `ngx_http_vhost_traffic_status_node_histogram_bucket_init`. -/
def histogramBucketInit (conf : AverageConf) : Buckets :=
  match conf.histogramBuckets with
  | none => []
  | some bounds => bounds.map fun msec => ⟨msec, 0⟩

/-- `ngx_http_vhost_traffic_status_node_histogram_observe`. -/
def histogramObserve (x : Int64) (b : Buckets) : Buckets :=
  b.map fun h => if x ≤ h.msec then ⟨h.msec, h.counter + 1⟩ else h

/-- `ngx_http_vhost_traffic_status_node_zero`. -/
def nodeZero (v : TrafficNode) : TrafficNode :=
  { v with
    stat := fun _ => 0
    statOc := fun _ => 0
    requestTime := 0
    responseTimeCounterOc := 0 }

/-- `ngx_http_vhost_traffic_status_node_update`. -/
def nodeUpdate (r : Access) (ms : Int64) (v : TrafficNode) : TrafficNode :=
  let v := v.add .request 1
  let v := v.add .inBytes r.requestLength
  let v := v.add .outBytes r.sent
  let v := addRc r.status v
  let v := v.add .requestTime ms.toUInt64
  let v := { v with requestTimes := timeQueueInsert r.now ms v.requestTimes }
  let v := { v with requestBuckets := histogramObserve ms v.requestBuckets }
  addCc r.cacheStatus v

/-- `ngx_http_vhost_traffic_status_node_init`, over the memory that was allocated. -/
def nodeInit (r : Access) (v : TrafficNode) : TrafficNode :=
  let v := nodeZero v
  let v := { v with
    requestTimes := timeQueueInit
    requestBuckets := histogramBucketInit r.conf
    upstreamType := .no
    upstream := ⟨0, 0, timeQueueInit, histogramBucketInit r.conf⟩ }
  let ms := requestTime r
  let v := { v with requestTime := ms.toUInt64 }
  nodeUpdate r ms v

/-- `ngx_http_vhost_traffic_status_node_set`. -/
def nodeSet (r : Access) (v : TrafficNode) : TrafficNode :=
  let o := v
  let v := nodeUpdate r (VhostTrafficStatus.requestTime r) v
  let (avg, q) :=
    timeQueueAverage r.conf.averageMethod r.now r.conf.averagePeriod v.requestTimes
  let v := { v with requestTimes := q, requestTime := avg }
  addOc o v

/-- `NGX_HTTP_VHOST_TRAFFIC_STATUS_NODE_NONE`, for a node that was made, and `_FIND`. -/
inductive Init where
  | none
  | find
deriving DecidableEq

/-- `ngx_http_vhost_traffic_status_shm_add_node_upstream`. -/
def addNodeUpstream (r : Access) (init : Init) (v : TrafficNode) : TrafficNode :=
  let o := v
  let ms := upstreamResponseTime r
  let u := v.upstream
  let u := { u with responseTimes := timeQueueInsert r.now ms u.responseTimes }
  let u := { u with responseBuckets := histogramObserve ms u.responseBuckets }
  match init with
  | .none =>
    { v with upstream := { u with
        responseTimeCounter := ms.toUInt64, responseTime := ms.toUInt64 } }
  | .find =>
    let u := { u with responseTimeCounter := u.responseTimeCounter + ms.toUInt64 }
    let (avg, q) :=
      timeQueueAverage r.conf.averageMethod r.now r.conf.averagePeriod u.responseTimes
    let u := { u with responseTimes := q, responseTime := avg }
    { v with
      upstream := u
      responseTimeCounterOc :=
        if o.upstream.responseTimeCounter > u.responseTimeCounter then
          v.responseTimeCounterOc + 1
        else v.responseTimeCounterOc }

/-- `ngx_http_vhost_traffic_status_shm_add_node_cache`. -/
def addNodeCache (r : Access) (init : Init) (v : TrafficNode) : TrafficNode :=
  match r.cacheStatus, r.fileCache with
  | some _, some cache =>
    match init with
    | .none => { v with cacheMaxSize := cache.maxSize * cache.bsize }
    | .find => { v with cacheUsedSize := cache.size * cache.bsize }
  | _, _ => v

/-- "set addition", in `ngx_http_vhost_traffic_status_shm_add_node`. -/
def addition (type : Group) (r : Access) (init : Init) (v : TrafficNode) : TrafficNode :=
  match type with
  | .no => v
  | .ua => addNodeUpstream r init v
  | .ug => addNodeUpstream r init v
  | .cc => addNodeCache r init v
  | .fg => v

/-- The first request of a node. -/
def firstAccess (type : Group) (r : Access) (raw : TrafficNode) : TrafficNode :=
  addition type r .none { nodeInit r raw with upstreamType := type }

/-- A later one. -/
def nextAccess (type : Group) (v : TrafficNode) (r : Access) : TrafficNode :=
  addition type r .find (nodeSet r v)

/-- A node after its requests, over the memory that was allocated for it. -/
def replay (type : Group) (raw : TrafficNode) (r : Access) (rs : List Access) : TrafficNode :=
  rs.foldl (nextAccess type) (firstAccess type r raw)

/-! ### Two words -/

/-- A counter with the counter of its overflows. -/
def wide (lo hi : UInt64) : ℕ := lo.toNat + 2 ^ 64 * hi.toNat

/-- A word that is counted in the counter of overflows is worth `2 ^ 64`. -/
theorem mul_mod_modEq (x : ℕ) : 2 ^ 64 * (x % 2 ^ 64) ≡ 2 ^ 64 * x [MOD 2 ^ 128] :=
  (Nat.mod_modEq x (2 ^ 64)).mul_left' (2 ^ 64)

/-- **An overflow is seen by the counter being smaller than it was.** Two numbers of two words are
added so. -/
theorem wide_add (lo hi n m : UInt64) :
    wide (lo + n) (if lo > lo + n then hi + m + 1 else hi + m) ≡ wide lo hi + wide n m
      [MOD 2 ^ 128] := by
  have hlo := lo.toNat_lt
  have hn := n.toNat_lt
  have hsum : (lo + n).toNat = (lo.toNat + n.toNat) % 2 ^ 64 := UInt64.toNat_add _ _
  unfold wide
  rcases Nat.lt_or_ge (lo.toNat + n.toNat) (2 ^ 64) with hlt | hge
  · rw [Nat.mod_eq_of_lt hlt] at hsum
    have hnot : ¬ lo > lo + n := by
      rw [gt_iff_lt, UInt64.lt_iff_toNat_lt]
      omega
    have hmod := (mul_mod_modEq (hi.toNat + m.toNat)).add_left (lo.toNat + n.toNat)
    rw [if_neg hnot, hsum, UInt64.toNat_add]
    convert hmod using 1
    ring
  · rw [Nat.mod_eq_sub_mod hge, Nat.mod_eq_of_lt (by omega)] at hsum
    have hcarry : lo > lo + n := by
      rw [gt_iff_lt, UInt64.lt_iff_toNat_lt]
      omega
    have hmod := (mul_mod_modEq (hi.toNat + m.toNat + 1)).add_left (lo.toNat + n.toNat - 2 ^ 64)
    have hone : (1 : UInt64).toNat = 1 := rfl
    rw [if_pos hcarry, hsum, UInt64.toNat_add, UInt64.toNat_add, hone, Nat.mod_add_mod]
    convert hmod using 1
    omega

/-- Both words of a counter. -/
def TrafficNode.total (v : TrafficNode) (c : Counter) : ℕ := wide (v.stat c) (v.statOc c)

/-! ### One request -/

/-- What a request adds to a counter. -/
def added (r : Access) : Counter → UInt64
  | .request => 1
  | .inBytes => r.requestLength
  | .outBytes => r.sent
  | .requestTime => (requestTime r).toUInt64
  | .cache s => if r.cacheStatus = some s then 1 else 0
  | c => if statusCounter r.status = c then 1 else 0

/-- The time that a request leaves in the queue. -/
def timeOf (r : Access) : NodeTime := ⟨r.now, requestTime r⟩

theorem TrafficNode.stat_add (v : TrafficNode) (c k : Counter) (n : UInt64) :
    (v.add c n).stat k = v.stat k + if c = k then n else 0 := by
  rw [TrafficNode.add]
  split_ifs with h
  · subst h
    simp
  · simp [Function.update_of_ne (Ne.symm h)]

theorem statusCounter_cases (status : UInt64) :
    statusCounter status = .s1xx ∨ statusCounter status = .s2xx ∨ statusCounter status = .s3xx ∨
      statusCounter status = .s4xx ∨ statusCounter status = .s5xx := by
  unfold statusCounter
  split_ifs <;> simp

theorem addCc_stat (s : Option CacheStatus) (v : TrafficNode) (c : Counter) :
    (addCc s v).stat c = v.stat c + if s.map Counter.cache = some c then 1 else 0 := by
  cases s with
  | none => simp [addCc]
  | some s => simp [addCc, TrafficNode.stat_add]

/-- **A request adds to each counter once.** -/
theorem nodeUpdate_stat (r : Access) (v : TrafficNode) (c : Counter) :
    (nodeUpdate r (requestTime r) v).stat c = v.stat c + added r c := by
  have hne : ∀ k, statusCounter r.status = k → k = .s1xx ∨ k = .s2xx ∨ k = .s3xx ∨ k = .s4xx ∨
      k = .s5xx := fun k hk => hk ▸ statusCounter_cases r.status
  simp only [nodeUpdate, addCc_stat, addRc, TrafficNode.stat_add]
  cases c <;> simp [added] <;> exact fun h => by simpa using hne _ h

/-- The rest of what a request changes. -/
theorem nodeUpdate_rest (r : Access) (ms : Int64) (v : TrafficNode) :
    nodeUpdate r ms v = { v with
      stat := (nodeUpdate r ms v).stat
      requestTimes := timeQueueInsert r.now ms v.requestTimes
      requestBuckets := histogramObserve ms v.requestBuckets } := by
  unfold nodeUpdate addCc
  cases r.cacheStatus <;> rfl

/-- What is done in addition does not change the counters, the times and the buckets. -/
theorem addition_rest (type : Group) (r : Access) (init : Init) (v : TrafficNode) :
    addition type r init v = { v with
      responseTimeCounterOc := (addition type r init v).responseTimeCounterOc
      cacheMaxSize := (addition type r init v).cacheMaxSize
      cacheUsedSize := (addition type r init v).cacheUsedSize
      upstream := (addition type r init v).upstream } := by
  cases type with
  | no => rfl
  | ua => cases init <;> rfl
  | ug => cases init <;> rfl
  | cc =>
    simp only [addition, addNodeCache]
    cases r.cacheStatus <;> cases r.fileCache <;> cases init <;> rfl
  | fg => rfl

/-! ### Any number of requests -/

/-- The buckets after times were observed. -/
def observed (conf : AverageConf) (mss : List Int64) : Buckets :=
  (conf.histogramBuckets.getD []).map fun b => ⟨b, UInt64.ofNat (mss.countP fun ms => ms ≤ b)⟩

theorem histogramObserve_observed (conf : AverageConf) (mss : List Int64) (x : Int64) :
    histogramObserve x (observed conf mss) = observed conf (mss ++ [x]) := by
  rw [histogramObserve, observed, observed, List.map_map]
  refine List.map_congr_left fun b _ => ?_
  simp only [Function.comp, List.countP_append, List.countP_singleton, decide_eq_true_eq]
  split_ifs
  · rw [UInt64.ofNat_add]
    rfl
  · rfl

theorem histogramBucketInit_eq (conf : AverageConf) :
    histogramBucketInit conf = observed conf [] := by
  unfold histogramBucketInit observed
  cases conf.histogramBuckets <;> rfl

/-- The time that an answer of the upstream leaves in the queue. -/
def responseOf (r : Access) : NodeTime := ⟨r.now, upstreamResponseTime r⟩

/-- What a node of an upstream server says about its requests. -/
structure Responds (r : Access) (rs : List Access) (v : TrafficNode) : Prop where
  total : wide v.upstream.responseTimeCounter v.responseTimeCounterOc ≡
    ((r :: rs).map fun r => (upstreamResponseTime r).toUInt64.toNat).sum [MOD 2 ^ 128]
  times : v.upstream.responseTimes = recorded ((r :: rs).map responseOf)
  average : ∀ r', rs.getLast? = some r' → v.upstream.responseTime =
    (timeQueueAverage r'.conf.averageMethod r'.now r'.conf.averagePeriod
      v.upstream.responseTimes).1
  buckets : v.upstream.responseBuckets = observed r.conf ((r :: rs).map upstreamResponseTime)

/-- What a node says about its requests, the first of which set it up. -/
structure Reports (type : Group) (r : Access) (rs : List Access) (v : TrafficNode) : Prop where
  /-- A counter is the sum of what the requests added. -/
  total : ∀ c, v.total c ≡ ((r :: rs).map fun r => (added r c).toNat).sum [MOD 2 ^ 128]
  /-- The queue has the last of their times. -/
  times : v.requestTimes = recorded ((r :: rs).map timeOf)
  /-- The average is that of the queue, from the second request on. -/
  average : ∀ r', rs.getLast? = some r' → v.requestTime =
    (timeQueueAverage r'.conf.averageMethod r'.now r'.conf.averagePeriod v.requestTimes).1
  /-- A bucket counts the requests that took no longer than its bound. -/
  buckets : v.requestBuckets = observed r.conf ((r :: rs).map requestTime)
  typed : v.upstreamType = type
  response : type = .ua ∨ type = .ug → Responds r rs v

/-- What an average makes of a queue into which requests were recorded. -/
theorem timeQueueAverage_recorded (m : Method) (now period : UInt64) (ts : List NodeTime) :
    (timeQueueAverage m now period (recorded ts)).2 = recorded ts :=
  timeQueueAverage_snd m now period (recorded_full ts).1 (recorded_full ts).2

/-- A later request is added to each counter, with its overflow. -/
theorem nodeSet_eq (r : Access) {v : TrafficNode} {ts : List NodeTime}
    (ht : v.requestTimes = recorded ts) :
    nodeSet r v = { v with
      stat := fun c => v.stat c + added r c
      statOc := fun c =>
        if v.stat c > v.stat c + added r c then v.statOc c + 1 else v.statOc c
      requestTime := (timeQueueAverage r.conf.averageMethod r.now r.conf.averagePeriod
        (recorded (ts ++ [timeOf r]))).1
      requestTimes := recorded (ts ++ [timeOf r])
      requestBuckets := histogramObserve (requestTime r) v.requestBuckets } := by
  have hstat : (nodeUpdate r (requestTime r) v).stat = fun c => v.stat c + added r c :=
    funext (nodeUpdate_stat r v)
  have hinsert : timeQueueInsert r.now (requestTime r) (recorded ts) =
      recorded (ts ++ [timeOf r]) := (recorded_append ts (timeOf r)).symm
  rw [nodeSet, nodeUpdate_rest, hstat, ht, hinsert]
  simp only [addOc, timeQueueAverage_recorded]

/-- The first request of a node, over any memory. -/
theorem nodeInit_eq (r : Access) (raw : TrafficNode) :
    nodeInit r raw = { raw with
      stat := added r
      statOc := fun _ => 0
      requestTime := (requestTime r).toUInt64
      requestTimes := recorded [timeOf r]
      requestBuckets := observed r.conf [requestTime r]
      responseTimeCounterOc := 0
      upstreamType := .no
      upstream := ⟨0, 0, timeQueueInit, observed r.conf []⟩ } := by
  have hstat : (nodeInit r raw).stat = added r := by
    funext c
    rw [nodeInit, nodeUpdate_stat]
    exact UInt64.zero_add _
  have hbuckets := histogramObserve_observed r.conf [] (requestTime r)
  have hinsert : timeQueueInsert r.now (requestTime r) timeQueueInit = recorded [timeOf r] := rfl
  rw [nodeInit, nodeUpdate_rest] at hstat ⊢
  rw [hstat]
  simp only [nodeZero, histogramBucketInit_eq, hbuckets, hinsert, List.nil_append]

theorem addition_upstream {type : Group} (h : type = .ua ∨ type = .ug) (r : Access) (init : Init)
    (v : TrafficNode) : addition type r init v = addNodeUpstream r init v := by
  rcases h with rfl | rfl <;> rfl

theorem wide_zero (lo : UInt64) : wide lo 0 = lo.toNat := by simp [wide]

variable {type : Group} {r r' : Access} {rs : List Access} {v : TrafficNode}

/-- The first request sets a node up. -/
theorem firstAccess_reports (type : Group) (r : Access) (raw : TrafficNode) :
    Reports type r [] (firstAccess type r raw) := by
  have hrest := addition_rest type r .none { nodeInit r raw with upstreamType := type }
  rw [nodeInit_eq] at hrest
  constructor
  case total =>
    intro c
    rw [firstAccess, nodeInit_eq, hrest, TrafficNode.total, wide_zero]
    simp [Nat.ModEq.refl]
  case times => rw [firstAccess, nodeInit_eq, hrest, List.map_singleton]
  case average => simp
  case buckets => rw [firstAccess, nodeInit_eq, hrest, List.map_singleton]
  case typed => rw [firstAccess, nodeInit_eq, hrest]
  case response =>
    intro htype
    have hbuckets := histogramObserve_observed r.conf [] (upstreamResponseTime r)
    have hinsert : timeQueueInsert r.now (upstreamResponseTime r) timeQueueInit =
        recorded [responseOf r] := rfl
    rw [firstAccess, addition_upstream htype, nodeInit_eq]
    simp only [addNodeUpstream, hinsert, hbuckets, List.nil_append]
    refine ⟨?_, by rw [List.map_singleton], by simp, by rw [List.map_singleton]⟩
    simp [wide_zero, Nat.ModEq.refl]

/-- A sum of two words, one request further. -/
theorem wide_append {f : Access → UInt64} {lo hi : UInt64}
    (h : wide lo hi ≡ ((r :: rs).map fun r => (f r).toNat).sum [MOD 2 ^ 128]) (r' : Access) :
    wide (lo + f r') (if lo > lo + f r' then hi + 1 else hi) ≡
      ((r :: (rs ++ [r'])).map fun r => (f r).toNat).sum [MOD 2 ^ 128] := by
  have hadd := wide_add lo hi (f r') 0
  rw [UInt64.add_zero, wide_zero] at hadd
  have hsum : ((r :: (rs ++ [r'])).map fun r => (f r).toNat).sum =
      ((r :: rs).map fun r => (f r).toNat).sum + (f r').toNat := by
    simp [Nat.add_assoc]
  rw [hsum]
  exact hadd.trans (h.add_right _)

/-- The answer of the upstream to a later request is reported with those before it. -/
theorem Responds.append (h : Responds r rs v) (r' : Access) {u : TrafficNode}
    (hu : u.upstream = v.upstream) (hoc : u.responseTimeCounterOc = v.responseTimeCounterOc) :
    Responds r (rs ++ [r']) (addNodeUpstream r' .find u) := by
  have htimes : timeQueueInsert r'.now (upstreamResponseTime r') v.upstream.responseTimes =
      recorded ((r :: (rs ++ [r'])).map responseOf) := by
    rw [h.times, ← List.cons_append, List.map_append, List.map_singleton]
    exact (recorded_append _ (responseOf r')).symm
  have hbuckets := histogramObserve_observed r.conf ((r :: rs).map upstreamResponseTime)
    (upstreamResponseTime r')
  rw [addNodeUpstream, hu, hoc]
  simp only [htimes, timeQueueAverage_recorded]
  refine ⟨wide_append (f := fun r => (upstreamResponseTime r).toUInt64) h.total r', rfl, ?_, ?_⟩
  · intro last hlast
    obtain rfl : r' = last := by simpa using hlast
    rfl
  · simp only [h.buckets, hbuckets]
    simp

/-- A later request is reported with those before it. -/
theorem Reports.append (h : Reports type r rs v) (r' : Access) :
    Reports type r (rs ++ [r']) (nextAccess type v r') := by
  have hset := nodeSet_eq r' h.times
  have hmap : (r :: rs).map timeOf ++ [timeOf r'] = (r :: (rs ++ [r'])).map timeOf := by simp
  rw [hmap] at hset
  have hrest := addition_rest type r' .find (nodeSet r' v)
  have hbuckets := histogramObserve_observed r.conf ((r :: rs).map requestTime) (requestTime r')
  constructor
  case total =>
    intro c
    rw [nextAccess, hrest, TrafficNode.total, hset]
    exact wide_append (f := fun r => added r c) (h.total c) r'
  case times => rw [nextAccess, hrest, hset]
  case average =>
    intro last hlast
    obtain rfl : r' = last := by simpa using hlast
    rw [nextAccess, hrest, hset]
  case buckets =>
    rw [nextAccess, hrest, hset]
    simp only [h.buckets, hbuckets]
    simp
  case typed =>
    rw [nextAccess, hrest, hset]
    exact h.typed
  case response =>
    intro htype
    rw [nextAccess, addition_upstream htype]
    exact (h.response htype).append r' (by rw [hset]) (by rw [hset])

/-- **A node says what its requests were**, whatever the memory was that was allocated for it and
however many requests there were: each counter, with its overflows, is the sum of what they added;
the queue has the last of their times, and the average is that of the queue; a bucket counts those
that took no longer than its bound; and so for the answers of an upstream server. -/
theorem replay_reports (type : Group) (raw : TrafficNode) (r : Access) (rs : List Access) :
    Reports type r rs (replay type raw r rs) := by
  induction rs using List.reverseRecOn with
  | nil => exact firstAccess_reports type r raw
  | append_singleton rs r' ih =>
    rw [replay, List.foldl_append]
    exact ih.append r'

end NginxTools.VhostTrafficStatus
