import NginxTools.Core.Crc32
import NginxTools.LimitReq.Zone
import Mathlib.Data.Fintype.Basic
import Mathlib.Algebra.BigOperators.Group.Finset.Basic
import Mathlib.Algebra.BigOperators.Group.Finset.Piecewise

/-!
# The workers

Each worker of the server runs `ngx_http_limit_req_handler` for its requests. The handler goes
through the limits of the request's location. At every limit but the last it reserves the node of
the request's key, in `ctx->node`, and at the last it counts the request at once. When a limit is
exceeded it takes its reservations back, and otherwise it uses them:

    for (n = 0; n < lrcf->limits.nelts; n++) {
        ...
        if (ngx_http_complex_value(r, &ctx->key, &key) != NGX_OK) {
            return NGX_HTTP_INTERNAL_SERVER_ERROR;
        }
        if (key.len == 0) { continue; }
        ...
        ngx_shmtx_lock(&ctx->shpool->mutex);
        rc = ngx_http_limit_req_lookup(limit, hash, &key, &excess, (n == lrcf->limits.nelts - 1));
        ngx_shmtx_unlock(&ctx->shpool->mutex);
        if (rc != NGX_AGAIN) { break; }
    }

`ctx->node` is the worker's own, what it points to is shared, and between two of the regions that
hold a zone's mutex the other workers may do anything.

## The model

`workerStep` is the handler up to the end of its next region. `serverSys` has any number of zones
`ζ` and finitely many workers `ω`, whose steps come in any order, each with the worker's own clock
and with what the allocator does. What a request's key is for a zone (`none` when it cannot be
evaluated) and the hash function are parameters.

## What is proved

`server_safe`: in any state of any run no worker's pointer is to a node that was deleted, no step
of a worker reads one, and the zones are in order. While keys can be evaluated the reservations of a
node are exactly the pointers of workers to it (`server_exact`), so that none is left once the
workers have returned.
-/

namespace NginxTools.LimitReq

open NginxTools.Library
open NginxTools.Core

/-! ### The handler -/

/-- `ngx_http_limit_req_limit_t`. -/
structure LimitConf (ζ : Type) where
  zone : ζ
  burst : UInt64
  delay : UInt64

/-- `ngx_http_limit_req_conf_t`, of a location. -/
structure LocConf (ζ : Type) where
  limits : List (LimitConf ζ)
  /-- A zone is not used twice: the directive says `is duplicate`. -/
  distinct : (limits.map LimitConf.zone).Nodup
  statusCode : ℕ
  dryRun : Bool

/-- What is the request's: its location, and its key for a zone. -/
structure Call (ζ : Type) where
  conf : LocConf ζ
  key : ζ → Option (List UInt8)

/-- What the handler returns. -/
inductive Return where
  | declined
  /-- `NGX_AGAIN`, with the request's timer set. -/
  | again (delay : UInt64)
  | status (code : ℕ)
deriving DecidableEq

/-- `limit_req_status`. -/
inductive Status where
  | none
  | passed
  | delayed
  | rejected
  | delayedDryRun
  | rejectedDryRun
deriving DecidableEq

/-- Where a worker is. -/
inductive Pc (ζ : Type) where
  /-- Not in the handler, with the result of its last call. -/
  | done (result : Option (Return × Status))
  /-- At the top of the loop. `rc` is `NGX_AGAIN` or still `NGX_DECLINED`. -/
  | loop (call : Call ζ) (n : ℕ) (again : Bool)
  /-- At the loop that takes the reservations back. -/
  | undo (call : Call ζ) (n : ℕ)
  /-- At the loop of `ngx_http_limit_req_account`. -/
  | account (call : Call ζ) (n : ℕ) (maxDelay : UInt64)

/-- What the last call returned, when the worker has returned from one. -/
def Pc.result : Pc ζ → Option (Return × Status)
  | .done result => result
  | _ => none

theorem Pc.eq_done {pc : Pc ζ} {r : Return × Status} (h : pc.result = some r) :
    pc = .done (some r) := by
  cases pc with
  | done result =>
    obtain rfl : result = some r := h
    rfl
  | _ => cases h

/-- A worker: where it is, and `ctx->node` for each zone. -/
structure Worker (ζ : Type) where
  pc : Pc ζ
  node : ζ → Option ℕ

/-- The delay of a request with the given excess, in milliseconds. -/
def delayOf (rate delay excess : UInt64) : UInt64 :=
  if excess ≤ delay then 0 else (excess - delay) * 1000 / rate

/-- `if (delay > max_delay) { max_delay = delay; ... }`. -/
def higher (maxDelay delay : UInt64) : UInt64 := if delay > maxDelay then delay else maxDelay

/-- What the handler returns for a request that is counted. -/
def finish (call : Call ζ) (maxDelay : UInt64) : Return × Status :=
  if maxDelay = 0 then (.declined, .passed)
  else if call.conf.dryRun then (.declined, .delayedDryRun)
  else (.again maxDelay, .delayed)

/-- What the handler returns for a request that is not counted. -/
def reject (call : Call ζ) : Return × Status :=
  if call.conf.dryRun then (.declined, .rejectedDryRun)
  else (.status call.conf.statusCode, .rejected)

/-- A key that the limit is skipped for: it is empty, or too long. -/
def skips (key : List UInt8) : Bool := key.length = 0 ∨ key.length > 65535

variable {ζ : Type} [DecidableEq ζ]

/-- Where the handler is after it looked up the limit `n`. -/
def afterLookup (rate : ζ → UInt64) (call : Call ζ) (n : ℕ) (limit : LimitConf ζ)
    (r : LookupResult) : Pc ζ :=
  match r.rc with
  | .again => .loop call (n + 1) true
  | .ok => .account call n (delayOf (rate limit.zone) limit.delay r.excess)
  | .busy => .undo call n
  | .error => .undo call n

/-- The handler up to the end of its next region, with the worker's clock and the zone's
allocator. -/
def workerStep (crc32 : List UInt8 → UInt32) (rate : ζ → UInt64) (now : UInt64) (slab : Slab)
    (w : Worker ζ) (zones : ζ → Shctx) : Option (Worker ζ × (ζ → Shctx)) :=
  match w.pc with
  | .done _ => none
  | .loop call n again =>
    match call.conf.limits[n]? with
    | none =>
      if again then some (⟨.account call n 0, w.node⟩, zones)
      else some (⟨.done (some (.declined, .none)), w.node⟩, zones)
    | some limit =>
      match call.key limit.zone with
      | none => some (⟨.done (some (.status 500, .none)), w.node⟩, zones)
      | some key =>
        if skips key then some (⟨.loop call (n + 1) again, w.node⟩, zones)
        else do
          let (r, sh) ← lookup ⟨rate limit.zone, limit.burst, limit.delay⟩ slab now (crc32 key) key
            (decide (n = call.conf.limits.length - 1)) (zones limit.zone)
          let node := r.node.elim w.node fun a => Function.update w.node limit.zone (some a)
          some (⟨afterLookup rate call n limit r, node⟩, Function.update zones limit.zone sh)
  | .undo call 0 => some (⟨.done (some (reject call)), w.node⟩, zones)
  | .undo call (n + 1) => do
    let limit ← call.conf.limits[n]?
    match w.node limit.zone with
    | none => some (⟨.undo call n, w.node⟩, zones)
    | some a =>
      let sh ← releaseNode a (zones limit.zone)
      some (⟨.undo call n, Function.update w.node limit.zone none⟩,
        Function.update zones limit.zone sh)
  | .account call 0 maxDelay => some (⟨.done (some (finish call maxDelay)), w.node⟩, zones)
  | .account call (n + 1) maxDelay => do
    let limit ← call.conf.limits[n]?
    match w.node limit.zone with
    | none => some (⟨.account call n maxDelay, w.node⟩, zones)
    | some a =>
      let (excess, sh) ← accountNode (rate limit.zone) now a (zones limit.zone)
      let delay := delayOf (rate limit.zone) limit.delay excess
      some (⟨.account call n (higher maxDelay delay), Function.update w.node limit.zone none⟩,
        Function.update zones limit.zone sh)

/-! ### The server -/

/-- The pool of workers, with the zones that they share. -/
structure Pool (ζ ω : Type) where
  zones : ζ → Shctx
  workers : ω → Worker ζ

/-- What happens next. -/
inductive Act (ζ ω : Type) where
  /-- A worker calls the handler for a request. -/
  | call (w : ω) (call : Call ζ)
  /-- A worker goes on in the handler. -/
  | step (w : ω) (now : UInt64) (slab : Slab)

variable {ω : Type} [DecidableEq ω]

/-- The server, from when its zones are set up. -/
def serverSys (crc32 : List UInt8 → UInt32) (rate : ζ → UInt64) :
    Sys (Pool ζ ω) (Act ζ ω) where
  init s := (∀ z, s.zones z = ⟨.nil, [], fun _ => none⟩) ∧
    ∀ w, s.workers w = ⟨.done none, fun _ => none⟩
  step s
    | .call w call =>
      match (s.workers w).pc with
      | .done _ =>
        some ⟨s.zones, Function.update s.workers w ⟨.loop call 0 false, (s.workers w).node⟩⟩
      | _ => none
    | .step w now slab => do
      let (wk, zones) ← workerStep crc32 rate now slab (s.workers w) s.zones
      some ⟨zones, Function.update s.workers w wk⟩

/-! ### What one step does -/

/-- A worker goes on without touching a zone. -/
inductive Passes : Worker ζ → Pc ζ → Prop where
  /-- The limits have been gone through, and some node was reserved. -/
  | loopEnd {call : Call ζ} {n : ℕ} {node : ζ → Option ℕ} : call.conf.limits[n]? = none →
      Passes ⟨.loop call n true, node⟩ (.account call n 0)
  /-- The limits have been gone through, and no key was usable. -/
  | unlimited {call : Call ζ} {n : ℕ} {node : ζ → Option ℕ} : call.conf.limits[n]? = none →
      Passes ⟨.loop call n false, node⟩ (.done (some (.declined, .none)))
  /-- The key could not be evaluated. -/
  | failed {call : Call ζ} {n : ℕ} {again : Bool} {limit : LimitConf ζ} {node : ζ → Option ℕ} :
      call.conf.limits[n]? = some limit → call.key limit.zone = none →
      Passes ⟨.loop call n again, node⟩ (.done (some (.status 500, .none)))
  /-- The key is empty or too long. -/
  | skip {call : Call ζ} {n : ℕ} {again : Bool} {limit : LimitConf ζ} {node : ζ → Option ℕ}
      {key : List UInt8} : call.conf.limits[n]? = some limit → call.key limit.zone = some key →
      skips key = true → Passes ⟨.loop call n again, node⟩ (.loop call (n + 1) again)
  | undone {call : Call ζ} {node : ζ → Option ℕ} :
      Passes ⟨.undo call 0, node⟩ (.done (some (reject call)))
  | undoSkip {call : Call ζ} {n : ℕ} {limit : LimitConf ζ} {node : ζ → Option ℕ} :
      call.conf.limits[n]? = some limit → node limit.zone = none →
      Passes ⟨.undo call (n + 1), node⟩ (.undo call n)
  | accounted {call : Call ζ} {maxDelay : UInt64} {node : ζ → Option ℕ} :
      Passes ⟨.account call 0 maxDelay, node⟩ (.done (some (finish call maxDelay)))
  | accountSkip {call : Call ζ} {n : ℕ} {maxDelay : UInt64} {limit : LimitConf ζ}
      {node : ζ → Option ℕ} : call.conf.limits[n]? = some limit → node limit.zone = none →
      Passes ⟨.account call (n + 1) maxDelay, node⟩ (.account call n maxDelay)

/-- What a worker's step does: to the worker, and to a zone. -/
inductive Does (crc32 : List UInt8 → UInt32) (rate : ζ → UInt64) (now : UInt64) (slab : Slab)
    (zones : ζ → Shctx) : Worker ζ → Worker ζ → Option (ζ × List Event) → Prop where
  | pass {w : Worker ζ} {pc : Pc ζ} :
    Passes w pc → Does crc32 rate now slab zones w ⟨pc, w.node⟩ none
  | lookup {call : Call ζ} {n : ℕ} {again : Bool} {node : ζ → Option ℕ} {limit : LimitConf ζ}
      {key : List UInt8} {r : LookupResult} {evs : List Event} :
      call.conf.limits[n]? = some limit → call.key limit.zone = some key → skips key = false →
      LookupEvents ⟨rate limit.zone, limit.burst, limit.delay⟩ now (crc32 key) key
        (decide (n = call.conf.limits.length - 1))
        (keyNode (crc32 key) key (zones limit.zone))
        (short (rate limit.zone) now slab (crc32 key) key (zones limit.zone)) r evs →
      Does crc32 rate now slab zones ⟨.loop call n again, node⟩
        ⟨afterLookup rate call n limit r,
          r.node.elim node fun a => Function.update node limit.zone (some a)⟩
        (some (limit.zone, evs))
  | release {call : Call ζ} {n a : ℕ} {node : ζ → Option ℕ} {limit : LimitConf ζ} :
      call.conf.limits[n]? = some limit → node limit.zone = some a →
      Does crc32 rate now slab zones ⟨.undo call (n + 1), node⟩
        ⟨.undo call n, Function.update node limit.zone none⟩ (some (limit.zone, [.release a]))
  | charge {call : Call ζ} {n a : ℕ} {maxDelay : UInt64} {node : ζ → Option ℕ}
      {limit : LimitConf ζ} (excess : UInt64) : call.conf.limits[n]? = some limit →
        node limit.zone = some a →
      Does crc32 rate now slab zones ⟨.account call (n + 1) maxDelay, node⟩
        ⟨.account call n (higher maxDelay (delayOf (rate limit.zone) limit.delay excess)),
          Function.update node limit.zone none⟩
        (some (limit.zone, [.charge (rate limit.zone) now a]))

/-- The worker is in the handler, within the location's limits. -/
def Pc.Running : Pc ζ → Prop
  | .done _ => False
  | .loop call n _ => n ≤ call.conf.limits.length
  | .undo call n => n ≤ call.conf.limits.length
  | .account call n _ => n ≤ call.conf.limits.length

/-- What a step leaves of the zones. -/
def ZonesAfter (zones zones' : ζ → Shctx) (held : ζ → List ℕ) : Option (ζ × List Event) → Prop
  | none => zones' = zones
  | some (z, evs) => ∃ z', zoneSys.Run Any ⟨zones z, held z⟩ evs z' ∧
      zones' = Function.update zones z z'.toShctx

variable {crc32 : List UInt8 → UInt32} {rate : ζ → UInt64} {now : UInt64} {slab : Slab}
  {w w' : Worker ζ} {zones zones' : ζ → Shctx} {held : ζ → List ℕ}

/-- **A step of a worker whose pointers are held** can be taken, and does one of these things. -/
theorem workerStep_spec (hwf : ∀ z, Zone.Wf ⟨zones z, held z⟩) (hrun : w.pc.Running)
    (hheld : ∀ z a, w.node z = some a → a ∈ held z) :
    ∃ w' zones' did, workerStep crc32 rate now slab w zones = some (w', zones') ∧
      Does crc32 rate now slab zones w w' did ∧ ZonesAfter zones zones' held did := by
  obtain ⟨pc, node⟩ := w
  cases pc with
  | done result => exact hrun.elim
  | loop call n again =>
    cases hlimit : call.conf.limits[n]? with
    | none =>
      cases again with
      | true =>
          exact ⟨_, _, none, by simp only [workerStep, hlimit]; rfl, .pass (.loopEnd hlimit), rfl⟩
      | false =>
        exact ⟨_, _, none, by simp only [workerStep, hlimit]; rfl, .pass (.unlimited hlimit), rfl⟩
    | some limit =>
      cases hkey : call.key limit.zone with
      | none =>
        exact ⟨_, _, none, by simp only [workerStep, hlimit, hkey], .pass (.failed hlimit hkey),
          rfl⟩
      | some key =>
        by_cases hlen : skips key = true
        · refine ⟨_, _, none, ?_, .pass (.skip hlimit hkey hlen), rfl⟩
          simp only [workerStep, hlimit, hkey, hlen, ↓reduceIte]
        · obtain ⟨r, z', evs, hlookup, hrun', hevs⟩ := lookup_spec
            ⟨rate limit.zone, limit.burst, limit.delay⟩ slab now (crc32 key) key
            (decide (n = call.conf.limits.length - 1)) (hwf limit.zone)
          refine ⟨_, _, _, ?_, .lookup hlimit hkey (Bool.eq_false_iff.mpr hlen) hevs, z', hrun',
            rfl⟩
          simp only [workerStep, hlimit, hkey, hlen]
          simp only at hlookup
          rw [hlookup]
          rfl
  | undo call n =>
    cases n with
    | zero => exact ⟨_, _, none, rfl, .pass .undone, rfl⟩
    | succ n =>
      obtain ⟨limit, hlimit⟩ : ∃ limit, call.conf.limits[n]? = some limit :=
        ⟨_, List.getElem?_eq_getElem hrun⟩
      cases hnode : node limit.zone with
      | none =>
        refine ⟨_, _, none, ?_, .pass (.undoSkip hlimit hnode), rfl⟩
        simp only [workerStep, hlimit, Option.bind_eq_bind, Option.bind_some, hnode]
      | some a =>
        obtain ⟨z', hrelease, hstep⟩ := releaseNode_spec (hwf _) (hheld _ a hnode)
        refine ⟨_, _, _, ?_, .release hlimit hnode, z', Zone.run_single hstep, rfl⟩
        simp only [workerStep, hlimit, Option.bind_eq_bind, Option.bind_some, hnode]
        simp only at hrelease
        rw [hrelease]
        rfl
  | account call n maxDelay =>
    cases n with
    | zero => exact ⟨_, _, none, rfl, .pass .accounted, rfl⟩
    | succ n =>
      obtain ⟨limit, hlimit⟩ : ∃ limit, call.conf.limits[n]? = some limit :=
        ⟨_, List.getElem?_eq_getElem hrun⟩
      cases hnode : node limit.zone with
      | none =>
        refine ⟨_, _, none, ?_, .pass (.accountSkip hlimit hnode), rfl⟩
        simp only [workerStep, hlimit, Option.bind_eq_bind, Option.bind_some, hnode]
      | some a =>
        obtain ⟨excess, z', haccount, hstep⟩ := accountNode_spec (rate limit.zone) now (hwf _)
          (hheld _ a hnode)
        refine ⟨_, _, _, ?_, .charge excess hlimit hnode, z', Zone.run_single hstep, rfl⟩
        simp only [workerStep, hlimit, Option.bind_eq_bind, Option.bind_some, hnode]
        simp only at haccount
        rw [haccount]
        rfl

/-! ### The pointers of the workers -/

section Workers

variable [Fintype ω] {s s' : Pool ζ ω} {held' : ζ → List ℕ} {i : ω} {z : ζ} {a : ℕ}

/-- How many workers have a pointer to a node. -/
def holders (s : Pool ζ ω) (z : ζ) (a : ℕ) : ℕ :=
  (Finset.univ.filter fun i => (s.workers i).node z = some a).card

omit [DecidableEq ζ] in
/-- What a step of one worker changes of it. -/
theorem holders_update (s : Pool ζ ω) (zones : ζ → Shctx) (i : ω) (w : Worker ζ) (z : ζ) (a : ℕ) :
    holders ⟨zones, Function.update s.workers i w⟩ z a +
        (if (s.workers i).node z = some a then 1 else 0) =
      holders s z a + if w.node z = some a then 1 else 0 := by
  have hrest : ∀ j ∈ Finset.univ.erase i,
      (if (Function.update s.workers i w j).node z = some a then 1 else 0) =
        if (s.workers j).node z = some a then 1 else 0 := by
    intro j hj
    rw [Function.update_of_ne (Finset.ne_of_mem_erase hj)]
  simp only [holders, Finset.card_filter]
  rw [← Finset.add_sum_erase _ _ (Finset.mem_univ i),
    ← Finset.add_sum_erase _ _ (Finset.mem_univ i), Finset.sum_congr rfl hrest,
    Function.update_self]
  omega

omit [DecidableEq ζ] [DecidableEq ω] in
theorem holders_pos (h : (s.workers i).node z = some a) : 0 < holders s z a :=
  Finset.card_pos.mpr ⟨i, by simp [h]⟩

/-- What a step does to a worker's pointers and to those that are held. When `exact` holds a pointer
is never overwritten. -/
inductive Trade (exact : Prop) :
    (ζ → Option ℕ) → (ζ → List ℕ) → (ζ → Option ℕ) → (ζ → List ℕ) → Prop where
  | keep {node : ζ → Option ℕ} {held : ζ → List ℕ} : Trade exact node held node held
  | gain {node : ζ → Option ℕ} {held : ζ → List ℕ} (z : ζ) (a : ℕ) : (exact → node z = none) →
      Trade exact node held (Function.update node z (some a)) (Function.update held z (a :: held z))
  | lose {node : ζ → Option ℕ} {held : ζ → List ℕ} (z : ζ) (a : ℕ) : node z = some a →
      Trade exact node held (Function.update node z none)
        (Function.update held z ((held z).erase a))

variable {exact : Prop}

/-- **The pointers that workers have stay among those that are held**, and exactly those when none
is overwritten. -/
theorem Trade.holders_le (zones : ζ → Shctx)
    (h : Trade exact (s.workers i).node held w.node held')
    (hle : ∀ z a, holders s z a ≤ (held z).count a) (z : ζ) (a : ℕ) :
    holders ⟨zones, Function.update s.workers i w⟩ z a + (held z).count a ≤
        holders s z a + (held' z).count a ∧
      (exact → holders ⟨zones, Function.update s.workers i w⟩ z a + (held z).count a =
        holders s z a + (held' z).count a) := by
  have hupdate := holders_update s zones i w z a
  have hza := hle z a
  have hpos : (s.workers i).node z = some a → 0 < holders s z a := holders_pos
  generalize (s.workers i).node = node at h hupdate hpos
  generalize w.node = node' at h hupdate
  cases h with
  | keep => exact ⟨by omega, fun _ => by omega⟩
  | gain z₀ a₀ hnone =>
    by_cases hz : z = z₀
    · subst hz
      have hcount : (a₀ :: held z).count a = (held z).count a + if a₀ = a then 1 else 0 := by
        simp [List.count_cons]
      simp only [Function.update_self, Option.some.injEq, hcount] at hupdate ⊢
      refine ⟨by omega, fun hexact => ?_⟩
      simp only [hnone hexact, reduceCtorEq, ↓reduceIte] at hupdate
      omega
    · simp only [Function.update_of_ne hz] at hupdate ⊢
      exact ⟨by omega, fun _ => by omega⟩
  | lose z₀ a₀ hnode =>
    by_cases hz : z = z₀
    · subst hz
      have hcount : ((held z).erase a₀).count a = (held z).count a - if a₀ = a then 1 else 0 := by
        simp [List.count_erase]
      simp only [Function.update_self, hnode, Option.some.injEq, reduceCtorEq, ↓reduceIte,
        hcount] at hupdate hpos ⊢
      by_cases ha : a₀ = a
      · have := hpos ha
        simp only [ha, ↓reduceIte] at hupdate ⊢
        exact ⟨by omega, fun _ => by omega⟩
      · simp only [ha, ↓reduceIte] at hupdate ⊢
        exact ⟨by omega, fun _ => by omega⟩
    · simp only [Function.update_of_ne hz] at hupdate ⊢
      exact ⟨by omega, fun _ => by omega⟩

end Workers

/-! ### What every step keeps -/

/-- The zones whose node a worker may have reserved where it is. -/
def Pc.reserved : Pc ζ → List ζ
  | .done _ => []
  | .loop call n again => if again then (call.conf.limits.take n).map LimitConf.zone else []
  | .undo call n => (call.conf.limits.take n).map LimitConf.zone
  | .account call n _ => (call.conf.limits.take n).map LimitConf.zone

/-- The worker is not beyond the location's limits. -/
def Pc.InRange : Pc ζ → Prop
  | .done _ => True
  | pc => pc.Running

/-- The key that the worker evaluates next, if any, can be evaluated. -/
def Pc.Evaluates : Pc ζ → Prop
  | .loop call n _ => ∀ limit, call.conf.limits[n]? = some limit → call.key limit.zone ≠ none
  | _ => True

instance (pc : Pc ζ) : Decidable pc.Evaluates :=
  match pc with
  | .loop call n _ => inferInstanceAs
    (Decidable (∀ limit ∈ call.conf.limits[n]?, call.key limit.zone ≠ none))
  | .done _ => inferInstanceAs (Decidable True)
  | .undo _ _ => inferInstanceAs (Decidable True)
  | .account _ _ _ => inferInstanceAs (Decidable True)

/-- The pointers that are held after a step. -/
def heldAfter (held : ζ → List ℕ) : Option (ζ × List Event) → ζ → List ℕ
  | none => held
  | some (z, evs) => Function.update held z (evs.foldl Event.held (held z))

variable {did : Option (ζ × List Event)} {exact : Prop} {call : Call ζ} {n : ℕ}
  {limit : LimitConf ζ} {z : ζ}

omit [DecidableEq ζ] in
theorem take_map_zone (hlimit : call.conf.limits[n]? = some limit) :
    (call.conf.limits.take (n + 1)).map LimitConf.zone =
      (call.conf.limits.take n).map LimitConf.zone ++ [limit.zone] := by
  rw [List.take_add_one, hlimit, List.map_append]
  rfl

omit [DecidableEq ζ] in
/-- The zone of a limit is not that of one before it. -/
theorem not_mem_take (hlimit : call.conf.limits[n]? = some limit) :
    limit.zone ∉ (call.conf.limits.take n).map LimitConf.zone := by
  have hdistinct := call.conf.distinct.sublist ((List.take_sublist (n + 1) _).map LimitConf.zone)
  rw [take_map_zone hlimit] at hdistinct
  intro hmem
  exact (List.nodup_append.mp hdistinct).2.2 _ hmem _ List.mem_cons_self rfl

omit [DecidableEq ζ] in
/-- A worker that comes to a limit has reserved no node of its zone. -/
theorem not_mem_reserved (hlimit : call.conf.limits[n]? = some limit) (again : Bool) :
    limit.zone ∉ (Pc.loop call n again).reserved := by
  simp only [Pc.reserved]
  split
  · exact not_mem_take hlimit
  · exact List.not_mem_nil

theorem ZonesAfter.wf (h : ZonesAfter zones zones' held did)
    (hwf : ∀ z, Zone.Wf ⟨zones z, held z⟩) (z : ζ) : Zone.Wf ⟨zones' z, heldAfter held did z⟩ := by
  cases did with
  | none =>
    obtain rfl : zones' = zones := h
    exact hwf z
  | some ze =>
    obtain ⟨z₀, evs⟩ := ze
    obtain ⟨z', hrun, rfl⟩ := h
    by_cases hz : z = z₀
    · subst hz
      have hwf' := (hwf z).run hrun
      have hheld := Zone.run_held hrun
      simp only [heldAfter, Function.update_self]
      rw [← hheld]
      exact hwf'
    · simp only [heldAfter, Function.update_of_ne hz]
      exact hwf z

/-- What a step does to the worker's pointers and to those that are held. -/
theorem Does.trade (held : ζ → List ℕ) (h : Does crc32 rate now slab zones w w' did)
    (hreserved : exact → ∀ z, w.node z ≠ none → z ∈ w.pc.reserved) :
    Trade exact w.node held w'.node (heldAfter held did) := by
  cases h with
  | pass hpass => exact .keep
  | @lookup call n again node limit key r evs hlimit hkey hlen hevs =>
    simp only [heldAfter, hevs.held]
    cases r.node with
    | none =>
      simp only [Option.elim_none, Function.update_eq_self]
      exact .keep
    | some a =>
      refine .gain limit.zone a fun hexact => ?_
      by_contra hne
      exact not_mem_reserved hlimit again (hreserved hexact limit.zone hne)
  | release hlimit hnode => exact .lose _ _ hnode
  | charge excess hlimit hnode => exact .lose _ _ hnode

omit [DecidableEq ζ] in
theorem lt_length (hlimit : call.conf.limits[n]? = some limit) :
    n + 1 ≤ call.conf.limits.length := (List.getElem?_eq_some_iff.mp hlimit).1

theorem Does.inRange (h : Does crc32 rate now slab zones w w' did) (hrun : w.pc.Running) :
    w'.pc.InRange := by
  cases h with
  | pass hpass =>
    cases hpass with
    | skip hlimit _ _ => exact lt_length hlimit
    | undoSkip hlimit _ => exact Nat.le_of_succ_le hrun
    | accountSkip hlimit _ => exact Nat.le_of_succ_le hrun
    | loopEnd _ => exact hrun
    | _ => trivial
  | @lookup call n again node limit key r evs hlimit hkey hlen hevs =>
    simp only [afterLookup]
    cases r.rc with
    | again => exact lt_length hlimit
    | _ => exact hrun
  | release hlimit hnode => exact Nat.le_of_succ_le hrun
  | charge excess hlimit hnode => exact Nat.le_of_succ_le hrun

/-- A worker has pointers only where it may, while keys can be evaluated. -/
theorem Does.reserved (h : Does crc32 rate now slab zones w w' did) (heval : w.pc.Evaluates)
    (hreserved : ∀ z, w.node z ≠ none → z ∈ w.pc.reserved) (hz : w'.node z ≠ none) :
    z ∈ w'.pc.reserved := by
  cases h with
  | pass hpass =>
    have hmem := hreserved z hz
    cases hpass with
    | loopEnd _ => exact hmem
    | unlimited _ => exact hmem
    | failed hlimit hkey => exact absurd hkey (heval _ hlimit)
    | skip hlimit _ _ =>
      simp only [Pc.reserved, take_map_zone hlimit] at hmem ⊢
      split at hmem
      · next hagain =>
        rw [if_pos hagain]
        exact List.mem_append_left _ hmem
      · cases hmem
    | undone => exact hmem
    | accounted => exact hmem
    | undoSkip hlimit hnone =>
      simp only [Pc.reserved, take_map_zone hlimit] at hmem
      rcases List.mem_append.mp hmem with hmem | hmem
      · exact hmem
      · rw [List.mem_singleton.mp hmem] at hz
        exact absurd hnone hz
    | accountSkip hlimit hnone =>
      simp only [Pc.reserved, take_map_zone hlimit] at hmem
      rcases List.mem_append.mp hmem with hmem | hmem
      · exact hmem
      · rw [List.mem_singleton.mp hmem] at hz
        exact absurd hnone hz
  | @lookup call n again node limit key r evs hlimit hkey hlen hevs =>
    have hbefore : ∀ z, node z ≠ none → z ∈ (call.conf.limits.take n).map LimitConf.zone := by
      intro z hne
      have hmem := hreserved z hne
      simp only [Pc.reserved] at hmem
      split at hmem
      · exact hmem
      · cases hmem
    by_cases hagain : r.rc = .again
    · simp only [afterLookup, hagain, Pc.reserved, take_map_zone hlimit, ↓reduceIte]
      cases hr : r.node with
      | none =>
        rw [hr] at hz
        exact List.mem_append_left _ (hbefore z hz)
      | some a =>
        rw [hr] at hz
        by_cases hzone : z = limit.zone
        · subst hzone
          exact List.mem_append_right _ List.mem_cons_self
        · simp only [Option.elim_some, Function.update_of_ne hzone] at hz
          exact List.mem_append_left _ (hbefore z hz)
    · rw [hevs.node_eq_none hagain] at hz
      have hmem := hbefore z hz
      simp only [afterLookup]
      split
      · next heq => exact absurd heq hagain
      · exact hmem
      · exact hmem
      · exact hmem
  | @release call n a node limit hlimit hnode =>
    have hzone : z ≠ limit.zone := by rintro rfl; simp at hz
    have hmem := hreserved z (by simpa [Function.update_of_ne hzone] using hz)
    simp only [Pc.reserved, take_map_zone hlimit] at hmem
    exact (List.mem_append.mp hmem).resolve_right (by simpa using hzone)
  | @charge call n a maxDelay node limit excess hlimit hnode =>
    have hzone : z ≠ limit.zone := by rintro rfl; simp at hz
    have hmem := hreserved z (by simpa [Function.update_of_ne hzone] using hz)
    simp only [Pc.reserved, take_map_zone hlimit] at hmem
    exact (List.mem_append.mp hmem).resolve_right (by simpa using hzone)

section Runs

variable [Fintype ω] {s s' : Pool ζ ω} {i : ω}

/-- The zones are in order, with the pointers `held` given out, and the workers' pointers are among
them. When `exact` holds these are all, and workers have them only where they may. -/
structure Pool.Inv (exact : Prop) (s : Pool ζ ω) (held : ζ → List ℕ) : Prop where
  wf : ∀ z, Zone.Wf ⟨s.zones z, held z⟩
  range : ∀ i, (s.workers i).pc.InRange
  pointers : ∀ z a, holders s z a ≤ (held z).count a
  all : exact → ∀ z a, holders s z a = (held z).count a
  reserved : exact → ∀ i z, (s.workers i).node z ≠ none → z ∈ (s.workers i).pc.reserved

/-- The keys that a step evaluates can be evaluated. -/
def Evaluates (s : Pool ζ ω) : Act ζ ω → Prop
  | .call _ _ => True
  | .step i _ _ => (s.workers i).pc.Evaluates

instance (s : Pool ζ ω) (act : Act ζ ω) : Decidable (Evaluates s act) :=
  match act with
  | .call _ _ => inferInstanceAs (Decidable True)
  | .step i _ _ => inferInstanceAs (Decidable (s.workers i).pc.Evaluates)

omit [DecidableEq ζ] [DecidableEq ω] in
theorem Pool.Inv.mem_held (h : s.Inv exact held) {a : ℕ} (ha : (s.workers i).node z = some a) :
    a ∈ held z :=
  List.count_pos_iff.mp (Nat.lt_of_lt_of_le (holders_pos ha) (h.pointers z a))

omit [DecidableEq ω] in
/-- **No step of a worker reads a node that is gone.** -/
theorem Pool.Inv.step_spec (h : s.Inv exact held) (i : ω) (now : UInt64) (slab : Slab)
    (crc32 : List UInt8 → UInt32) (rate : ζ → UInt64) (hrun : (s.workers i).pc.Running) :
    ∃ w zones did, workerStep crc32 rate now slab (s.workers i) s.zones = some (w, zones) ∧
      Does crc32 rate now slab s.zones (s.workers i) w did ∧ ZonesAfter s.zones zones held did :=
  workerStep_spec h.wf hrun fun _ _ ha => h.mem_held ha

/-- **What a step of a worker does to the server**, which it keeps in order. -/
theorem Pool.Inv.step_does (h : s.Inv exact held) {now : UInt64} {slab : Slab}
    (heval : exact → (s.workers i).pc.Evaluates)
    (hs : (serverSys crc32 rate).step s (.step i now slab) = some s') :
    ∃ w did, workerStep crc32 rate now slab (s.workers i) s.zones = some (w, s'.zones) ∧
      s'.workers = Function.update s.workers i w ∧
      Does crc32 rate now slab s.zones (s.workers i) w did ∧
      ZonesAfter s.zones s'.zones held did ∧ s'.Inv exact (heldAfter held did) := by
  have hrun : (s.workers i).pc.Running := by
    have hrange := h.range i
    cases hpc : (s.workers i).pc with
    | done result => simp [serverSys, workerStep, hpc] at hs
    | _ => rwa [hpc] at hrange
  obtain ⟨w, zones, did, hstep, hdoes, hafter⟩ := h.step_spec i now slab crc32 rate hrun
  obtain rfl : _ = s' := by simpa [serverSys, hstep] using hs
  have htrade := hdoes.trade held fun hexact => h.reserved hexact i
  refine ⟨w, did, hstep, rfl, hdoes, hafter, hafter.wf h.wf, fun j => ?_, fun z a => ?_,
    fun hexact z a => ?_, fun hexact j z hz => ?_⟩
  · by_cases hj : j = i
    · subst hj
      simpa using hdoes.inRange hrun
    · simpa [Function.update_of_ne hj] using h.range j
  · have hle := (htrade.holders_le zones h.pointers z a).1
    have hpointers := h.pointers z a
    omega
  · have heq := (htrade.holders_le zones h.pointers z a).2 hexact
    have hall := h.all hexact z a
    omega
  · by_cases hj : j = i
    · subst hj
      simp only [Function.update_self] at hz ⊢
      exact hdoes.reserved (heval hexact) (h.reserved hexact j) hz
    · simp only [Function.update_of_ne hj] at hz ⊢
      exact h.reserved hexact j z hz

/-- **One step keeps the server in order.** -/
theorem Pool.Inv.step (h : s.Inv exact held) {act : Act ζ ω} (heval : exact → Evaluates s act)
    (hs : (serverSys crc32 rate).step s act = some s') : ∃ held', s'.Inv exact held' := by
  cases act with
  | call i call =>
    simp only [serverSys] at hs
    split at hs
    · next result hpc =>
      cases hs
      have hnode : ∀ j, (Function.update s.workers i
          ⟨.loop call 0 false, (s.workers i).node⟩ j).node = (s.workers j).node := by
        intro j
        by_cases hj : j = i
        · subst hj
          simp
        · simp [Function.update_of_ne hj]
      refine ⟨held, h.wf, fun j => ?_, fun z a => ?_, fun hexact z a => ?_, fun hexact j z hz => ?_⟩
      · by_cases hj : j = i
        · subst hj
          simp only [Function.update_self]
          exact Nat.zero_le _
        · simpa [Function.update_of_ne hj] using h.range j
      · simpa only [holders, hnode] using h.pointers z a
      · simpa only [holders, hnode] using h.all hexact z a
      · rw [hnode] at hz
        have hmem := h.reserved hexact j z hz
        by_cases hj : j = i
        · subst hj
          rw [hpc] at hmem
          cases hmem
        · simpa [Function.update_of_ne hj] using hmem
    · cases hs
  | step i now slab =>
    obtain ⟨w, did, -, -, -, -, hinv⟩ := h.step_does (fun hexact => heval hexact) hs
    exact ⟨_, hinv⟩

theorem server_inv_init (exact : Prop) (h : (serverSys crc32 rate).init s) :
    s.Inv exact fun _ => [] := by
  obtain ⟨hzones, hworkers⟩ := h
  have hholders : ∀ z a, holders s z a = 0 := by
    intro z a
    simp [holders, hworkers]
  refine ⟨fun z => ?_, fun i => ?_, fun z a => ?_, fun _ z a => ?_, fun _ i z hz => ?_⟩
  · exact zone_wf_init (by rw [hzones]; rfl)
  · rw [hworkers]
    trivial
  · simp [hholders]
  · simp [hholders]
  · rw [hworkers] at hz
    exact absurd rfl hz

theorem Pool.Inv.of_reach (exact : Prop) {C : Pool ζ ω → Act ζ ω → Prop}
    (hC : ∀ s act, C s act → exact → Evaluates s act)
    (h : (serverSys crc32 rate).Reach C s) : ∃ held, s.Inv exact held := by
  refine h.invariant (I := fun s => ∃ held, s.Inv exact held) ?_ ?_
  · intro s hinit
    exact ⟨_, server_inv_init exact hinit⟩
  · rintro s act t - hCs ⟨held, hinv⟩ hs
    exact hinv.step (hC _ _ hCs) hs

/-- An allocator of eight nodes. -/
def eightNodes : Slab where
  alloc mem _ := (List.range 8).find? fun a => (mem a).isNone
  fresh mem _ a h := by simpa using List.find?_some h

/-- A request of a location with two limits, whose key is the same for both. -/
def twoLimits (key : List UInt8) : Call Bool where
  conf := ⟨[⟨false, 5000, 0⟩, ⟨true, 5000, 0⟩], by decide, 503, false⟩
  key _ := some key

/-- Two zones and two workers before the first request. -/
def freshServer : Pool Bool Bool :=
  ⟨fun _ => ⟨.nil, [], fun _ => none⟩, fun _ => ⟨.done none, fun _ => none⟩⟩

/-- Requests of two keys: each worker reserves a node in the first zone, and one of them is counted
in the second. -/
def twoRequests : List (Act Bool Bool) :=
  [.call false (twoLimits [1]), .call true (twoLimits [2]), .step false 1000 eightNodes,
    .step true 1001 eightNodes, .step true 1002 eightNodes]

/-- Requests of one key, one after the other, to their ends. -/
def twoReturns : List (Act Bool Bool) :=
  [.call false (twoLimits [1]), .call true (twoLimits [1])] ++
    List.replicate 4 (.step false 1000 eightNodes) ++ List.replicate 4 (.step true 1000 eightNodes)

/-- The rate of one request a second. -/
def perSecond (_ : Bool) : UInt64 := 1000

/-- The server with two zones and two workers. -/
def oneRate : Sys (Pool Bool Bool) (Act Bool Bool) := serverSys crc32Short perSecond

/-- **No interleaving of the workers' steps reads a node that was deleted.** In every state of every
run a worker's pointer is to a node that is allocated and has a reservation for each pointer to it,
every worker in the handler can go on, and the tree, the queue and the memory of a zone have the
same nodes, the tree in order and in balance. -/
theorem server_safe (h : (serverSys crc32 rate).Reach Any s) :
    (∀ i z a, (s.workers i).node z = some a →
      ∃ lr, (s.zones z).mem a = some lr ∧ holders s z a ≤ lr.count) ∧
    (∀ i now slab, (s.workers i).pc.Running →
      (serverSys crc32 rate).step s (.step i now slab) ≠ none) ∧
    ∀ z, (s.zones z).Wf := by
  obtain ⟨held, hinv⟩ := Pool.Inv.of_reach False (fun _ _ _ hno => hno.elim) h
  refine ⟨fun i z a ha => ?_, fun i now slab hrun => ?_, fun z => (hinv.wf z).sh⟩
  · obtain ⟨lr, hlr⟩ := Option.ne_none_iff_exists'.mp ((hinv.wf z).held a (hinv.mem_held ha))
    refine ⟨lr, hlr, ?_⟩
    rw [(hinv.wf z).count a lr hlr]
    exact hinv.pointers z a
  · obtain ⟨w, zones, did, hstep, -, -⟩ := hinv.step_spec i now slab crc32 rate hrun
    simp [serverSys, hstep]

/-- In the midst of two requests, a worker's pointer is to a node with a reservation. -/
theorem server_safe_twoRequests :
    ∃ s, oneRate.Reach Any s ∧ (s.workers false).node false = some 0 ∧
      ∃ lr, (s.zones false).mem 0 = some lr ∧ holders s false 0 ≤ lr.count := by
  obtain ⟨s, hs, hnode⟩ : ∃ s, oneRate.exec freshServer twoRequests = some s ∧
      (s.workers false).node false = some 0 := by
    refine Option.map_eq_some_iff.mp ?_
    decide +kernel
  have hreach : oneRate.Reach Any s :=
    ⟨freshServer, twoRequests, ⟨fun _ => rfl, fun _ => rfl⟩, Sys.run_of_exec hs⟩
  exact ⟨s, hreach, hnode, (server_safe hreach).1 false false 0 hnode⟩

/-- **The reservations are exactly the workers' pointers**, while keys can be evaluated: none is
left of a request when its handler has returned. -/
theorem server_exact (h : (serverSys crc32 rate).Reach Evaluates s) :
    (∀ z a lr, (s.zones z).mem a = some lr → lr.count = holders s z a) ∧
    ∀ i result, (s.workers i).pc = .done result → ∀ z, (s.workers i).node z = none := by
  obtain ⟨held, hinv⟩ := Pool.Inv.of_reach True (fun _ _ hC _ => hC) h
  refine ⟨fun z a lr hlr => ?_, fun i result hpc z => ?_⟩
  · rw [(hinv.wf z).count a lr hlr]
    exact (hinv.all trivial z a).symm
  · by_contra hne
    have hmem := hinv.reserved trivial i z hne
    rw [hpc] at hmem
    cases hmem

/-- Two requests of one key to their end: the second is delayed, and no reservation is left. -/
theorem server_exact_twoReturns :
    ∃ s, oneRate.Reach Evaluates s ∧ (s.workers true).pc = .done (some (.again 1000, .delayed)) ∧
      (s.workers true).node false = none := by
  obtain ⟨s, hs, hresult⟩ : ∃ s,
      oneRate.execIf (fun s act => decide (Evaluates s act)) freshServer twoReturns = some s ∧
      (s.workers true).pc.result = some (.again 1000, .delayed) := by
    refine Option.map_eq_some_iff.mp ?_
    decide +kernel
  have hreach : oneRate.Reach Evaluates s :=
    ⟨freshServer, twoReturns, ⟨fun _ => rfl, fun _ => rfl⟩,
      Sys.run_of_execIf hs fun _ _ _ htest => of_decide_eq_true htest⟩
  have hdone := Pc.eq_done hresult
  exact ⟨s, hreach, hdone, (server_exact hreach).2 true _ hdone false⟩

end Runs

end NginxTools.LimitReq
