import NginxTools.LimitReq.Handler

/-!
# What a request is counted for

A request that the handler lets through has been counted once in the zone of each limit that applies
to it, and one that is rejected has been counted nowhere:

    if (rc == NGX_BUSY || rc == NGX_ERROR) {
        ...
        while (n--) { ... ctx->node->count--; ... ctx->node = NULL; }
        ...
        return lrcf->status_code;
    }
    if (rc == NGX_AGAIN) { excess = 0; }
    delay = ngx_http_limit_req_account(limits, n, &excess, &limit);

whatever the other workers do in between.

## The model

`billed` are the zones in which one step of a worker counts its request, `bills` those of a run's
steps of one worker, and `Call.applies` says that a limit has a key for the request that is not
skipped. `Billing` is what holds of a worker and its bills at every place of the handler.

## What is proved

`Billing.step`: a step of the worker keeps it. **`billed_once`**: from the call of the handler to
its return, with any steps of the other workers in between.
-/

namespace NginxTools.LimitReq

open NginxTools.Library
open NginxTools.Core

variable {ζ : Type} [DecidableEq ζ]

/-! ### Bills -/

/-- The zones in which a worker's step counts its request: the last limit was looked up and was
within the burst, or a reservation was used. -/
def billed (w w' : Worker ζ) : List ζ :=
  match w.pc, w'.pc with
  | .loop call n _, .account _ _ _ => (call.conf.limits[n]?).toList.map LimitConf.zone
  | .account call (n + 1) _, _ =>
    ((call.conf.limits[n]?).toList.map LimitConf.zone).filter fun z => (w.node z).isSome
  | _, _ => []

/-- The limit has a key for the request, which is not skipped. -/
def Call.applies (call : Call ζ) (limit : LimitConf ζ) : Bool :=
  (call.key limit.zone).any fun key => !skips key

/-- The zones of the limits that apply, among some of a location's. -/
def Call.applied (call : Call ζ) (limits : List (LimitConf ζ)) : List ζ :=
  (limits.filter call.applies).map LimitConf.zone

variable {call : Call ζ} {n : ℕ} {limit : LimitConf ζ} {bill : List ζ} {w w' : Worker ζ}

/-- What holds of a worker in a call, when the request has been counted in the zones of a bill. -/
inductive Billing (call : Call ζ) : Worker ζ → List ζ → Prop where
  /-- Of the limits that were gone through those that apply are reserved. -/
  | loop {n : ℕ} {again : Bool} {node : ζ → Option ℕ} :
      (∀ limit ∈ call.conf.limits.take n, node limit.zone ≠ none ↔ call.applies limit = true) →
      (again = false → call.applied (call.conf.limits.take n) = []) →
      Billing call ⟨.loop call n again, node⟩ []
  | undo {n : ℕ} {node : ζ → Option ℕ} : Billing call ⟨.undo call n, node⟩ []
  /-- Those from the `n`th on have been counted, and the others are reserved. -/
  | account {n : ℕ} (maxDelay : UInt64) {node : ζ → Option ℕ} :
      (∀ limit ∈ call.conf.limits.take n, node limit.zone ≠ none ↔ call.applies limit = true) →
      Billing call ⟨.account call n maxDelay, node⟩
        (call.applied (call.conf.limits.drop n)).reverse
  | passed {maxDelay : UInt64} {node : ζ → Option ℕ} :
      Billing call ⟨.done (some (finish call maxDelay)), node⟩
        (call.applied call.conf.limits).reverse
  | rejected {node : ζ → Option ℕ} : Billing call ⟨.done (some (reject call)), node⟩ []
  | unlimited {node : ζ → Option ℕ} : call.applied call.conf.limits = [] →
      Billing call ⟨.done (some (.declined, .none)), node⟩ []

/-! ### The limits that were gone through -/

omit [DecidableEq ζ] in
theorem take_succ_eq (hlimit : call.conf.limits[n]? = some limit) :
    call.conf.limits.take (n + 1) = call.conf.limits.take n ++ [limit] := by
  rw [List.take_add_one, hlimit]
  rfl

omit [DecidableEq ζ] in
theorem drop_eq_cons (hlimit : call.conf.limits[n]? = some limit) :
    call.conf.limits.drop n = limit :: call.conf.limits.drop (n + 1) := by
  obtain ⟨hlt, rfl⟩ := List.getElem?_eq_some_iff.mp hlimit
  exact List.drop_eq_getElem_cons hlt

omit [DecidableEq ζ] in
@[simp] theorem Call.applied_nil (call : Call ζ) : call.applied [] = [] := rfl

omit [DecidableEq ζ] in
theorem Call.applied_append (call : Call ζ) (l l' : List (LimitConf ζ)) :
    call.applied (l ++ l') = call.applied l ++ call.applied l' := by
  simp [Call.applied]

omit [DecidableEq ζ] in
theorem Call.applied_singleton (call : Call ζ) (limit : LimitConf ζ) :
    call.applied [limit] = if call.applies limit then [limit.zone] else [] := by
  simp only [Call.applied, List.filter_singleton]
  cases call.applies limit <;> rfl

/-- The limits up to one more are reserved where they apply. -/
theorem reserved_succ {node : ζ → Option ℕ} (hlimit : call.conf.limits[n]? = some limit)
    (h : ∀ l ∈ call.conf.limits.take n, node l.zone ≠ none ↔ call.applies l = true)
    {a : Option ℕ} (ha : a ≠ none ↔ call.applies limit = true) :
    ∀ l ∈ call.conf.limits.take (n + 1),
      Function.update node limit.zone a l.zone ≠ none ↔ call.applies l = true := by
  intro l hl
  rw [take_succ_eq hlimit] at hl
  rcases List.mem_append.mp hl with hl | hl
  · have hne : l.zone ≠ limit.zone := by
      intro heq
      exact not_mem_take hlimit (heq ▸ List.mem_map_of_mem hl)
    rw [Function.update_of_ne hne]
    exact h l hl
  · rw [List.mem_singleton.mp hl, Function.update_self]
    exact ha

/-- The limits before one are reserved as they were. -/
theorem reserved_pred {node : ζ → Option ℕ} (hlimit : call.conf.limits[n]? = some limit)
    (h : ∀ l ∈ call.conf.limits.take (n + 1), node l.zone ≠ none ↔ call.applies l = true)
    (a : Option ℕ) :
    ∀ l ∈ call.conf.limits.take n,
      Function.update node limit.zone a l.zone ≠ none ↔ call.applies l = true := by
  intro l hl
  have hne : l.zone ≠ limit.zone := by
    intro heq
    exact not_mem_take hlimit (heq ▸ List.mem_map_of_mem hl)
  rw [Function.update_of_ne hne]
  refine h l ?_
  rw [take_succ_eq hlimit]
  exact List.mem_append_left _ hl

/-! ### One step -/

variable {crc32 : List UInt8 → UInt32} {rate : ζ → UInt64} {now : UInt64} {slab : Slab}
  {zones : ζ → Shctx} {did : Option (ζ × List Event)}

/-- A step that does not touch a zone. -/
theorem Billing.pass (h : Billing call w bill) {pc : Pc ζ} (hpass : Passes w pc)
    (heval : w.pc.Evaluates)
    (hnew : ∀ z, z ∉ w.pc.reserved → w.node z = none) :
    Billing call ⟨pc, w.node⟩ (bill ++ billed w ⟨pc, w.node⟩) := by
  cases hpass with
  | @loopEnd c n node hnone =>
    cases h with
    | loop hreserved _ =>
      have hdrop : call.conf.limits.drop n = [] :=
        List.drop_eq_nil_of_le (List.getElem?_eq_none_iff.mp hnone)
      have haccount := Billing.account 0 hreserved
      rw [hdrop] at haccount
      simpa [billed, hnone] using haccount
  | @unlimited c n node hnone =>
    cases h with
    | loop _ hfew =>
      have htake : call.conf.limits.take n = call.conf.limits :=
        List.take_of_length_le (List.getElem?_eq_none_iff.mp hnone)
      exact .unlimited (htake ▸ hfew rfl)
  | failed hlimit hkey => exact absurd hkey (heval _ hlimit)
  | @skip c n again limit node key hlimit hkey hskip =>
    cases h with
    | loop hreserved hfew =>
      have happlies : call.applies limit = false := by simp [Call.applies, hkey, hskip]
      have hnone : node limit.zone = none := hnew _ (not_mem_reserved hlimit again)
      have hsucc := reserved_succ hlimit hreserved (a := none) (by simp [happlies])
      rw [Function.update_eq_self_iff.mpr hnone.symm] at hsucc
      refine .loop hsucc fun hagain => ?_
      rw [take_succ_eq hlimit, Call.applied_append, hfew hagain, Call.applied_singleton, happlies]
      rfl
  | undone =>
    cases h with
    | undo => exact .rejected
  | undoSkip hlimit hnode =>
    cases h with
    | undo => exact .undo
  | accounted =>
    cases h with
    | account maxDelay _ => simpa [billed] using Billing.passed
  | @accountSkip c n maxDelay limit node hlimit hnode =>
    cases h with
    | account maxDelay hreserved =>
      have hmem : limit ∈ call.conf.limits.take (n + 1) := by
        rw [take_succ_eq hlimit]
        simp
      have happlies : call.applies limit = false := by
        have hiff := hreserved limit hmem
        simpa [hnode] using hiff
      have hpred := reserved_pred hlimit hreserved none
      rw [Function.update_eq_self_iff.mpr hnode.symm] at hpred
      have haccount := Billing.account maxDelay hpred
      rw [drop_eq_cons hlimit, ← List.singleton_append, Call.applied_append,
        Call.applied_singleton, happlies] at haccount
      simpa [billed, hlimit, hnode] using haccount

/-- **A step of the worker adds to the bill what it counts.** -/
theorem Billing.step (h : Billing call w bill) (hdoes : Does crc32 rate now slab zones w w' did)
    (heval : w.pc.Evaluates)
    (hnew : ∀ z, z ∉ w.pc.reserved → w.node z = none) : Billing call w' (bill ++ billed w w') := by
  cases hdoes with
  | pass hpass => exact h.pass hpass heval hnew
  | @lookup c n again node limit key r evs hlimit hkey hlen hevs =>
    cases h with
    | loop hreserved hfew =>
      have happlies : call.applies limit = true := by simp [Call.applies, hkey, hlen]
      cases hrc : r.rc with
      | ok =>
        have hlast : call.conf.limits.drop (n + 1) = [] := by
          have hdecide := of_decide_eq_true (hevs.account_of_ok hrc)
          exact List.drop_eq_nil_of_le (by omega)
        have hnone : r.node = none := hevs.node_eq_none (by simp [hrc])
        have haccount := Billing.account (delayOf (rate limit.zone) limit.delay r.excess) hreserved
        rw [drop_eq_cons hlimit, hlast, Call.applied_singleton, happlies] at haccount
        simpa [billed, afterLookup, hrc, hlimit, hnone] using haccount
      | again =>
        obtain ⟨a, ha⟩ := Option.ne_none_iff_exists'.mp (hevs.node_ne_none hrc)
        have hsucc := reserved_succ hlimit hreserved (a := some a) (by simp [happlies])
        have hloop : Billing call ⟨.loop call (n + 1) true,
            Function.update node limit.zone (some a)⟩ [] := .loop hsucc (by simp)
        simpa [billed, afterLookup, hrc, ha] using hloop
      | busy => simpa [billed, afterLookup, hrc] using Billing.undo
      | error => simpa [billed, afterLookup, hrc] using Billing.undo
  | @release c n a node limit hlimit hnode =>
    cases h with
    | undo => exact .undo
  | @charge c n a maxDelay node limit excess hlimit hnode =>
    cases h with
    | account maxDelay hreserved =>
      have hmem : limit ∈ call.conf.limits.take (n + 1) := by
        rw [take_succ_eq hlimit]
        simp
      have happlies : call.applies limit = true := (hreserved limit hmem).mp (by simp [hnode])
      have haccount := Billing.account
        (higher maxDelay (delayOf (rate limit.zone) limit.delay excess))
        (reserved_pred hlimit hreserved none)
      rw [drop_eq_cons hlimit, ← List.singleton_append, Call.applied_append,
        Call.applied_singleton, happlies] at haccount
      simpa [billed, hlimit, hnode] using haccount

/-! ### From the call to the return -/

variable {ω : Type} [DecidableEq ω]

/-- The zones in which an act counts the request of a worker. -/
def billedAt (crc32 : List UInt8 → UInt32) (rate : ζ → UInt64) (i : ω) (s : Pool ζ ω) :
    Act ζ ω → List ζ
  | .call _ _ => []
  | .step j now slab =>
    if j = i then
      match workerStep crc32 rate now slab (s.workers j) s.zones with
      | none => []
      | some (w, _) => billed (s.workers j) w
    else []

/-- The zones in which a run counts the request of a worker, in their order. -/
def bills (crc32 : List UInt8 → UInt32) (rate : ζ → UInt64) (i : ω) (s : Pool ζ ω)
    (acts : List (Act ζ ω)) : List ζ :=
  (serverSys crc32 rate).log (billedAt crc32 rate i) s acts

/-- The keys that are evaluated can be, and the worker is not called again. -/
def InCall (i : ω) (s : Pool ζ ω) (act : Act ζ ω) : Prop :=
  Evaluates s act ∧ ∀ call, act ≠ .call i call

variable [Fintype ω] {s s₀ s₁ : Pool ζ ω} {i : ω} {acts : List (Act ζ ω)}
  {result : Option (Return × Status)}

/-- **From the call of the handler on**, with any acts of the other workers in between. -/
theorem billing_of_run (h : (serverSys crc32 rate).Reach Evaluates s₀)
    (hcall : (serverSys crc32 rate).step s₀ (.call i call) = some s₁)
    (hr : (serverSys crc32 rate).Run (InCall i) s₁ acts s) :
    (∃ held, s.Inv True held) ∧ Billing call (s.workers i) (bills crc32 rate i s₁ acts) := by
  obtain ⟨held₀, hinv₀⟩ := Pool.Inv.of_reach True (fun _ _ hC _ => hC) h
  induction hr with
  | nil =>
    refine ⟨hinv₀.step (fun _ => show Evaluates s₀ (.call i call) from trivial) hcall, ?_⟩
    simp only [serverSys] at hcall
    split at hcall
    · cases hcall
      simp only [Function.update_self]
      exact .loop (by simp) fun _ => rfl
    · cases hcall
  | @snoc t u acts act hr hC hs ih =>
    obtain ⟨⟨held, hinv⟩, hbilling⟩ := ih
    refine ⟨hinv.step (fun _ => hC.1) hs, ?_⟩
    have hbills : bills crc32 rate i s₁ (acts ++ [act]) =
        bills crc32 rate i s₁ acts ++ billedAt crc32 rate i t act := hr.log_snoc hs
    rw [hbills]
    cases act with
    | call j c =>
      have hj : i ≠ j := fun heq => hC.2 c (heq ▸ rfl)
      simp only [serverSys] at hs
      split at hs
      · cases hs
        simpa [Function.update_of_ne hj, billedAt] using hbilling
      · cases hs
    | step j now slab =>
      obtain ⟨w, did, hstep, hworkers, hdoes, -, -⟩ := hinv.step_does (fun _ => hC.1) hs
      simp only [billedAt, hstep]
      rw [hworkers]
      split
      · next hj =>
        subst hj
        rw [Function.update_self]
        refine hbilling.step hdoes hC.1 fun z hz => ?_
        by_contra hne
        exact hz (hinv.reserved trivial _ z hne)
      · next hj =>
        rw [Function.update_of_ne (Ne.symm hj), List.append_nil]
        exact hbilling

end NginxTools.LimitReq
