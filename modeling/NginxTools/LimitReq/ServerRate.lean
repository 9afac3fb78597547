import NginxTools.LimitReq.Billing
import NginxTools.LimitReq.RateBound
import Mathlib.Data.Fintype.Card

/-!
# The rate that the server keeps

The workers together, in any order of their steps, count no more requests of a key in a zone than
the rate and the burst allow (`RateBound`).

## The model

`counts` says of a step of the handler whether it counts the worker's request in a zone (`Billing`)
for a key. `times` are the clocks of the steps of a run that do. A run is `Fair` to a zone when its
limits' bursts are within the regime, keys can be evaluated, no node of the zone is deleted by force
and the products of rate and time fit a word; it is `Paced` when no worker's clock is far behind
another's.

## What is proved

A worker's pointer is to the node of its request's key (`Worker.Keyed`), so that what the steps
count is what the key's node records, and the history of a key (`RateBound.History`) is kept by
every step (`Pool.Tracks.step`). **`server_rate`**: in every window of time, one request and those
that the rate and the bursts allow. **`server_excess`**: the excess of a node is above the burst by
less than a request for each other worker, and what drains in the clocks' lag.
-/

namespace NginxTools.LimitReq

open NginxTools.Library
open NginxTools.Core

/-! ### What a step counts -/

variable {ζ : Type} [DecidableEq ζ]

/-- The call that a worker is in. -/
def Pc.call? : Pc ζ → Option (Call ζ)
  | .done _ => none
  | .loop call _ _ => some call
  | .undo call _ => some call
  | .account call _ _ => some call

/-- The worker's step counts its request in the zone, for the key. -/
def counts (z : ζ) (key : List UInt8) (w w' : Worker ζ) : Bool :=
  z ∈ billed w w' ∧ (w.pc.call?).any fun call => call.key z = some key

/-- A worker's pointers are to the nodes of its request's keys. -/
def Worker.Keyed (crc32 : List UInt8 → UInt32) (zones : ζ → Shctx) (w : Worker ζ) : Prop :=
  ∀ z a, w.node z = some a → ∃ call key, w.pc.call? = some call ∧ call.key z = some key ∧
    keyNode (crc32 key) key (zones z) = some a

/-- The events of a step in one zone. -/
def eventsIn (z : ζ) : Option (ζ × List Event) → List Event
  | none => []
  | some (z₀, evs) => if z₀ = z then evs else []

section Step

variable {crc32 : List UInt8 → UInt32} {rate : ζ → UInt64} {now : UInt64} {slab : Slab}
  {w w' : Worker ζ} {zones zones' : ζ → Shctx} {held : ζ → List ℕ}
  {did : Option (ζ × List Event)} {z : ζ} {key : List UInt8} {a : ℕ}

/-- A step is a run of events in each zone. -/
theorem ZonesAfter.run (h : ZonesAfter zones zones' held did) (z : ζ) :
    zoneSys.Run Any ⟨zones z, held z⟩ (eventsIn z did) ⟨zones' z, heldAfter held did z⟩ := by
  cases did with
  | none =>
    obtain rfl : zones' = zones := h
    exact .nil
  | some ze =>
    obtain ⟨z₀, evs⟩ := ze
    obtain ⟨z', hrun, rfl⟩ := h
    simp only [eventsIn, heldAfter]
    split_ifs with hz
    · subst hz
      rw [Function.update_self, Function.update_self, ← Zone.run_held hrun]
      exact hrun
    · rw [Function.update_of_ne (Ne.symm hz), Function.update_of_ne (Ne.symm hz)]
      exact .nil

/-- One event, in its zone or in another one. -/
theorem keyNode_of_run {z₀ : ζ} {zone' : Zone} {ev : Event} (hwf : Zone.Wf ⟨zones z, held z⟩)
    (hrun : zoneSys.Run Any ⟨zones z, held z⟩ (eventsIn z (some (z₀, [ev]))) zone')
    (ha : a ∈ held z) {hash : UInt32} (hkey : keyNode hash key (zones z) = some a) :
    keyNode hash key zone'.toShctx = some a := by
  simp only [eventsIn] at hrun
  split at hrun
  · exact hwf.keyNode_step ha hkey (Zone.step_of_run hrun)
  · rw [← hrun.eq_of_nil]
    exact hkey

/-- A node that any worker has reserved stays the node of its key. -/
theorem Does.keyNode_eq (h : Does crc32 rate now slab zones w w' did)
    (hafter : ZonesAfter zones zones' held did) (hwf : ∀ z, Zone.Wf ⟨zones z, held z⟩)
    (ha : a ∈ held z) {hash : UInt32} (hkey : keyNode hash key (zones z) = some a) :
    keyNode hash key (zones' z) = some a := by
  have hrun := hafter.run z
  cases h with
  | pass _ =>
    obtain rfl : zones' = zones := hafter
    exact hkey
  | lookup hlimit hcall hlen hevs =>
    refine ((hwf z).keyNode_run hrun (fun ev hev => ?_) ha hkey).1
    simp only [eventsIn] at hev
    split at hev
    · exact hevs.grows ev hev
    · cases hev
  | release hlimit hnode => exact keyNode_of_run (hwf z) hrun ha hkey
  | charge excess hlimit hnode => exact keyNode_of_run (hwf z) hrun ha hkey

/-- The pointers of the other workers stay to the nodes of their keys. -/
theorem Does.keyed_other (h : Does crc32 rate now slab zones w w' did)
    (hafter : ZonesAfter zones zones' held did) (hwf : ∀ z, Zone.Wf ⟨zones z, held z⟩)
    {other : Worker ζ} (hheld : ∀ z a, other.node z = some a → a ∈ held z)
    (hkeyed : other.Keyed crc32 zones) : other.Keyed crc32 zones' := by
  intro z a ha
  obtain ⟨call, key, hcall, hkey, hnode⟩ := hkeyed z a ha
  exact ⟨call, key, hcall, hkey, h.keyNode_eq hafter hwf (hheld z a ha) hnode⟩

/-- A step stays in the worker's call, or returns from it. -/
theorem Does.call (h : Does crc32 rate now slab zones w w' did) :
    w'.pc.call? = w.pc.call? ∨ ∃ result, w'.pc = .done result := by
  cases h with
  | pass hpass =>
    cases hpass with
    | unlimited _ => exact .inr ⟨_, rfl⟩
    | failed _ _ => exact .inr ⟨_, rfl⟩
    | undone => exact .inr ⟨_, rfl⟩
    | accounted => exact .inr ⟨_, rfl⟩
    | _ => exact .inl rfl
  | @lookup call n again node limit key r evs hlimit hcall hlen hevs =>
    left
    simp only [afterLookup]
    split <;> rfl
  | release hlimit hnode => exact .inl rfl
  | charge excess hlimit hnode => exact .inl rfl

/-- The pointers that a step leaves are the worker's before, or the one that a lookup gave. -/
theorem Does.keyed (h : Does crc32 rate now slab zones w w' did)
    (hafter : ZonesAfter zones zones' held did) (hwf : ∀ z, Zone.Wf ⟨zones z, held z⟩)
    (hheld : ∀ z a, w.node z = some a → a ∈ held z) (hkeyed : w.Keyed crc32 zones)
    (hreserved : ∀ z, w'.node z ≠ none → z ∈ w'.pc.reserved) : w'.Keyed crc32 zones' := by
  intro z a ha
  have hcall : w'.pc.call? = w.pc.call? := by
    rcases h.call with hcall | ⟨result, hdone⟩
    · exact hcall
    · have hmem := hreserved z (by simp [ha])
      rw [hdone] at hmem
      cases hmem
  have hsame : w.node z = some a → ∃ call key, w'.pc.call? = some call ∧ call.key z = some key ∧
      keyNode (crc32 key) key (zones' z) = some a := by
    intro hold
    rw [hcall]
    exact h.keyed_other hafter hwf hheld hkeyed z a hold
  have hrun := hafter.run z
  cases h with
  | pass _ => exact hsame ha
  | @lookup call n again node limit key r evs hlimit hkey hlen hevs =>
    cases hr : r.node with
    | none =>
      rw [hr] at ha
      exact hsame ha
    | some b =>
      rw [hr] at ha
      by_cases hz : z = limit.zone
      · subst hz
        obtain rfl : b = a := by simpa using ha
        refine ⟨call, key, hcall, hkey, ?_⟩
        simp only [eventsIn, ↓reduceIte] at hrun
        exact hevs.keyNode_eq (hwf _) hrun hr
      · simp only [Option.elim_some, Function.update_of_ne hz] at ha
        exact hsame ha
  | @release call n b node limit hlimit hnode =>
    have hz : z ≠ limit.zone := by rintro rfl; simp at ha
    simp only [Function.update_of_ne hz] at ha
    exact hsame ha
  | @charge call n b maxDelay node limit excess hlimit hnode =>
    have hz : z ≠ limit.zone := by rintro rfl; simp at ha
    simp only [Function.update_of_ne hz] at ha
    exact hsame ha

end Step

/-! ### What a lookup counts -/

section Lookup

variable {limit : Limit} {now : UInt64} {hash hash' : UInt32} {key key' : List UInt8}
  {account crowded : Bool} {node : Option ℕ} {r : LookupResult} {evs : List Event}
    {zone zone' : Zone}
  {g : Regime} {clock : ℕ} {rate : UInt64}

theorem Removals.stampsOf_eq_nil {rs : List Event} (hrs : Removals rate now crowded rs)
    (hash : UInt32) (key : List UInt8) (zone : Zone) : stampsOf hash key zone rs = [] := by
  refine Sys.log_eq_nil (fun z ev hev => ?_) zone
  obtain ⟨forced, b, rfl, -⟩ := hrs ev hev
  rfl

/-- The node of one key is not that of another. -/
theorem Shctx.Wf.keyNode_eq_iff {sh : Shctx} {a : ℕ} (h : sh.Wf)
    (hkey : keyNode hash key sh = some a) :
    keyNode hash' key' sh = some a ↔ hash = hash' ∧ key = key' := by
  constructor
  · exact h.keyNode_inj hkey
  · rintro ⟨rfl, rfl⟩
    exact hkey

/-- **A lookup counts the request when it returns `NGX_OK`**, for its own key. -/
theorem LookupEvents.stamps (hwf : zone.Wf)
    (h : LookupEvents limit now hash key account (keyNode hash key zone.toShctx) crowded r evs)
    (hr : zoneSys.Run Any zone evs zone') :
    (stampsOf hash' key' zone evs).map Stamp.now =
      if r.rc = .ok ∧ hash = hash' ∧ key = key' then [now] else [] := by
  cases h with
  | busy excess a =>
    obtain ⟨zone₁, -, hs, -⟩ := hr.first_step
    rw [stampsOf, Sys.log_single hs]
    simp [counted]
  | accept excess a haccount hnode =>
    obtain ⟨zone₁, -, hs, hr⟩ := hr.first_step
    have hs₁ : zone.step (.bump a) = some zone₁ := hs
    have hs₂ := Zone.step_of_run hr
    obtain ⟨lr, hlr, -⟩ := Option.bind_eq_some_iff.mp hs₂
    have hiff : keyNode hash' key' zone₁.toShctx = some a ↔ hash = hash' ∧ key = key' := by
      rw [Zone.step_keyNode rfl hs₁]
      exact hwf.sh.keyNode_eq_iff hnode
    rw [stampsOf, Sys.log_cons hs, Sys.log_single hs₂]
    simp only [counted, Option.toList_none, List.nil_append, hiff, hlr, Option.map_some, true_and]
    split_ifs <;> rfl
  | reserve excess a haccount hnode =>
    obtain ⟨zone₁, -, hs, hr⟩ := hr.first_step
    rw [stampsOf, Sys.log_cons hs, Sys.log_single (Zone.step_of_run hr)]
    simp [counted]
  | make a hrs =>
    obtain ⟨zone₁, hr₁, -, hs⟩ := hr.last_step
    rw [stampsOf, hr₁.log_snoc hs]
    have hnil := hrs.stampsOf_eq_nil hash' key' zone
    rw [stampsOf] at hnil
    rw [hnil]
    cases account with
    | true =>
      simp only [counted, madeResult, true_and, List.nil_append, ↓reduceIte]
      split_ifs <;> rfl
    | false => simp [counted, madeResult]
  | error hrs =>
    rw [hrs.stampsOf_eq_nil]
    simp

/-- No node of the zone has more reservations than pointers are out. -/
theorem Zone.Wf.count_le_of_held (h : zone.Wf) {n : ℕ} (hn : ∀ a, zone.held.count a ≤ n) :
    ∀ lr, keyWords hash key zone.toShctx = some lr → lr.count ≤ n := by
  intro lr hlr
  obtain ⟨a, -, ha⟩ := Option.bind_eq_some_iff.mp hlr
  rw [h.count a lr ha]
  exact hn a

/-- The events of a lookup are allowed: memory is not short, and the reservations are of the other
workers. -/
theorem LookupEvents.run_allows (hwf : zone.Wf)
    (h : LookupEvents limit now hash key account node crowded r evs) (hcrowded : crowded = false)
    (hr : zoneSys.Run Any zone evs zone') (hrate : limit.rate = g.rate)
    (hburst : limit.burst.toNat ≤ g.burst) (hnow : g.AtTime clock now)
    (hdrains : 1000000 ≤ g.rate.toNat * now.toNat) (hothers : ∀ a, zone.held.count a ≤ g.others) :
    zoneSys.Run (fun z ev => g.Allows clock (keyWords hash' key' z.toShctx) ev) zone evs zone' := by
  have hremovals : ∀ {rs}, Removals limit.rate now crowded rs → ∀ (z : Zone), ∀ ev ∈ rs,
      g.Allows clock (keyWords hash' key' z.toShctx) ev := by
    intro rs hrs z ev hev
    obtain ⟨forced, b, rfl, hforced⟩ := hrs ev hev
    refine ⟨hrate, ?_, hnow⟩
    by_contra hno
    rw [hcrowded] at hforced
    exact absurd (hforced (by simpa using hno)) Bool.false_ne_true
  have hbumped : ∀ {a zone₁}, zone.step (.bump a) = some zone₁ →
      ∀ lr, keyWords hash' key' zone₁.toShctx = some lr → lr.count ≤ g.others := by
    intro a zone₁ hs
    refine (hwf.step hs).count_le_of_held ?_
    rw [Zone.step_held hs]
    exact hothers
  cases h with
  | busy excess a => exact hr.mono_mem (by simp [Regime.Allows])
  | accept excess a haccount hnode =>
    obtain ⟨zone₁, -, hs, hr⟩ := hr.first_step
    refine (Sys.Run.single ?_ hs).trans (Sys.Run.single ?_ (Zone.step_of_run hr))
    · trivial
    · exact ⟨hrate, hburst, hnow, hbumped hs⟩
  | reserve excess a haccount hnode =>
    obtain ⟨zone₁, -, hs, hr⟩ := hr.first_step
    refine (Sys.Run.single ?_ hs).trans (Sys.Run.single ?_ (Zone.step_of_run hr))
    · trivial
    · exact ⟨hrate, hburst, hnow, hbumped hs⟩
  | make a hrs =>
    obtain ⟨zone₁, hr₁, -, hs⟩ := hr.last_step
    exact (hr₁.mono_mem fun z ev hev _ => hremovals hrs z ev hev).snoc ⟨hdrains, hnow⟩ hs
  | error hrs => exact hr.mono_mem fun z ev hev _ => hremovals hrs z ev hev

end Lookup

/-! ### What a worker's step counts -/

/-- What is asked of a worker's step at the top of the loop: memory is not short in the zone. -/
def Worker.Roomy (crc32 : List UInt8 → UInt32) (rate : ζ → UInt64) (now : UInt64) (slab : Slab)
    (zones : ζ → Shctx) (z : ζ) (w : Worker ζ) : Prop :=
  match w.pc with
  | .loop call n _ => ∀ limit, call.conf.limits[n]? = some limit → limit.zone = z →
      ∀ key, call.key z = some key → short (rate z) now slab (crc32 key) key (zones z) = false
  | _ => True

instance (crc32 : List UInt8 → UInt32) (rate : ζ → UInt64) (now : UInt64) (slab : Slab)
    (zones : ζ → Shctx) (z : ζ) (w : Worker ζ) :
    Decidable (w.Roomy crc32 rate now slab zones z) := by
  unfold Worker.Roomy
  exact match w.pc with
  | .loop call n _ => inferInstanceAs (Decidable (∀ limit ∈ call.conf.limits[n]?, limit.zone = z →
      ∀ key ∈ call.key z, short (rate z) now slab (crc32 key) key (zones z) = false))
  | .done _ => inferInstanceAs (Decidable True)
  | .undo _ _ => inferInstanceAs (Decidable True)
  | .account _ _ _ => inferInstanceAs (Decidable True)

/-- The bursts of the worker's call are within the regime. -/
def Worker.Bursts (g : Regime) (z : ζ) (w : Worker ζ) : Prop :=
  ∀ call, w.pc.call? = some call → ∀ limit ∈ call.conf.limits, limit.zone = z →
    limit.burst.toNat ≤ g.burst

section Counts

variable {crc32 : List UInt8 → UInt32} {rate : ζ → UInt64} {now : UInt64} {slab : Slab}
  {w w' : Worker ζ} {zones zones' : ζ → Shctx} {held : ζ → List ℕ} {g : Regime} {clock : ℕ}
  {did : Option (ζ × List Event)} {z : ζ} {key : List UInt8} {call : Call ζ} {n : ℕ}
  {limit : LimitConf ζ}

/-- A step that does not touch a zone counts nothing. -/
theorem Passes.counts_eq {pc : Pc ζ} (h : Passes w pc) : counts z key w ⟨pc, w.node⟩ = false := by
  have hbilled : billed w ⟨pc, w.node⟩ = [] := by
    cases h with
    | loopEnd hnone => simp [billed, hnone]
    | accountSkip hlimit hnode => simp [billed, hlimit, hnode]
    | _ => rfl
  simp [counts, hbilled]

/-- **What a step counts is what the key's node records.** -/
theorem Does.stamps (h : Does crc32 rate now slab zones w w' did)
    (hafter : ZonesAfter zones zones' held did) (hwf : ∀ z, Zone.Wf ⟨zones z, held z⟩)
    (hkeyed : w.Keyed crc32 zones) (z : ζ) (key : List UInt8) :
    (stampsOf (crc32 key) key ⟨zones z, held z⟩ (eventsIn z did)).map Stamp.now =
      if counts z key w w' then [now] else [] := by
  have hrun := hafter.run z
  cases h with
  | pass hpass =>
    rw [hpass.counts_eq]
    rfl
  | @lookup call n again node limit key' r evs hlimit hcall hlen hevs =>
    have hcounts : counts z key ⟨.loop call n again, node⟩ ⟨afterLookup rate call n limit r,
          r.node.elim node fun a => Function.update node limit.zone (some a)⟩ = true ↔
        r.rc = .ok ∧ z = limit.zone ∧ call.key z = some key := by
      cases hrc : r.rc <;> simp [counts, billed, afterLookup, hrc, hlimit, Pc.call?]
    simp only [eventsIn] at hrun ⊢
    split at hrun
    · next hz =>
      subst hz
      rw [if_pos rfl, hevs.stamps (hwf _) hrun]
      refine if_congr ?_ rfl rfl
      rw [hcounts, hcall]
      simp only [Option.some.injEq, true_and]
      refine and_congr_right fun _ => ⟨fun h => h.2, fun h => ⟨by rw [h], h⟩⟩
    · next hz =>
      rw [if_neg hz, if_neg fun hc => hz (hcounts.mp hc).2.1.symm]
      rfl
  | @release call n a node limit hlimit hnode =>
    simp only [eventsIn] at hrun ⊢
    split at hrun
    · next hz =>
      subst hz
      rw [if_pos rfl, stampsOf, Sys.log_single (Zone.step_of_run hrun)]
      rfl
    · next hz =>
      rw [if_neg hz]
      rfl
  | @charge call n a maxDelay node limit excess hlimit hnode =>
    have hcounts : counts z key ⟨.account call (n + 1) maxDelay, node⟩
        ⟨.account call n (higher maxDelay (delayOf (rate limit.zone) limit.delay excess)),
          Function.update node limit.zone none⟩ = true ↔
        z = limit.zone ∧ call.key z = some key := by
      simp only [counts, billed, hlimit, Option.toList_some, List.map_cons, List.map_nil, hnode,
        Option.isSome_some, List.filter_cons_of_pos, List.filter_nil, List.mem_singleton,
        Pc.call?, Option.any_some, decide_eq_true_eq]
    obtain ⟨call', key', hcall', hkey', hnode'⟩ := hkeyed _ a hnode
    obtain rfl : call = call' := Option.some.inj hcall'
    simp only [eventsIn] at hrun ⊢
    split at hrun
    · next hz =>
      subst hz
      have hs := Zone.step_of_run hrun
      obtain ⟨_, hacc, -⟩ := Option.bind_eq_some_iff.mp hs
      obtain ⟨lr, hlr, -⟩ := Option.bind_eq_some_iff.mp hacc
      have hlr' : (zones limit.zone).mem a = some lr := hlr
      have hiff : keyNode (crc32 key) key (zones limit.zone) = some a ↔
          call.key limit.zone = some key := by
        rw [(hwf _).sh.keyNode_eq_iff hnode', hkey', Option.some.injEq]
        exact ⟨fun h => h.2, fun h => ⟨by rw [h], h⟩⟩
      rw [if_pos rfl, stampsOf, Sys.log_single hs]
      by_cases hkey : call.key limit.zone = some key
      · rw [if_pos (hcounts.mpr ⟨rfl, hkey⟩)]
        simp [counted, hiff, hkey, hlr']
      · rw [if_neg fun hc => hkey (hcounts.mp hc).2]
        simp [counted, hiff, hkey]
    · next hz =>
      rw [if_neg hz, if_neg fun hc => hz (hcounts.mp hc).1.symm]
      rfl

/-- The events of a step are allowed in the history of any key. -/
theorem Does.run_allows (h : Does crc32 rate now slab zones w w' did)
    (hafter : ZonesAfter zones zones' held did) (hwf : ∀ z, Zone.Wf ⟨zones z, held z⟩)
    (hrate : rate z = g.rate) (hbursts : w.Bursts g z)
    (hroomy : w.Roomy crc32 rate now slab zones z) (hnow : g.AtTime clock now)
    (hdrains : 1000000 ≤ g.rate.toNat * now.toNat)
    (hothers : (∀ a, w.node z ≠ some a) → ∀ a, (held z).count a ≤ g.others)
    (hnew : ∀ z, z ∉ w.pc.reserved → w.node z = none) (hash : UInt32) (key : List UInt8) :
    zoneSys.Run (fun zone ev => g.Allows clock (keyWords hash key zone.toShctx) ev)
      ⟨zones z, held z⟩ (eventsIn z did) ⟨zones' z, heldAfter held did z⟩ := by
  have hrun := hafter.run z
  cases h with
  | pass hpass => exact hrun.mono_mem (by simp [eventsIn])
  | @lookup call n again node limit key' r evs hlimit hcall hlen hevs =>
    simp only [eventsIn] at hrun ⊢
    split at hrun
    · next hz =>
      subst hz
      rw [if_pos rfl]
      have hnone : node limit.zone = none := hnew _ (not_mem_reserved hlimit again)
      refine hevs.run_allows (hwf _) (hroomy limit hlimit rfl key' hcall) hrun hrate
        (hbursts call rfl limit (List.mem_of_getElem? hlimit) rfl) hnow hdrains
        (hothers fun a ha => ?_)
      exact Option.some_ne_none a (ha.symm.trans hnone)
    · next hz =>
      rw [if_neg hz]
      exact hrun.mono_mem (by simp)
  | release hlimit hnode =>
    refine hrun.mono_mem fun z ev hev _ => ?_
    simp only [eventsIn] at hev
    split at hev
    · rw [List.mem_singleton.mp hev]
      trivial
    · cases hev
  | charge excess hlimit hnode =>
    refine hrun.mono_mem fun z' ev hev _ => ?_
    simp only [eventsIn] at hev
    split at hev
    · next hz =>
      subst hz
      rw [List.mem_singleton.mp hev]
      exact ⟨hrate, hnow⟩
    · cases hev

end Counts

/-! ### The history that the server keeps -/

variable {ω : Type} [DecidableEq ω]

/-- When an act counts a request in the zone, for the key. -/
def countedAt (crc32 : List UInt8 → UInt32) (rate : ζ → UInt64) (z : ζ) (key : List UInt8)
    (s : Pool ζ ω) : Act ζ ω → List UInt64
  | .call _ _ => []
  | .step i now slab =>
    match workerStep crc32 rate now slab (s.workers i) s.zones with
    | none => []
    | some (w, _) => if counts z key (s.workers i) w then [now] else []

/-- The clocks of the steps of a run that count a request in the zone, for the key. -/
def times (crc32 : List UInt8 → UInt32) (rate : ζ → UInt64) (z : ζ) (key : List UInt8)
    (s : Pool ζ ω) (acts : List (Act ζ ω)) : List UInt64 :=
  (serverSys crc32 rate).log (countedAt crc32 rate z key) s acts

/-- The clock that an act reads. -/
def Act.now? : Act ζ ω → Option UInt64
  | .call _ _ => none
  | .step _ now _ => some now

/-- No worker's clock is behind another's by more than the lag. -/
def Paced (lag : ℕ) (acts : List (Act ζ ω)) : Prop :=
  (acts.filterMap Act.now?).Pairwise fun t t' => t.toNat ≤ t'.toNat + lag

/-- What is asked of an act, for the bound on a zone: its bursts are within the regime, the keys
that are evaluated can be, memory is not short in the zone, and the clock fits. -/
def Fair (crc32 : List UInt8 → UInt32) (rate : ζ → UInt64) (g : Regime) (z : ζ) (s : Pool ζ ω) :
    Act ζ ω → Prop
  | .call _ call => ∀ limit ∈ call.conf.limits, limit.zone = z → limit.burst.toNat ≤ g.burst
  | .step i now slab => (s.workers i).pc.Evaluates ∧
      (s.workers i).Roomy crc32 rate now slab s.zones z ∧
      1000000 ≤ g.rate.toNat * now.toNat ∧ g.rate.toNat * now.toNat < 2 ^ 63

instance (crc32 : List UInt8 → UInt32) (rate : ζ → UInt64) (g : Regime) (z : ζ) (s : Pool ζ ω)
    (act : Act ζ ω) : Decidable (Fair crc32 rate g z s act) :=
  match act with
  | .call _ call => inferInstanceAs (Decidable (∀ limit ∈ call.conf.limits, limit.zone = z →
      limit.burst.toNat ≤ g.burst))
  | .step i now slab => inferInstanceAs (Decidable ((s.workers i).pc.Evaluates ∧
      (s.workers i).Roomy crc32 rate now slab s.zones z ∧
      1000000 ≤ g.rate.toNat * now.toNat ∧ g.rate.toNat * now.toNat < 2 ^ 63))

section Server

variable [Fintype ω] {crc32 : List UInt8 → UInt32} {rate : ζ → UInt64} {g : Regime} {clock : ℕ}
  {z : ζ} {key : List UInt8} {s s' s₀ : Pool ζ ω} {stamps : List Stamp} {held : ζ → List ℕ}

/-- The server at a time that no clock has passed, with the history of a key in a zone. -/
structure Pool.Tracks (crc32 : List UInt8 → UInt32) (g : Regime) (z : ζ) (key : List UInt8)
    (s : Pool ζ ω) (clock : ℕ) (stamps : List Stamp) : Prop where
  inv : ∃ held, s.Inv True held
  keyed : ∀ i, (s.workers i).Keyed crc32 s.zones
  bursts : ∀ i, (s.workers i).Bursts g z
  history : History g clock (keyWords (crc32 key) key (s.zones z)) stamps

omit [DecidableEq ζ] [DecidableEq ω] in
/-- A worker that has no pointer into a zone leaves the reservations to the others. -/
theorem Pool.Inv.count_le (h : s.Inv True held) (hω : Fintype.card ω ≤ g.others + 1) {i : ω}
    (hnone : ∀ a, (s.workers i).node z ≠ some a) (a : ℕ) : (held z).count a ≤ g.others := by
  have hlt : holders s z a < Fintype.card ω :=
    Finset.card_lt_univ_of_notMem (x := i) (by simp [hnone a])
  have hall := h.all trivial z a
  omega

/-- **One act keeps the history of a key.** -/
theorem Pool.Tracks.step (h : s.Tracks crc32 g z key clock stamps) (hrate : rate z = g.rate)
    (hω : Fintype.card ω ≤ g.others + 1) {act : Act ζ ω} (hfair : Fair crc32 rate g z s act)
    (hlag : ∀ now, act.now? = some now → clock ≤ now.toNat + g.lag)
    (hs : (serverSys crc32 rate).step s act = some s') :
    ∃ stamps',
      s'.Tracks crc32 g z key (act.now?.elim clock fun now => max clock now.toNat) stamps' ∧
      stamps'.map Stamp.now = stamps.map Stamp.now ++ countedAt crc32 rate z key s act := by
  obtain ⟨held, hinv⟩ := h.inv
  cases act with
  | call i call =>
    have hcall := hs
    simp only [serverSys] at hs
    split at hs
    · next result hpc =>
      cases hs
      obtain ⟨held', hinv'⟩ :=
        hinv.step (fun _ => show Evaluates s (.call i call) from trivial) hcall
      refine ⟨stamps, ⟨⟨held', hinv'⟩, fun j => ?_, fun j => ?_, h.history⟩, by simp [countedAt]⟩
      · by_cases hj : j = i
        · subst hj
          intro z a ha
          simp only [Function.update_self] at ha
          obtain ⟨call', key, hnone, -⟩ := h.keyed j z a ha
          rw [hpc] at hnone
          cases hnone
        · simpa only [Function.update_of_ne hj] using h.keyed j
      · by_cases hj : j = i
        · subst hj
          simp only [Function.update_self]
          rintro _ ⟨⟩
          exact hfair
        · simpa only [Function.update_of_ne hj] using h.bursts j
    · cases hs
  | step i now slab =>
    obtain ⟨heval, hroomy, hdrains, hfits⟩ := hfair
    obtain ⟨w, did, hstep, hworkers, hdoes, hafter, hinv'⟩ := hinv.step_does (fun _ => heval) hs
    have hlag' := hlag now rfl
    have hnow : g.AtTime (max clock now.toNat) now := ⟨le_max_right _ _, by omega⟩
    have htick := h.history.tick (le_max_left clock now.toNat) (by
      rcases max_choice clock now.toNat with hmax | hmax
      · rw [hmax]
        exact h.history.fits
      · rw [hmax]
        exact hfits)
    have hnew : ∀ z, z ∉ (s.workers i).pc.reserved → (s.workers i).node z = none := by
      intro z hz
      by_contra hne
      exact hz (hinv.reserved trivial i z hne)
    have hrun := hdoes.run_allows hafter hinv.wf hrate (h.bursts i) hroomy hnow hdrains
      (hinv.count_le hω) hnew (crc32 key) key
    refine ⟨_, ⟨⟨_, hinv'⟩, fun j => ?_, fun j => ?_, htick.run (hinv.wf z) hrun⟩, ?_⟩
    · rw [hworkers]
      by_cases hj : j = i
      · subst hj
        rw [Function.update_self]
        refine hdoes.keyed hafter hinv.wf (fun z a => hinv.mem_held) (h.keyed j) fun z hz => ?_
        have hmem := hinv'.reserved trivial j z
        rw [hworkers, Function.update_self] at hmem
        exact hmem hz
      · rw [Function.update_of_ne hj]
        exact hdoes.keyed_other hafter hinv.wf (fun z a => hinv.mem_held) (h.keyed j)
    · rw [hworkers]
      by_cases hj : j = i
      · subst hj
        rw [Function.update_self]
        intro call hcall
        rcases hdoes.call with hsame | ⟨result, hdone⟩
        · exact h.bursts j call (hsame ▸ hcall)
        · rw [hdone] at hcall
          cases hcall
      · rw [Function.update_of_ne hj]
        exact h.bursts j
    · rw [List.map_append, hdoes.stamps hafter hinv.wf (h.keyed i)]
      simp only [countedAt, hstep]

theorem server_tracks_init (h₀ : (serverSys crc32 rate).init s) : s.Tracks crc32 g z key 0 [] := by
  have hinv := server_inv_init True h₀
  obtain ⟨hzones, hworkers⟩ := h₀
  refine ⟨⟨_, hinv⟩, fun i => ?_, fun i => ?_, ⟨by simp, ?_, nofun, .nil, nofun⟩⟩
  · rw [hworkers]
    intro z a ha
    cases ha
  · rw [hworkers]
    intro call hcall
    cases hcall
  · rw [hzones]
    intro lr hlr
    cases hlr

/-- **Any run keeps the history of a key**, at a time that is one of the clocks. -/
theorem server_tracks (hrate : rate z = g.rate) (hω : Fintype.card ω ≤ g.others + 1)
    {acts : List (Act ζ ω)} (h₀ : (serverSys crc32 rate).init s₀)
    (hr : (serverSys crc32 rate).Run (Fair crc32 rate g z) s₀ acts s) (hpaced : Paced g.lag acts)
    (key : List UInt8) :
    ∃ clock stamps, s.Tracks crc32 g z key clock stamps ∧
      stamps.map Stamp.now = times crc32 rate z key s₀ acts ∧
      (clock = 0 ∨ ∃ now ∈ acts.filterMap Act.now?, clock = now.toNat) := by
  induction hr with
  | nil => exact ⟨0, [], server_tracks_init h₀, rfl, .inl rfl⟩
  | @snoc t u acts act hr hfair hs ih =>
    rw [Paced, List.filterMap_append] at hpaced
    obtain ⟨hbefore, -, hafter⟩ := List.pairwise_append.mp hpaced
    obtain ⟨clock, stamps, htracks, htimes, hclock⟩ := ih hbefore
    have hlag : ∀ now, act.now? = some now → clock ≤ now.toNat + g.lag := by
      intro now hnow
      rcases hclock with rfl | ⟨t, ht, rfl⟩
      · exact Nat.zero_le _
      · exact hafter t ht now (by simp [hnow])
    obtain ⟨stamps', htracks', htimes'⟩ := htracks.step hrate hω hfair hlag hs
    refine ⟨_, stamps', htracks', ?_, ?_⟩
    · rw [htimes', htimes, times, times, hr.log_snoc hs]
    · cases hnow : act.now? with
      | none => simpa [hnow] using hclock
      | some now =>
        right
        rw [Option.elim_some, List.filterMap_append]
        rcases max_choice clock now.toNat with hmax | hmax
        · rcases hclock with rfl | ⟨t, ht, rfl⟩
          · exact ⟨now, by simp [hnow], Nat.max_eq_right (Nat.zero_le _)⟩
          · exact ⟨t, List.mem_append_left _ ht, hmax⟩
        · exact ⟨now, by simp [hnow], hmax⟩

/-- **The server keeps the rate**: in every window of time the workers count no more requests of a
key than the rate and the bursts allow, in whatever order they take their steps. -/
theorem server_rate (hrate : rate z = g.rate) (hω : Fintype.card ω ≤ g.others + 1)
    {acts : List (Act ζ ω)} (h₀ : (serverSys crc32 rate).init s₀)
    (hr : (serverSys crc32 rate).Run (Fair crc32 rate g z) s₀ acts s) (hpaced : Paced g.lag acts)
    (key : List UInt8) {a b : ℕ} (hab : a ≤ b) :
    ((times crc32 rate z key s₀ acts).filter fun t => a ≤ t.toNat ∧ t.toNat ≤ b).length * 1000000 ≤
      g.most (b - a) := by
  obtain ⟨clock, stamps, htracks, htimes, -⟩ := server_tracks hrate hω h₀ hr hpaced key
  have hcount := htracks.history.count_le hab
  rw [← htimes, List.filter_map, List.length_map]
  exact hcount

/-- A request a second, with a burst of five, two workers, and clocks two milliseconds apart. -/
def oneRegime : Regime where
  rate := 1000
  burst := 5000
  others := 1
  lag := 2
  rate_pos := by decide
  lag_lt := by decide
  fits := by decide

theorem perSecond_true : perSecond true = oneRegime.rate := rfl

theorem paced_twoReturns : Paced oneRegime.lag twoReturns := by
  unfold Paced
  decide +kernel

theorem fair_twoReturns :
    ∃ s, oneRate.Run (Fair crc32Short perSecond oneRegime true)
      freshServer twoReturns s ∧
      (keyWords (crc32Short [1]) [1] (s.zones true)).map (·.excess) = some 1000 := by
  obtain ⟨s, hs, hexcess⟩ : ∃ s, oneRate.execIf (fun s act => decide
      (Fair crc32Short perSecond oneRegime true s act))
      freshServer twoReturns = some s ∧
      (keyWords (crc32Short [1]) [1] (s.zones true)).map (·.excess) = some 1000 := by
    refine Option.map_eq_some_iff.mp ?_
    decide +kernel
  exact ⟨s, Sys.run_of_execIf hs fun _ _ _ htest => of_decide_eq_true htest, hexcess⟩

/-- Two requests of one key, of which each worker counts one. -/
theorem server_rate_twoReturns :
    times crc32Short perSecond true [1] freshServer twoReturns =
        [1000, 1000] ∧
      ((times crc32Short perSecond true [1] freshServer
        twoReturns).filter fun t => 1000 ≤ t.toNat ∧ t.toNat ≤ 2000).length * 1000000 ≤
        oneRegime.most 1000 := by
  obtain ⟨s, hr, -⟩ := fair_twoReturns
  exact ⟨by decide +kernel, server_rate perSecond_true (by decide)
    ⟨fun _ => rfl, fun _ => rfl⟩ hr paced_twoReturns [1] (by decide)⟩

/-- **The excess of a key's node** is above the bursts by less than a request for each other worker,
and what drains in the clocks' lag, in every state that the server reaches. -/
theorem server_excess (hrate : rate z = g.rate) (hω : Fintype.card ω ≤ g.others + 1)
    {acts : List (Act ζ ω)} (h₀ : (serverSys crc32 rate).init s₀)
    (hr : (serverSys crc32 rate).Run (Fair crc32 rate g z) s₀ acts s) (hpaced : Paced g.lag acts)
    (key : List UInt8) {lr : NodeWords} (hlr : keyWords (crc32 key) key (s.zones z) = some lr) :
    1000 * lr.excess.toNat ≤ g.cap := by
  obtain ⟨clock, stamps, htracks, -⟩ := server_tracks hrate hω h₀ hr hpaced key
  exact (htracks.history.within lr hlr).excess

/-- The excess after two requests is one. -/
theorem server_excess_twoReturns :
    ∃ s : Pool Bool Bool, ∃ lr, keyWords (crc32Short [1]) [1] (s.zones true) = some lr ∧
      lr.excess = 1000 ∧ 1000 * lr.excess.toNat ≤ oneRegime.cap := by
  obtain ⟨s, hr, hexcess⟩ := fair_twoReturns
  obtain ⟨lr, hlr, hlr'⟩ := Option.map_eq_some_iff.mp hexcess
  exact ⟨s, lr, hlr, hlr', server_excess perSecond_true (by decide)
    ⟨fun _ => rfl, fun _ => rfl⟩ hr paced_twoReturns [1] hlr⟩

end Server

end NginxTools.LimitReq
