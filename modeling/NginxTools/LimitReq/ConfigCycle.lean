import NginxTools.Library.TransitionSystem
import NginxTools.LimitReq.BurstLevel

/-!
# The remembered configuration across reloads

`_limit_req_stats_lrcf` is a static pointer of the master process. Every load of the
configuration merges its locations, and the merge of the traffic status module calls
`_limit_req_stats_init` for each of them (`limitReqStatsInit`); a load that succeeds
destroys the configuration of the cycle before, a load that fails its own.

## The model

`HttpConf` is the `http` block as parsed: servers with locations nested to any depth.
`mergeServers` is `ngx_http_merge_servers`: it goes through the servers, and through the
locations of each in depth-first order, a block without limits of its own taking those of
the block around it (`ngx_http_limit_req_merge_conf`, which runs for all blocks before the
traffic status module, as modules merge one after the other in their order). A
location's configuration is named by its cycle and its place in that order (`LocPtr`), so
that a pointer into a destroyed cycle stays told apart from every live one.

A `Load` fails after any number of merges, or succeeds; without a
`vhost_traffic_status_zone` (`enable`) the hook is not reached.

## What is proved

`Valid` is what a reader of the pointer needs: it is `NULL`, or points into the cycle in
force. `valid_load_iff` — a load keeps it exactly when `KeepsPointer` holds: a load that
succeeds leaves no old pointer behind, and a load that fails has not yet taken one.
-/

namespace NginxTools.LimitReq

open NginxTools.Library

variable {ζ : Type}

/-! ### Merging -/

/-- A `location` block: the zones of its own limits, and the locations in it. -/
inductive Location (ζ : Type) where
  /-- A block. -/
  | mk (limits : List ζ) (locations : List (Location ζ))

/-- A `server` block. -/
structure Server (ζ : Type) where
  /-- The zones of its own limits. -/
  limits : List ζ
  /-- Its locations. -/
  locations : List (Location ζ)

/-- The `http` block. -/
structure HttpConf (ζ : Type) where
  /-- The zones of its own limits. -/
  limits : List ζ
  /-- Its servers. -/
  servers : List (Server ζ)

/-- `ngx_http_limit_req_merge_conf`: a block without limits of its own takes its parent's. -/
def limitReqMergeConf (prev : LimitReqConf ζ) (limits : List ζ) : LimitReqConf ζ :=
  if limits = [] then prev else ⟨limits⟩

mutual

/-- The merged configurations of a location and of those in it. -/
def Location.merge (prev : LimitReqConf ζ) : Location ζ → List (LimitReqConf ζ)
  | .mk limits locations =>
    let conf := limitReqMergeConf prev limits
    conf :: mergeLocations conf locations

/-- `ngx_http_merge_locations`. -/
def mergeLocations (prev : LimitReqConf ζ) : List (Location ζ) → List (LimitReqConf ζ)
  | [] => []
  | l :: ls => l.merge prev ++ mergeLocations prev ls

end

/-- `ngx_http_merge_servers`: the merged configurations in the order of the merges. -/
def mergeServers (http : HttpConf ζ) : List (LimitReqConf ζ) :=
  http.servers.flatMap fun srv =>
    let conf := limitReqMergeConf ⟨http.limits⟩ srv.limits
    conf :: mergeLocations conf srv.locations

/-! ### Loads -/

/-- A location's configuration: its cycle, and its place in the order of the merges. -/
structure LocPtr where
  /-- The cycle. -/
  cycle : ℕ
  /-- The place. -/
  loc : ℕ
  deriving DecidableEq

/-- A cycle: its number and its locations' configurations. -/
structure Cycle (ζ : Type) where
  /-- The number. -/
  id : ℕ
  /-- The merged configurations. -/
  confs : List (LimitReqConf ζ)

/-- The master process. -/
structure Master (ζ : Type) where
  /-- `_limit_req_stats_lrcf`. -/
  statsLrcf : Option LocPtr
  /-- The cycle in force, if there is one yet. -/
  inForce : Option (Cycle ζ)
  /-- The number of the next cycle. -/
  next : ℕ

/-- A load of a configuration. -/
structure Load (ζ : Type) where
  /-- There is a `vhost_traffic_status_zone`. -/
  enable : Bool
  /-- The configuration. -/
  http : HttpConf ζ
  /-- The load succeeds (`none`), or fails after that many merges. -/
  fails : Option ℕ

/-- The configurations for which the hook is called. -/
def Load.hooked (l : Load ζ) : List (LimitReqConf ζ) :=
  if l.enable then
    match l.fails with
    | none => mergeServers l.http
    | some k => (mergeServers l.http).take k
  else []

/-- The calls of the hook for the configurations `confs` of cycle `id`, from place `i` on. -/
def hookAll (id : ℕ) : ℕ → List (LimitReqConf ζ) → Option LocPtr → Option LocPtr
  | _, [], p => p
  | i, lrcf :: confs, p =>
    hookAll id (i + 1) confs (limitReqStatsInit (fun _ => lrcf.limits.length) ⟨id, i⟩ p)

/-- A load. -/
def Master.load (s : Master ζ) (l : Load ζ) : Master ζ where
  statsLrcf := hookAll s.next 0 l.hooked s.statsLrcf
  inForce := if l.fails.isNone then some ⟨s.next, mergeServers l.http⟩ else s.inForce
  next := s.next + 1

/-- The master process as a system: it starts with nothing loaded, and any load may come next. -/
def master (ζ : Type) : Sys (Master ζ) (Load ζ) where
  init s := s.statsLrcf = none ∧ s.inForce = none
  step s l := some (s.load l)

/-! ### What the reader of the pointer needs -/

/-- The pointer is `NULL` or points to a location of the cycle in force, and is `NULL`
when no location of that cycle has a limit. -/
def Valid (s : Master ζ) : Prop :=
  (∀ p, s.statsLrcf = some p → ∃ c, s.inForce = some c ∧ p.cycle = c.id ∧ p.loc < c.confs.length) ∧
    ((∀ c, s.inForce = some c → ∀ lrcf ∈ c.confs, lrcf.limits = []) → s.statsLrcf = none)

/-- A load that succeeds meets a location with limits or finds the pointer `NULL`; a load
that fails has met no location with limits yet. -/
def KeepsPointer (s : Master ζ) (l : Load ζ) : Prop :=
  if l.fails.isNone then s.statsLrcf = none ∨ ∃ lrcf ∈ l.hooked, lrcf.limits ≠ []
  else ∀ lrcf ∈ l.hooked, lrcf.limits = []

/-- Cycles are numbered in the order of the loads. -/
def Numbered (s : Master ζ) : Prop :=
  (∀ c, s.inForce = some c → c.id < s.next) ∧ ∀ p, s.statsLrcf = some p → p.cycle < s.next

/-- **The hooks of a load**: they leave the pointer alone when no location has limits, and
otherwise point it at one that has. -/
theorem hookAll_spec (id : ℕ) (confs : List (LimitReqConf ζ)) (i : ℕ) (p : Option LocPtr) :
    ((∀ lrcf ∈ confs, lrcf.limits = []) ∧ hookAll id i confs p = p) ∨
      ∃ j lrcf, confs[j]? = some lrcf ∧ lrcf.limits ≠ [] ∧
      hookAll id i confs p = some ⟨id, i + j⟩ := by
  induction confs generalizing i p with
  | nil => exact .inl ⟨by simp, rfl⟩
  | cons lrcf confs ih =>
    rw [hookAll]
    rcases ih (i + 1) (limitReqStatsInit (fun _ => lrcf.limits.length) ⟨id, i⟩ p) with
        ⟨hall, heq⟩ | ⟨j, c, hj, hc, heq⟩
    · rw [heq]
      by_cases hl : lrcf.limits = []
      · exact .inl ⟨List.forall_mem_cons.mpr ⟨hl, hall⟩, by simp [limitReqStatsInit, hl]⟩
      · exact .inr ⟨0, lrcf, rfl, hl, by simp [limitReqStatsInit, hl]⟩
    · refine .inr ⟨j + 1, c, hj, hc, ?_⟩
      rw [heq, Nat.add_right_comm, Nat.add_assoc]

/-- The hooks of a load see its locations' configurations, at their places. -/
theorem getElem?_of_hooked {l : Load ζ} {j : ℕ} {lrcf : LimitReqConf ζ}
    (h : l.hooked[j]? = some lrcf) : (mergeServers l.http)[j]? = some lrcf := by
  unfold Load.hooked at h
  split_ifs at h with he
  · cases hf : l.fails with
    | none => simpa [hf] using h
    | some k =>
      simp only [hf, List.getElem?_take] at h
      split_ifs at h
      exact h
  · simp at h

theorem Numbered.load {s : Master ζ} (h : Numbered s) (l : Load ζ) : Numbered (s.load l) := by
  constructor
  · intro c hc
    simp only [Master.load] at hc ⊢
    split_ifs at hc
    · cases hc; exact Nat.lt_succ_self _
    · exact Nat.lt_succ_of_lt (h.1 c hc)
  · intro p hp
    simp only [Master.load] at hp ⊢
    rcases hookAll_spec s.next l.hooked 0 s.statsLrcf with ⟨-, heq⟩ | ⟨j, c, -, -, heq⟩
    · exact Nat.lt_succ_of_lt (h.2 p (heq ▸ hp))
    · rw [heq] at hp; cases hp; exact Nat.lt_succ_self _

/-- **One load**: it keeps the pointer valid exactly when the condition holds. -/
theorem valid_load_iff {s : Master ζ} (hn : Numbered s) (hv : Valid s) (l : Load ζ) :
    Valid (s.load l) ↔ KeepsPointer s l := by
  unfold KeepsPointer
  rcases hookAll_spec s.next l.hooked 0 s.statsLrcf with ⟨hall, heq⟩ | ⟨j, lrcf, hj, hlim, heq⟩
  · -- no location with limits was met: the pointer is the old one
    have hkept : (s.load l).statsLrcf = s.statsLrcf := heq
    have hnone : ¬ ∃ lrcf ∈ l.hooked, lrcf.limits ≠ [] := by
      rintro ⟨c, hc, hne⟩
      exact hne (hall c hc)
    split_ifs with hf
    · simp only [hnone, or_false]
      constructor
      · rintro ⟨hp, -⟩
        cases hs : s.statsLrcf with
        | none => rfl
        | some p =>
          obtain ⟨c, hc, hcyc, -⟩ := hp p (hkept.trans hs)
          simp only [Master.load, hf, if_true, Option.some.injEq] at hc
          have := hn.2 p hs
          rw [hcyc, ← hc] at this
          exact absurd this (Nat.lt_irrefl _)
      · intro hs
        have hload : (s.load l).statsLrcf = none := hkept.trans hs
        exact ⟨fun p hp => by simp [hload] at hp, fun _ => hload⟩
    · refine iff_of_true ?_ hall
      have hforce : (s.load l).inForce = s.inForce := if_neg hf
      unfold Valid
      rw [hkept, hforce]
      exact hv
  · -- the pointer now points into the new cycle
    have hmem : lrcf ∈ l.hooked := List.mem_of_getElem? hj
    have hptr : (s.load l).statsLrcf = some ⟨s.next, j⟩ := by simp [Master.load, heq]
    split_ifs with hf
    · refine iff_of_true ⟨fun p hp => ?_, fun hempty => ?_⟩ (.inr ⟨lrcf, hmem, hlim⟩)
      · rw [hptr] at hp
        cases hp
        refine ⟨⟨s.next, mergeServers l.http⟩, by simp [Master.load, hf], rfl, ?_⟩
        exact (List.getElem?_eq_some_iff.mp (getElem?_of_hooked hj)).1
      · have hc := hempty ⟨s.next, mergeServers l.http⟩ (by simp [Master.load, hf]) lrcf
          (List.mem_of_getElem? (getElem?_of_hooked hj))
        exact absurd hc hlim
    · refine iff_of_false (fun h => ?_) fun h => hlim (h lrcf hmem)
      obtain ⟨c, hc, hcyc, -⟩ := h.1 _ hptr
      simp only [Master.load, hf] at hc
      have := hn.1 c hc
      rw [← hcyc] at this
      exact absurd this (Nat.lt_irrefl _)

theorem numbered_of_reach {C : Master ζ → Load ζ → Prop} {s : Master ζ} (h : (master ζ).Reach C s) :
    Numbered s := by
  refine h.invariant ?_ ?_
  · rintro s ⟨hp, hc⟩
    exact ⟨fun c h => by simp [hc] at h, fun p h => by simp [hp] at h⟩
  · intro s l s' _ _ hI hs
    cases hs
    exact hI.load l

/-- **The pointer over any sequence of loads**: it is valid after every load of a sequence
whose loads all keep it, and the first load that does not makes it invalid. -/
theorem pointer_valid_of_keeps (ζ : Type) :
    (∀ s : Master ζ, (master ζ).Reach KeepsPointer s → Valid s) ∧
      (∀ (s : Master ζ) (l : Load ζ), (master ζ).Reach KeepsPointer s →
        (Valid (s.load l) ↔ KeepsPointer s l)) := by
  have hvalid : ∀ s : Master ζ, (master ζ).Reach KeepsPointer s → Valid s := by
    intro s h
    refine h.invariant ?_ ?_
    · rintro s ⟨hp, hc⟩
      exact ⟨fun p h => by simp [hp] at h, fun _ => hp⟩
    · intro s l s' hr hC hI hs
      cases hs
      exact (valid_load_iff (numbered_of_reach hr) hI l).mpr hC
  exact ⟨hvalid, fun s l h => valid_load_iff (numbered_of_reach h) (hvalid s h) l⟩

/-- A configuration with one location that has a limit, and one without limits. -/
def withLimit : HttpConf Unit := ⟨[], [⟨[], [.mk [()] []]⟩]⟩

/-- The same without the limit. -/
def withoutLimit : HttpConf Unit := ⟨[], [⟨[], [.mk [] []]⟩]⟩

/-- A reload that removes the limits leaves the pointer in the destroyed configuration. -/
theorem pointer_dangles_after_reload :
    ¬ ∀ s : Master Unit, (master Unit).Reach Any s → Valid s := by
  intro h
  let s₀ : Master Unit := ⟨none, none, 0⟩
  let loads : List (Load Unit) := [⟨true, withLimit, none⟩, ⟨true, withoutLimit, none⟩]
  obtain ⟨s, hs, hptr, hforce⟩ : ∃ s, (master Unit).exec s₀ loads = some s ∧
      s.statsLrcf = some ⟨0, 1⟩ ∧ s.inForce = some ⟨1, mergeServers withoutLimit⟩ :=
        ⟨_, rfl, rfl, rfl⟩
  obtain ⟨c, hc, hcyc, -⟩ := (h s ⟨s₀, loads, ⟨rfl, rfl⟩, Sys.run_of_exec hs⟩).1 _ hptr
  rw [hforce] at hc
  cases hc
  cases hcyc

end NginxTools.LimitReq
