import NginxTools.Core.Crc32
import NginxTools.Library.TransitionSystem
import NginxTools.VhostTrafficStatus.Control

/-!
# The workers and the zone of the traffic status module

The workers use the zone in any order, each of them under the zone's mutex. The functions leave the
mutex on all of their ways but one: when a node cannot be allocated, the way out has a message to
log, and where there is no memory for that one either, it returns before the mutex is unlocked:

    node = ngx_slab_alloc_locked(shpool, size);
    if (node == NULL) {
        shm_info = ngx_pcalloc(r->pool, sizeof(ngx_http_vhost_traffic_status_shm_info_t));
        if (shm_info == NULL) {
            return NGX_ERROR;
        }
        ...
        ngx_shmtx_unlock(&shpool->mutex);
        return NGX_ERROR;
    }

## The model

`Act` is what is done under the mutex: a request is accounted, a node is read for a limit or for a
variable, a command of the control page, a node of the dump is restored. A worker that is started
has no pointers yet.

## What is proved

Every action keeps `Shm.Wf` (`Shm.Wf.step`), and is done exactly where the mutex is not locked and
the pointer it follows is to a node (`Shm.Wf.isSome_step_iff`). **While no node is deleted, no
worker has a pointer to memory that is free**, so that nothing that the workers do can fail, in
whatever order they do it; and the mutex is never left locked, unless there was no memory twice
(`shm_safe`).
-/

namespace NginxTools.VhostTrafficStatus

open NginxTools.Library
open NginxTools.Core

variable {ω ℓ : Type}

/-! ### The workers -/

/-- What is done under the mutex. -/
inductive Act (ω ℓ : Type) where
  /-- A request is accounted under a key. -/
  | account (w : ω) (l : ℓ) (key : List UInt8) (type : Group) (r : Access) (info : Bool)
    (alloc : Alloc)
  /-- A node is read, for a limit or for a variable. -/
  | read (w : ω) (l : ℓ) (key : List UInt8) (type : Group) (always : Bool)
  /-- The command `delete` of the control page. -/
  | delete (range : Range) (room : ℕ)
  /-- The command `reset`. -/
  | reset (range : Range) (room : ℕ)
  /-- A node of the dump is restored. -/
  | restore (v : TrafficNode) (key : List UInt8) (alloc : Alloc)
  /-- A worker is started. -/
  | start (w : ω)

/-- The memory after an action. A worker waits while the mutex is locked, but for a key that is
empty it does not take it. -/
def Shm.step [DecidableEq ω] [DecidableEq ℓ] (e : Setup) (s : Shm ω ℓ) :
    Act ω ℓ → Option (Shm ω ℓ)
  | .account w l key type r info alloc =>
    if s.locked ∧ key ≠ [] then none else shmAddNode e w l key type r info alloc s
  | .read w l key type always => if s.locked then none else readNode e w l key type always s
  | .delete range room => if s.locked then none else (nodeDelete e range room s).map Prod.fst
  | .reset range room => if s.locked then none else some (nodeReset e range room s).1
  | .restore v key alloc =>
    if s.locked ∧ key ≠ [] then none else dumpRestoreAddNode e v key alloc s
  | .start w => some { s with nodeCaches := fun k => if k.1 = w then none else s.nodeCaches k }

/-- The workers and their zone, from when its memory is set up. -/
def shmSys (ω ℓ : Type) [DecidableEq ω] [DecidableEq ℓ] (e : Setup) : Sys (Shm ω ℓ) (Act ω ℓ) where
  init s := s = ⟨.nil, fun _ => none, fun _ => none, false⟩
  step := Shm.step e

/-! ### What every action keeps -/

/-- The keys have as many bytes as a node can say. -/
def Act.Short : Act ω ℓ → Prop
  | .account _ _ key _ _ _ _ => key.length < 2 ^ 16
  | .restore _ key _ => key.length < 2 ^ 16
  | _ => True

/-- No node is deleted by a command, and the keys have as many bytes as a node can say. -/
def Act.Keeps : Act ω ℓ → Prop
  | .account _ _ key _ _ _ _ => key.length < 2 ^ 16
  | .restore _ key _ => key.length < 2 ^ 16
  | .delete _ _ => False
  | _ => True

instance (act : Act ω ℓ) : Decidable act.Keeps := by
  cases act <;> unfold Act.Keeps <;> infer_instance

/-- The memory that the allocator gives is free. -/
def Act.Fits (e : Setup) (s : Shm ω ℓ) : Act ω ℓ → Prop
  | .account _ _ _ _ _ info alloc => alloc.Fits e info s
  | .restore _ _ (.slot a _) => s.mem a = none
  | _ => True

/-- What an action waits for, and which pointer it follows first: the mutex is not locked, and the
pointer is to a node. -/
def Act.Ready (s : Shm ω ℓ) : Act ω ℓ → Prop
  | .account w l key type _ _ _ => key = [] ∨ s.locked = false ∧ s.Live (w, l, type)
  | .read w l _ type _ => s.locked = false ∧ s.Live (w, l, type)
  | .restore _ key _ => key = [] ∨ s.locked = false
  | .start _ => True
  | _ => s.locked = false

/-- There is memory for a message that there is none. -/
def Act.HasPool : Act ω ℓ → Prop
  | .account _ _ _ _ _ _ .fullTwice => False
  | _ => True

theorem Act.Keeps.short {act : Act ω ℓ} (h : act.Keeps) : act.Short := by
  cases act <;> first | exact h | trivial

variable [DecidableEq ω] [DecidableEq ℓ] {e : Setup} {s s' s₀ : Shm ω ℓ} {act : Act ω ℓ}
  {acts : List (Act ω ℓ)} {k : ω × ℓ × Group} {key : List UInt8} {alloc : Alloc}

theorem shm_wf_init (h : (shmSys ω ℓ e).init s) : s.Wf e := by
  obtain rfl : s = _ := h
  exact ⟨keyedTree_nil, by simp, by simp, by simp, by simp⟩

omit [DecidableEq ω] [DecidableEq ℓ] in
/-- Restoring a node makes one for its key, if there is none. -/
theorem dumpRestoreAddNode_cases {ov : TrafficNode} (hs : s.Wf e) (hshort : key.length < 2 ^ 16)
    (h : dumpRestoreAddNode e ov key alloc s = some s') :
    s' = s ∨ ∃ a raw t, alloc = .slot a raw ∧ s.mem a = none ∧
      s' = { s with rbtree := t, mem := Function.update s.mem a (some ⟨ov, e.crc32 key⟩) } ∧
      s'.Wf e := by
  unfold dumpRestoreAddNode at h
  split_ifs at h with hkey
  · exact .inl (Option.some.inj h).symm
  · cases hlookup : lookupNode (e.crc32 key) key s.rbtree with
    | some x =>
      simp only [hlookup] at h
      exact .inl (Option.some.inj h).symm
    | none =>
      simp only [hlookup] at h
      cases alloc with
      | slot a raw =>
        simp only at h
        split_ifs at h with hfree
        rw [stored_of_short hshort] at h
        obtain ⟨t, ht, -, hwf⟩ :=
          hs.insertNode (x := ⟨a, e.crc32 key, key⟩) ov hfree hlookup rfl
        obtain rfl := Option.some.inj (ht.symm.trans h)
        exact .inr ⟨a, raw, t, rfl, hfree, rfl, hwf⟩
      | full => exact .inl (Option.some.inj h).symm
      | fullTwice => exact .inl (Option.some.inj h).symm

omit [DecidableEq ω] [DecidableEq ℓ] in
/-- Restoring a node does not fail where memory that is given is free. -/
theorem Shm.Wf.exists_dumpRestoreAddNode {ov : TrafficNode} (h : s.Wf e)
    (hshort : key.length < 2 ^ 16)
    (hfits : Act.Fits e s (.restore ov key alloc)) :
    ∃ s', dumpRestoreAddNode e ov key alloc s = some s' := by
  rw [dumpRestoreAddNode]
  by_cases hkey : key = []
  · exact ⟨s, if_pos hkey⟩
  · rw [if_neg hkey]
    cases hlookup : lookupNode (e.crc32 key) key s.rbtree with
    | some x => exact ⟨s, by simp only [hlookup]⟩
    | none =>
      cases alloc with
      | slot a raw =>
        have hfree : s.mem a = none := hfits
        obtain ⟨t, ht, -⟩ := h.insertNode (x := ⟨a, e.crc32 key, key⟩) ov hfree hlookup rfl
        exact ⟨_, by simpa [hlookup, hfree, stored_of_short hshort] using ht⟩
      | full => exact ⟨s, by simp only [hlookup]⟩
      | fullTwice => exact ⟨s, by simp only [hlookup]⟩

/-- **Every action keeps the tree and the memory together.** -/
theorem Shm.Wf.step (h : s.Wf e) (hshort : act.Short) (hs : s.step e act = some s') :
    s'.Wf e := by
  cases act with
  | account w l key type r info alloc =>
    simp only [Shm.step] at hs
    split_ifs at hs
    by_cases hkey : key = []
    · rw [shmAddNode, if_pos hkey] at hs
      exact Option.some.inj hs ▸ h
    · exact h.accounted hshort (shmAddNode_cases hkey hs)
  | read w l key type always =>
    simp only [Shm.step, readNode, Option.bind_eq_bind] at hs
    split_ifs at hs
    obtain ⟨node, -, hs⟩ := Option.bind_eq_some_iff.mp hs
    split_ifs at hs
    · exact Option.some.inj hs ▸ h.cacheNode _ _
    · exact Option.some.inj hs ▸ h
  | delete range room =>
    simp only [Shm.step] at hs
    split_ifs at hs
    obtain ⟨s₁, count, hdel, hwf, -⟩ := nodeDelete_spec h range room
    rw [hdel] at hs
    exact Option.some.inj hs ▸ hwf
  | reset range room =>
    simp only [Shm.step] at hs
    split_ifs at hs
    exact Option.some.inj hs ▸ (nodeReset_spec h range room).1
  | restore v key alloc =>
    simp only [Shm.step] at hs
    split_ifs at hs
    rcases dumpRestoreAddNode_cases h hshort hs with rfl | ⟨_, _, _, -, -, -, hwf⟩
    · exact h
    · exact hwf
  | start w =>
    obtain rfl := Option.some.inj hs
    exact ⟨h.tree, h.nodup, h.live, h.key, h.hashed⟩

/-! ### Pointers -/

omit [DecidableEq ω] [DecidableEq ℓ] in
theorem deleteLru_of_zero (hmax : e.filterMaxNode = 0) (info : Bool) (s : Shm ω ℓ) :
    deleteLru e info s = some s := by
  simp [deleteLru, findLru, hmax]

/-- What is allocated stays so, and what is pointed to is allocated. -/
structure Grows (s s' : Shm ω ℓ) : Prop where
  mem : ∀ a, s.mem a ≠ none → s'.mem a ≠ none
  nodeCaches : ∀ k a, s'.nodeCaches k = some a → s.nodeCaches k = some a ∨ s'.mem a ≠ none

omit [DecidableEq ω] [DecidableEq ℓ] in
theorem Grows.live (h : Grows s s') (hlive : ∀ k, s.Live k) (k : ω × ℓ × Group) : s'.Live k := by
  intro a ha
  rcases h.nodeCaches k a ha with hold | hnew
  · exact h.mem a (hlive k a hold)
  · exact hnew

omit [DecidableEq ω] [DecidableEq ℓ] in
/-- A node is set, which may have been made. -/
theorem grows_update {t : RbTree KeyedNode} {a : ℕ} {c : Cell} :
    Grows s { s with rbtree := t, mem := Function.update s.mem a (some c) } := by
  refine ⟨fun b hb => ?_, fun k b hb => .inl hb⟩
  by_cases hba : b = a
  · subst hba
    simp
  · simpa [Function.update_of_ne hba] using hb

theorem Grows.cacheNode (h : Grows s s') {node : Option ℕ}
    (hnode : ∀ a, node = some a → s'.mem a ≠ none) : Grows s (s'.cacheNode k node) := by
  refine ⟨h.mem, fun k' a ha => ?_⟩
  by_cases hk : k' = k
  · subst hk
    rw [nodeCaches_cacheNode_self] at ha
    exact .inr (hnode a ha)
  · rw [nodeCaches_cacheNode_of_ne s' node hk] at ha
    exact h.nodeCaches k' a ha

/-- While no node is deleted, the memory only grows. -/
theorem Shm.Wf.grows (h : s.Wf e) (hmax : e.filterMaxNode = 0) (hkeeps : act.Keeps)
    (hs : s.step e act = some s') : Grows s s' := by
  have hsame : Grows s s := ⟨fun _ ha => ha, fun _ _ ha => .inl ha⟩
  cases act with
  | account w l key type r info alloc =>
    simp only [Shm.step] at hs
    split_ifs at hs
    by_cases hkey : key = []
    · rw [shmAddNode, if_pos hkey] at hs
      exact Option.some.inj hs ▸ hsame
    · cases shmAddNode_cases hkey hs with
      | found a c _ hc heq =>
        subst heq
        refine (grows_update (t := s.rbtree)).cacheNode fun b hb => ?_
        obtain rfl := Option.some.inj hb
        simp
      | made a raw s₁ s₂ hfind hlru hfree hinsert heq =>
        obtain ⟨t, ht, -⟩ := h.made hkeeps hfind hlru hfree (firstAccess type r raw)
        obtain rfl := Option.some.inj (ht.symm.trans hinsert)
        rw [deleteLru_of_zero hmax, Option.some.injEq] at hlru
        subst hlru
        subst heq
        refine grows_update.cacheNode fun b hb => ?_
        obtain rfl := Option.some.inj hb
        simp
      | full s₁ _ hlru heq =>
        rw [deleteLru_of_zero hmax, Option.some.injEq] at hlru
        exact heq ▸ hlru ▸ hsame
      | fullTwice s₁ _ hlru heq =>
        rw [deleteLru_of_zero hmax, Option.some.injEq] at hlru
        subst hlru
        subst heq
        exact ⟨fun _ ha => ha, fun _ _ ha => .inl ha⟩
  | read w l key type always =>
    simp only [Shm.step, readNode, Option.bind_eq_bind] at hs
    split_ifs at hs
    obtain ⟨node, hfind, hs⟩ := Option.bind_eq_some_iff.mp hs
    split_ifs at hs
    · refine Option.some.inj hs ▸ hsame.cacheNode fun a ha => ?_
      obtain ⟨c, hc, -⟩ := h.cell_of_findNode (ha ▸ hfind)
      simp [hc]
    · exact Option.some.inj hs ▸ hsame
  | delete range room => exact hkeeps.elim
  | reset range room =>
    simp only [Shm.step] at hs
    split_ifs at hs
    obtain ⟨hwf, htree, -, hcaches, -⟩ := nodeReset_spec h range room
    obtain rfl := Option.some.inj hs
    refine ⟨fun a ha => ?_, fun k a ha => .inl (hcaches ▸ ha)⟩
    exact (hwf.live a).mpr (htree ▸ (h.live a).mp ha)
  | restore v key alloc =>
    simp only [Shm.step] at hs
    split_ifs at hs
    rcases dumpRestoreAddNode_cases h hkeeps hs with rfl | ⟨_, _, _, -, -, rfl, -⟩
    · exact hsame
    · exact grows_update
  | start w =>
    obtain rfl := Option.some.inj hs
    refine ⟨fun _ ha => ha, fun k a ha => .inl ?_⟩
    simp only at ha
    split_ifs at ha
    exact ha

omit [DecidableEq ω] [DecidableEq ℓ] in
theorem Shm.Wf.deleteLru_locked {info : Bool} {s₁ : Shm ω ℓ} (h : s.Wf e)
    (hs : deleteLru e info s = some s₁) : s₁.locked = s.locked := by
  rcases h.deleteLru_cases with ⟨-, heq⟩ | ⟨_, _, _, -, heq, -⟩
  · exact Option.some.inj (heq.symm.trans hs) ▸ rfl
  · exact Option.some.inj (heq.symm.trans hs) ▸ rfl

/-- The mutex is left locked only where there was no memory twice. -/
theorem Shm.Wf.step_locked (h : s.Wf e) (hshort : act.Short) (hpool : act.HasPool)
    (hs : s.step e act = some s') : s'.locked = s.locked := by
  cases act with
  | account w l key type r info alloc =>
    simp only [Shm.step] at hs
    split_ifs at hs
    by_cases hkey : key = []
    · rw [shmAddNode, if_pos hkey] at hs
      exact Option.some.inj hs ▸ rfl
    · cases shmAddNode_cases hkey hs with
      | found a c _ hc heq => exact heq ▸ rfl
      | made a raw s₁ s₂ hfind hlru hfree hinsert heq =>
        obtain ⟨t, ht, -⟩ := h.made hshort hfind hlru hfree (firstAccess type r raw)
        obtain rfl := Option.some.inj (ht.symm.trans hinsert)
        have hlocked := h.deleteLru_locked hlru
        exact heq ▸ hlocked
      | full s₁ _ hlru heq => exact heq ▸ h.deleteLru_locked hlru
      | fullTwice => exact hpool.elim
  | read w l key type always =>
    simp only [Shm.step, readNode, Option.bind_eq_bind] at hs
    split_ifs at hs
    obtain ⟨node, -, hs⟩ := Option.bind_eq_some_iff.mp hs
    split_ifs at hs
    · exact Option.some.inj hs ▸ rfl
    · exact Option.some.inj hs ▸ rfl
  | delete range room =>
    simp only [Shm.step] at hs
    split_ifs at hs
    obtain ⟨s₁, count, hdel, -, -, -, -, hlocked, -⟩ := nodeDelete_spec h range room
    rw [hdel] at hs
    exact Option.some.inj hs ▸ hlocked
  | reset range room =>
    simp only [Shm.step] at hs
    split_ifs at hs
    exact Option.some.inj hs ▸ (nodeReset_spec h range room).2.2.2.2.1
  | restore v key alloc =>
    simp only [Shm.step] at hs
    split_ifs at hs
    rcases dumpRestoreAddNode_cases h hshort hs with rfl | ⟨_, _, _, -, -, rfl, -⟩
    · rfl
    · rfl
  | start w => exact Option.some.inj hs ▸ rfl

/-! ### Any order of the workers -/

/-- **An action is done if the mutex is not locked and the pointer it follows is to a node**, and
only then. -/
theorem Shm.Wf.isSome_step_iff (h : s.Wf e) (hshort : act.Short) (hfits : act.Fits e s) :
    (s.step e act).isSome ↔ act.Ready s := by
  cases act with
  | account w l key type r info alloc =>
    by_cases hkey : key = []
    · simp [Shm.step, Act.Ready, shmAddNode, hkey]
    · have hadd : shmAddNode e w l key type r info alloc s = none ↔ ¬ s.Live (w, l, type) :=
        shmAddNode_eq_none_iff h hkey hshort hfits
      cases hlocked : s.locked with
      | true => simp [Shm.step, Act.Ready, hlocked, hkey]
      | false =>
        simp only [Shm.step, Act.Ready, hlocked, Bool.false_eq_true, false_and, ↓reduceIte, hkey,
          false_or, true_and]
        rw [Option.isSome_iff_ne_none, Ne, hadd, not_not]
  | read w l key type always =>
    cases hlocked : s.locked with
    | true => simp [Shm.step, Act.Ready, hlocked]
    | false =>
      have hfind : findNode (w, l, type) key (e.crc32 key) s = none ↔ ¬ s.Live (w, l, type) :=
        findNode_eq_none_iff
      simp only [Shm.step, Act.Ready, hlocked, Bool.false_eq_true, ↓reduceIte, true_and, readNode,
        Option.bind_eq_bind, Option.isSome_bind]
      cases hnode : findNode (w, l, type) key (e.crc32 key) s with
      | none => simpa using hfind.mp hnode
      | some node =>
        have hlive : s.Live (w, l, type) := by
          by_contra hdead
          simp [hfind.mpr hdead] at hnode
        simp [hlive]
  | delete range room =>
    obtain ⟨s₁, count, hdel, -⟩ := nodeDelete_spec h range room
    simp [Shm.step, Act.Ready, hdel]
  | reset range room => simp [Shm.step, Act.Ready]
  | restore v key alloc =>
    obtain ⟨s', hs⟩ := h.exists_dumpRestoreAddNode hshort hfits
    cases hlocked : s.locked <;> simp [Shm.step, Act.Ready, hs, hlocked]
  | start w => exact iff_of_true rfl trivial

omit [DecidableEq ω] [DecidableEq ℓ] in
/-- Where all pointers are to nodes, an action only waits for the mutex. -/
theorem Act.ready_of_live (hlive : ∀ k, s.Live k) (hlocked : s.locked = false)
    (act : Act ω ℓ) : act.Ready s := by
  cases act with
  | account w l key type r info alloc => exact .inr ⟨hlocked, hlive _⟩
  | read w l key type always => exact ⟨hlocked, hlive _⟩
  | restore v key alloc => exact .inr hlocked
  | start w => trivial
  | _ => exact hlocked

/-- **While no node is deleted, no pointer of a worker is to memory that is free.** Whatever the
workers do, in whatever order and in however many locations: the tree has exactly the nodes that are
allocated, in its order and balance; every pointer that a worker keeps is to one of them, so that
whatever is done next, with memory that is free, does not fail; and the mutex is not left locked,
unless there was no memory for a node and for the message that says so. -/
theorem shm_safe (hmax : e.filterMaxNode = 0) (hinit : (shmSys ω ℓ e).init s₀)
    (h : (shmSys ω ℓ e).Run (fun _ act => act.Keeps) s₀ acts s) :
    s.Wf e ∧ (∀ k, s.Live k) ∧ ((∀ act ∈ acts, act.HasPool) → s.locked = false) ∧
      ∀ act : Act ω ℓ, act.Short → act.Fits e s → s.locked = false → (s.step e act).isSome := by
  have hstart : s₀.Wf e ∧ (∀ k, s₀.Live k) ∧ s₀.locked = false := by
    refine ⟨shm_wf_init hinit, ?_⟩
    obtain rfl : s₀ = _ := hinit
    exact ⟨fun k a ha => by simp at ha, rfl⟩
  have hwf : s.Wf e ∧ ∀ k, s.Live k := by
    refine h.invariant (I := fun s => s.Wf e ∧ ∀ k, s.Live k) (fun s act s' hC hI hs => ?_)
      ⟨hstart.1, hstart.2.1⟩
    exact ⟨hI.1.step hC.short hs, (hI.1.grows hmax hC hs).live hI.2⟩
  refine ⟨hwf.1, hwf.2, fun hpool => ?_, fun act hshort hfits hlocked =>
    (hwf.1.isSome_step_iff hshort hfits).mpr (act.ready_of_live hwf.2 hlocked)⟩
  have hrun : (shmSys ω ℓ e).Run (fun _ act => act.Keeps ∧ act.HasPool) s₀ acts s :=
    h.mono_mem fun _ act hact hC => ⟨hC, hpool act hact⟩
  refine (hrun.invariant (I := fun s => s.Wf e ∧ s.locked = false) (fun s act s' hC hI hs => ?_)
    ⟨hstart.1, hstart.2.2⟩).2
  exact ⟨hI.1.step hC.1.short hs, (hI.1.step_locked hC.1.short hC.2 hs).trans hI.2⟩

/-! ### Two workers -/

/-- No limit of filter nodes. -/
def noLimit : Setup := ⟨crc32Short, 0, fun _ => false⟩

/-- A request that took 20 ms. -/
def shortRequest : Access :=
  ⟨200, 100, 500, 10, 0, none, [], none, 10, 20, 10020, ⟨.amm, 60000, none⟩⟩

/-- Memory that was never used. -/
def freshMemory : TrafficNode :=
  ⟨fun _ => 0, fun _ => 0, 0, timeQueueInit, [], 0, 0, 0, .no, ⟨0, 0, timeQueueInit, []⟩⟩

/-- The key of a server. -/
def serverNode (name : UInt8) : List UInt8 := generateKey [name] .no

/-- The zone, and workers that were just started. -/
def freshShm : Shm Bool Unit := ⟨.nil, fun _ => none, fun _ => none, false⟩

/-- Both workers account requests of two servers, one is started again, and all is reset. -/
def twoServers : List (Act Bool Unit) :=
  [.account true () (serverNode 97) .no shortRequest true (.slot 1 freshMemory),
    .account false () (serverNode 97) .no shortRequest true .full,
    .account false () (serverNode 98) .no shortRequest true (.slot 2 freshMemory),
    .start true, .reset .all 0, .account true () (serverNode 98) .no shortRequest true .full]

/-- The node that both workers have used is there, and one request was counted since the reset. -/
theorem shm_safe_twoServers : ∃ s : Shm Bool Unit, s.Wf noLimit ∧ s.locked = false ∧
    (s.mem 2).map (fun c => c.stat .request) = some 1 ∧ (∀ k, s.Live k) := by
  obtain ⟨s, hs, hcount⟩ : ∃ s, (shmSys Bool Unit noLimit).execIf
      (fun _ act => decide act.Keeps) freshShm twoServers = some s ∧
      (s.mem 2).map (fun c => c.stat .request) = some 1 := by
    refine Option.map_eq_some_iff.mp ?_
    decide +kernel
  have hr : (shmSys Bool Unit noLimit).Run (fun _ act => act.Keeps) freshShm twoServers s :=
    Sys.run_of_execIf hs fun _ _ _ htest => of_decide_eq_true htest
  obtain ⟨hwf, hlive, hlocked, -⟩ := shm_safe rfl rfl hr
  exact ⟨s, hwf, hlocked (by simp [twoServers, Act.HasPool]), hcount, hlive⟩

end NginxTools.VhostTrafficStatus
