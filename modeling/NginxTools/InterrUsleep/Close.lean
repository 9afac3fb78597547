import NginxTools.InterrUsleep.Protocol

/-!
# Closing the interruptible sleep

`interr_usleep_close` unlocks a pending sleep, as `interr_usleep_unblock` does, and then releases
the context:

    UNLOCK();
    CHECK(pthread_mutex_destroy(&interr_usleep_ctx->interr_mutex)== 0);
    CHECK(pthread_cond_destroy(&interr_usleep_ctx->interr_signal)== 0);
    ...
    free(interr_usleep_ctx);

A sleeper that the broadcast wakes still takes the mutex, reads the flag and unlocks the mutex.

## The model

* `Closing` — the protocol's state, how far the one call of `interr_usleep_close` has come, what it
  has destroyed or freed, and which threads were in `interr_usleep` when it began and still are.
* `CloseAct`, `closing` — the steps of the protocol, and those of close. `UNLOCK()` is made of the
  steps of an unblocker. A destroy may fail, which is only logged.
* `Act.uses` — what of the context a step uses.
* `Proper` — the step does not let a sleeper use what is gone, and a sleeper that returns does so
  with `EINTR`, or with `0` past its deadline.

## What is proved

`Closing.Inv` holds in every reachable state: once close has broadcast, nobody waits and nobody
will. So the condition is never used once it is destroyed; but nothing makes close wait for the
sleepers to unlock the mutex. `close_proper_iff`: a run is proper if close destroys the mutex and
frees the context only when no sleeper is inside any more, and on runs in which the sleepers return,
only then.
-/

namespace NginxTools.InterrUsleep

open NginxTools.Library

variable {τ : Type} [DecidableEq τ]

/-! ### What a step uses -/

/-- What close destroys or frees. -/
inductive Part where
  /-- `interr_mutex`. -/
  | mutex
  /-- `interr_signal`. -/
  | cond
  /-- `flag_exit`. -/
  | flag
  deriving DecidableEq

/-- What of the context a step uses. -/
def Act.uses : Act τ → List Part
  | .usleepLock _ | .usleepReacquire _ _ | .usleepUnlock _ | .unblockLock _ | .unblockUnlock _ =>
      [.mutex]
  | .usleepWait _ | .usleepRefused _ _ => [.mutex, .cond]
  | .usleepWake _ | .broadcast _ => [.cond]
  | .usleepTest _ | .setFlag _ => [.flag]
  | .tick _ | .usleep _ _ | .usleepReturn _ _ | .unblock _ => []

/-- The control points of `interr_usleep` up to its last use of the context. -/
def Pc.Inside : Pc → Prop
  | .usleepLock _ | .usleepTest _ _ | .usleepWait _ | .usleepBlocked _ | .usleepUnlock _ _ => True
  | _ => False

/-! ### The machine -/

/-- How far the call of `interr_usleep_close` has come, and the thread that makes it. -/
inductive Stage (τ : Type) where
  /-- Not called yet. -/
  | before
  /-- In `UNLOCK()`. -/
  | unlock (k : τ)
  /-- About to destroy the mutex. -/
  | destroyMutex (k : τ)
  /-- About to destroy the condition. -/
  | destroyCond (k : τ)
  /-- About to free the context. -/
  | free (k : τ)
  /-- Returned. -/
  | closed
  deriving DecidableEq

/-- The thread that is releasing the context, `UNLOCK()` being done. -/
def Stage.releaser? : Stage τ → Option τ
  | .destroyMutex k | .destroyCond k | .free k => some k
  | _ => none

/-- The context while it is being closed. -/
structure Closing (τ : Type) where
  /-- The context and the threads that use it. -/
  base : State τ
  /-- Where `interr_usleep_close` is. -/
  stage : Stage τ
  /-- The threads that were in `interr_usleep` when close began, and still are. -/
  sleeper : τ → Bool
  /-- The mutex is destroyed. -/
  mutexGone : Bool
  /-- The condition is destroyed. -/
  condGone : Bool
  /-- The context is freed. -/
  freed : Bool

/-- The steps of the protocol and of `interr_usleep_close`. -/
inductive CloseAct (τ : Type) where
  /-- A step of the protocol. -/
  | base (a : Act τ)
  /-- A thread calls `interr_usleep_close`. -/
  | close (k : τ)
  /-- `pthread_mutex_destroy`, which returns `0` or not. -/
  | destroyMutex (ok : Bool)
  /-- `pthread_cond_destroy`, which returns `0` or not. -/
  | destroyCond (ok : Bool)
  /-- `free`. -/
  | free
  deriving DecidableEq

/-- `UNLOCK()` ends with the closer's unlocking of the mutex. -/
def Stage.next (st : Stage τ) (a : Act τ) : Stage τ :=
  match st with
  | .unlock k => if a = .unblockUnlock k then .destroyMutex k else .unlock k
  | st => st

/-- A sleeper that returns is one no longer. -/
def sleepersAfter (sleeper : τ → Bool) (a : Act τ) : τ → Bool :=
  match a with
  | .usleepReturn t _ => Function.update sleeper t false
  | _ => sleeper

/-- A thread that is releasing the context starts nothing else. -/
def Busy (st : Stage τ) : Act τ → Prop
  | .usleep t _ | .unblock t => st.releaser? = some t
  | _ => False

instance (st : Stage τ) (a : Act τ) : Decidable (Busy st a) := by
  cases a <;> unfold Busy <;> infer_instance

/-- One step. -/
def closeStep (s : Closing τ) : CloseAct τ → Option (Closing τ)
  | .base a =>
    if Busy s.stage a then none
    else (step s.base a).map fun b =>
      { s with base := b, stage := s.stage.next a, sleeper := sleepersAfter s.sleeper a }
  | .close k =>
    if s.stage = .before then
      (step s.base (.unblock k)).map fun b =>
        { s with base := b, stage := .unlock k, sleeper := fun t => (s.base.pc t).call?.isSome }
    else none
  | .destroyMutex ok =>
    match s.stage with
    | .destroyMutex k => some { s with stage := .destroyCond k, mutexGone := s.mutexGone || ok }
    | _ => none
  | .destroyCond ok =>
    match s.stage with
    | .destroyCond k => some { s with stage := .free k, condGone := s.condGone || ok }
    | _ => none
  | .free =>
    match s.stage with
    | .free _ => some { s with stage := .closed, freed := true }
    | _ => none

/-- Close and the protocol, on one open context. -/
def closing (τ : Type) [DecidableEq τ] : Sys (Closing τ) (CloseAct τ) where
  init s := (protocol τ).init s.base ∧ s.stage = .before ∧ (∀ t, s.sleeper t = false) ∧
    s.mutexGone = false ∧ s.condGone = false ∧ s.freed = false
  step := closeStep

/-- **What a step can do.** -/
inductive CloseStep (s : Closing τ) : CloseAct τ → Closing τ → Prop where
  | base {a : Act τ} {b : State τ} (hbusy : ¬ Busy s.stage a) (h : Step s.base a b) :
      CloseStep s (.base a)
        { s with base := b, stage := s.stage.next a, sleeper := sleepersAfter s.sleeper a }
  | close {k : τ} {b : State τ} (hst : s.stage = .before) (h : Step s.base (.unblock k) b) :
      CloseStep s (.close k)
        { s with base := b, stage := .unlock k, sleeper := fun t => (s.base.pc t).call?.isSome }
  | destroyMutex {k : τ} (ok : Bool) (hst : s.stage = .destroyMutex k) :
      CloseStep s (.destroyMutex ok) { s with
        stage := .destroyCond k, mutexGone := s.mutexGone || ok }
  | destroyCond {k : τ} (ok : Bool) (hst : s.stage = .destroyCond k) :
      CloseStep s (.destroyCond ok) { s with stage := .free k, condGone := s.condGone || ok }
  | free {k : τ} (hst : s.stage = .free k) :
      CloseStep s .free { s with stage := .closed, freed := true }

theorem CloseStep.of_closing {s s' : Closing τ} {a : CloseAct τ}
    (h : (closing τ).step s a = some s') :
    CloseStep s a s' := by
  have h : closeStep s a = some s' := h
  cases a with
  | base a =>
    simp only [closeStep] at h
    split_ifs at h with hbusy
    obtain ⟨b, hb, rfl⟩ := Option.map_eq_some_iff.mp h
    exact .base hbusy (.of_step hb)
  | close k =>
    simp only [closeStep] at h
    split_ifs at h with hst
    obtain ⟨b, hb, rfl⟩ := Option.map_eq_some_iff.mp h
    exact .close hst (.of_step hb)
  | destroyMutex ok => simp only [closeStep] at h; split at h <;> cases h; exact .destroyMutex _ ‹_›
  | destroyCond ok => simp only [closeStep] at h; split at h <;> cases h; exact .destroyCond _ ‹_›
  | free => simp only [closeStep] at h; split at h <;> cases h; exact .free ‹_›

/-! ### The property and the condition -/

/-- A part of the context is destroyed or freed. -/
def Closing.Gone (s : Closing τ) : Part → Prop
  | .mutex => s.mutexGone = true ∨ s.freed = true
  | .cond => s.condGone = true ∨ s.freed = true
  | .flag => s.freed = true

/-- A sleeper's step uses a part that is gone. -/
def UsesGone (s : Closing τ) (a : CloseAct τ) : Prop :=
  ∃ b t, a = .base b ∧ b.actor = some t ∧ s.sleeper t = true ∧ ∃ p ∈ b.uses, s.Gone p

/-- A sleeper returns `EINTR`, or `0` past its deadline. -/
def ReturnsWell (s : Closing τ) (a : CloseAct τ) : Prop :=
  ∀ t v, a = .base (.usleepReturn t v) → s.sleeper t = true →
    v = EINTR ∨ (v = 0 ∧ ∃ c, (s.base.pc t).call? = some c ∧ c.tout.ns ≤ s.base.now)

/-- What the header promises of a step. -/
def Proper (s : Closing τ) (a : CloseAct τ) : Prop := ¬ UsesGone s a ∧ ReturnsWell s a

/-- No sleeper will use the context again. -/
def Closing.Left (s : Closing τ) : Prop := ∀ t, s.sleeper t = true → ¬ (s.base.pc t).Inside

/-- The mutex is destroyed, and the context freed, only when no sleeper will use it again. -/
def Awaits (s : Closing τ) (a : CloseAct τ) : Prop := a = .destroyMutex true ∨ a = .free → s.Left

/-! ### Nobody waits after the broadcast -/

/-- The flag is set, and nobody waits or is about to. -/
def Settled (s : State τ) : Prop := s.flagExit = true ∧ ∀ t, ¬ Stranded s t

/-- Nobody starts to wait while the flag is set. -/
theorem Step.settled {s s' : State τ} {a : Act τ} (h : Step s a s') (hs : Settled s) :
    Settled s' := by
  obtain ⟨hf, hn⟩ := hs
  refine ⟨h.flagExit hf, fun t ht => hn t ?_⟩
  cases h with
  | tick _ => exact ht
  | again _ hflag _ => simp [hf] at hflag
  | @usleepWait u c _ hpc _ => exact absurd (.inl ⟨c, hpc⟩) (hn u)
  | @usleepWake u m hm =>
    obtain ⟨-, rfl⟩ := Monitor.wake_eq_some.mp hm
    refine ht.imp id fun hwait => ?_
    by_cases htu : t = u
    · subst htu; simp at hwait
    · simpa [Function.update_of_ne htu] using hwait
  | usleepLock _ hm | unblockLock _ hm =>
    obtain ⟨-, rfl⟩ := Monitor.lock_eq_some.mp hm
    exact stranded_of_goto (fun _ => id) (by simp) ht
  | usleepReacquire _ _ hm =>
    obtain ⟨-, -, rfl⟩ := Monitor.reacquire_eq_some.mp hm
    exact stranded_of_goto (fun _ => id) (by simp) ht
  | usleepUnlock _ hm | unblockUnlock _ hm =>
    obtain ⟨-, rfl⟩ := Monitor.unlock_eq_some.mp hm
    exact stranded_of_goto (fun _ => id) (by simp) ht
  | broadcast _ => exact stranded_of_goto (fun _ hw => by simp at hw) (by simp) ht
  | _ => exact stranded_of_goto (fun _ => id) (by simp) ht

/-- **A broadcast leaves nobody waiting**, and nobody about to: the broadcaster holds the mutex. -/
theorem Inv.settled_of_broadcast {s s' : State τ} (hI : Inv s) {k : τ}
    (h : Step s (.broadcast k) s') :
    Settled s' := by
  cases h with
  | broadcast hpc =>
    have hflag : CallOk s.flagExit s.now .unblockBroadcast := hpc ▸ hI.calls k
    refine ⟨hflag, fun t ht => ?_⟩
    rcases ht with ⟨c, hc⟩ | hwait
    · by_cases htk : t = k
      · subst htk; simp [State.goto] at hc
      · have hc' : s.pc t = .usleepWait c := by simpa [State.goto, htk] using hc
        exact absurd (hI.disc.unique (by simp [hc', Pc.Holds]) (by simp [hpc, Pc.Holds])) htk
    · simp at hwait

/-! ### The invariant -/

/-- Close has made its broadcast. -/
def Closing.Woken (s : Closing τ) : Prop :=
  match s.stage with
  | .before => False
  | .unlock k => s.base.pc k = .unblockUnlock
  | _ => True

/-- The invariant of closing. -/
structure Closing.Inv (s : Closing τ) : Prop where
  /-- The protocol goes on. -/
  base : InterrUsleep.Inv s.base
  /-- Whoever was a sleeper and has not returned is in `interr_usleep`. -/
  inCall : ∀ t, s.sleeper t = true → (s.base.pc t).call?.isSome
  /-- After the broadcast nobody waits. -/
  settled : s.Woken → Settled s.base
  /-- The broadcast comes before anything is destroyed. -/
  woken : s.mutexGone = true ∨ s.condGone = true ∨ s.freed = true → s.Woken

/-- The closer keeps its place after the broadcast until it unlocks the mutex. -/
theorem Step.pc_unblockUnlock {s s' : State τ} {a : Act τ} (h : Step s a s') {k : τ}
    (hk : s.pc k = .unblockUnlock) (ha : a ≠ .unblockUnlock k) : s'.pc k = .unblockUnlock := by
  by_cases hact : a.actor = some k
  · cases h with
    | usleepWake _ | tick _ => exact hk
    | _ => cases hact; simp_all
  · rw [h.pc_of_ne hact, hk]

/-- A thread arrives there only by a broadcast. -/
theorem Step.of_pc_unblockUnlock {s s' : State τ} {a : Act τ} (h : Step s a s') {k : τ}
    (hk : s'.pc k = .unblockUnlock) : s.pc k = .unblockUnlock ∨ a = .broadcast k := by
  by_cases hact : a.actor = some k
  · cases h with
    | broadcast _ => cases hact; exact .inr rfl
    | usleepWake _ | tick _ => exact .inl hk
    | _ => cases hact; simp [State.goto] at hk
  · exact .inl (h.pc_of_ne hact ▸ hk)

/-- A step of the protocol does not undo the broadcast. -/
theorem Closing.Woken.step {s : Closing τ} {a : Act τ} {b : State τ} (hw : s.Woken)
    (h : Step s.base a b) (sl : τ → Bool) : Closing.Woken { s with
      base := b, stage := s.stage.next a, sleeper := sl } := by
  cases hst : s.stage with
  | before => simp [Closing.Woken, hst] at hw
  | unlock k =>
    have hk : s.base.pc k = .unblockUnlock := by simpa [Closing.Woken, hst] using hw
    by_cases ha : a = .unblockUnlock k
    · simp [Closing.Woken, Stage.next, ha]
    · simpa [Closing.Woken, Stage.next, ha] using h.pc_unblockUnlock hk ha
  | destroyMutex k => simp [Closing.Woken, Stage.next]
  | destroyCond k => simp [Closing.Woken, Stage.next]
  | free k => simp [Closing.Woken, Stage.next]
  | closed => simp [Closing.Woken, Stage.next]

/-- A step after which the broadcast is made was taken after it, or is it. -/
theorem Closing.Woken.of_step {s : Closing τ} {a : Act τ} {b : State τ} (h : Step s.base a b)
    {sl : τ → Bool}
    (hw : Closing.Woken { s with base := b, stage := s.stage.next a, sleeper := sl }) :
    s.Woken ∨ ∃ k, a = .broadcast k := by
  cases hst : s.stage with
  | before => simp [Closing.Woken, Stage.next, hst] at hw
  | unlock k =>
    by_cases ha : a = .unblockUnlock k
    · subst ha
      cases h with
      | unblockUnlock hpc _ => exact .inl (by simpa [Closing.Woken, hst] using hpc)
    · have hk : b.pc k = .unblockUnlock := by simpa [Closing.Woken, Stage.next, hst, ha] using hw
      refine (h.of_pc_unblockUnlock hk).imp (fun hpc => ?_) fun hb => ⟨k, hb⟩
      simpa [Closing.Woken, hst] using hpc
  | destroyMutex k => exact .inl (by simp [Closing.Woken, hst])
  | destroyCond k => exact .inl (by simp [Closing.Woken, hst])
  | free k => exact .inl (by simp [Closing.Woken, hst])
  | closed => exact .inl (by simp [Closing.Woken, hst])

/-- A sleeper after a step was one before it, and has not returned. -/
theorem sleepersAfter_eq_true {sl : τ → Bool} {a : Act τ} {t : τ}
    (h : sleepersAfter sl a t = true) :
    sl t = true ∧ ∀ v, a ≠ .usleepReturn t v := by
  by_cases hr : ∃ v, a = .usleepReturn t v
  · obtain ⟨v, rfl⟩ := hr
    simp [sleepersAfter] at h
  · refine ⟨?_, fun v hv => hr ⟨v, hv⟩⟩
    cases a with
    | usleepReturn u v =>
      have hut : t ≠ u := by rintro rfl; exact hr ⟨v, rfl⟩
      simpa [sleepersAfter, hut] using h
    | _ => exact h

theorem Closing.Inv.init {s : Closing τ} (h : (closing τ).init s) : s.Inv := by
  obtain ⟨hb, hst, hsl, hm, hc, hf⟩ := h
  refine ⟨InterrUsleep.Inv.init hb, fun t ht => ?_, fun hw => ?_, fun hg => ?_⟩
  · simp [hsl] at ht
  · simp [Closing.Woken, hst] at hw
  · simp [hm, hc, hf] at hg

/-- **A step keeps the invariant.** -/
theorem Closing.Inv.step {s s' : Closing τ} {a : CloseAct τ} (hI : s.Inv) (h : CloseStep s a s') :
    s'.Inv := by
  obtain ⟨hb, hin, hset, hwok⟩ := hI
  cases h with
  | @base a b _ hs =>
    refine ⟨hb.step hs, fun t ht => ?_, fun hw => ?_, fun hg => (hwok hg).step hs _⟩
    · obtain ⟨ht', hret⟩ := sleepersAfter_eq_true ht
      obtain ⟨c, hc⟩ := Option.isSome_iff_exists.mp (hin t ht')
      exact Option.isSome_iff_exists.mpr ⟨c, hs.call? hc hret⟩
    · rcases Closing.Woken.of_step hs hw with hw' | ⟨k, rfl⟩
      · exact hs.settled (hset hw')
      · exact hb.settled_of_broadcast hs
  | @close k b hst hs =>
    refine ⟨hb.step hs, fun t ht => ?_, fun hw => ?_, fun hg => ?_⟩
    · obtain ⟨c, hc⟩ := Option.isSome_iff_exists.mp ht
      exact Option.isSome_iff_exists.mpr ⟨c, hs.call? hc (by simp)⟩
    · cases hs with
      | unblock _ => simp [Closing.Woken, State.goto] at hw
    · have hno := hwok hg
      simp [Closing.Woken, hst] at hno
  | destroyMutex ok hst | destroyCond ok hst | free hst =>
    have hw : s.Woken := by simp [Closing.Woken, hst]
    exact ⟨hb, hin, fun _ => hset hw, fun _ => by simp [Closing.Woken]⟩

theorem Closing.inv_of_reach {C : Closing τ → CloseAct τ → Prop} {s : Closing τ}
    (h : (closing τ).Reach C s) :
    s.Inv :=
  h.invariant (fun _ => Closing.Inv.init) fun _ _ _ _ _ hI hs => hI.step (.of_closing hs)

/-! ### When close is proper -/

/-- A sleeper's step uses the context only inside, and the condition only while it waits. -/
theorem Step.inside_of_uses {s s' : State τ} {a : Act τ} (h : Step s a s') (hI : Inv s) {t : τ}
    (ht : a.actor = some t) (hc : (s.pc t).call?.isSome) {p : Part} (hp : p ∈ a.uses) :
    (s.pc t).Inside ∧ (p = .cond → Stranded s t) := by
  cases h with
  | usleepLock hpc _ | usleepReacquire hpc _ _ | usleepUnlock hpc _ | again hpc _ _ | leave hpc _ =>
    cases ht
    refine ⟨by simp [hpc, Pc.Inside], ?_⟩
    rintro rfl
    simp [Act.uses] at hp
  | @usleepWait _ c _ hpc _ | @usleepRefused _ c _ hpc _ =>
    cases ht
    exact ⟨by simp [hpc, Pc.Inside], fun _ => .inl ⟨c, hpc⟩⟩
  | usleepWake hm =>
    cases ht
    have hw := (Monitor.wake_eq_some.mp hm).1
    refine ⟨?_, fun _ => .inr hw⟩
    have hb := hI.disc.waiting t hw
    revert hb
    cases s.pc t <;> simp [Pc.Blocked, Pc.Inside]
  | tick _ => cases ht
  | usleep _ _ | usleepReturn _ | unblock _ => simp [Act.uses] at hp
  | setFlag hpc | unblockLock hpc _ | broadcast hpc | unblockUnlock hpc _ =>
    cases ht
    simp [hpc, Pc.call?] at hc

/-- A thread in a call, but not inside any more, only returns. -/
theorem Step.pc_of_not_inside {s s' : State τ} {a : Act τ} (h : Step s a s') {t : τ}
    (hc : (s.pc t).call?.isSome) (hin : ¬ (s.pc t).Inside) (ha : ∀ v, a ≠ .usleepReturn t v) :
    s'.pc t = s.pc t := by
  by_cases hact : a.actor = some t
  · cases h with
    | tick _ | usleepWake _ => rfl
    | usleepReturn _ => cases hact; exact absurd rfl (ha _)
    | _ => cases hact; simp_all [Pc.call?, Pc.Inside]
  · exact h.pc_of_ne hact

/-- A thread stays inside until it unlocks the mutex for the last time. -/
theorem Step.inside {s s' : State τ} {a : Act τ} (h : Step s a s') {t : τ} (hin : (s.pc t).Inside)
    (ha : a ≠ .usleepUnlock t) : (s'.pc t).Inside := by
  by_cases hact : a.actor = some t
  · cases h with
    | tick _ | usleepWake _ => exact hin
    | usleepUnlock _ _ => cases hact; exact absurd rfl ha
    | usleepLock _ _ | again _ _ _ | leave _ _ | usleepWait _ _ | usleepRefused _ _
    | usleepReacquire _ _ _ =>
      cases hact
      simp [State.goto, Pc.Inside]
    | _ => cases hact; simp_all [Pc.Inside]
  · rw [h.pc_of_ne hact]; exact hin

/-- While the mutex or the context is gone, no sleeper will use the context again. -/
theorem left_of_reach {s : Closing τ} (h : (closing τ).Reach Awaits s) :
    s.mutexGone = true ∨ s.freed = true → s.Left := by
  refine h.invariant (I := fun s => s.mutexGone = true ∨ s.freed = true → s.Left) ?_ ?_
  · rintro s ⟨-, -, -, hm, -, hf⟩ hg
    simp [hm, hf] at hg
  · intro s a s' hr hC ih hs
    have hI := Closing.inv_of_reach hr
    cases CloseStep.of_closing hs with
    | base _ hb =>
      intro hg t ht
      obtain ⟨ht', hret⟩ := sleepersAfter_eq_true ht
      have hin := ih hg t ht'
      show ¬ Pc.Inside _
      rwa [hb.pc_of_not_inside (hI.inCall t ht') hin hret]
    | close hst _ =>
      intro hg
      have hno := hI.woken (hg.imp id .inr)
      simp [Closing.Woken, hst] at hno
    | destroyMutex ok hst =>
      cases ok with
      | true => exact fun _ => hC (.inl rfl)
      | false => exact fun hg => ih (hg.imp (by simp) id)
    | destroyCond ok hst => exact ih
    | free hst => exact fun _ => hC (.inr rfl)

/-- **Once nothing is taken from a sleeper, every step is proper.** -/
theorem proper_of_reach {s s' : Closing τ} {a : CloseAct τ} (h : (closing τ).Reach Awaits s)
    (hs : (closing τ).step s a = some s') : Proper s a := by
  have hI := Closing.inv_of_reach h
  have hstep := CloseStep.of_closing hs
  constructor
  · rintro ⟨b, t, rfl, hact, hsl, p, hp, hgone⟩
    cases hstep with
    | base _ hb =>
      obtain ⟨hin, hcond⟩ := hb.inside_of_uses hI.base hact (hI.inCall t hsl) hp
      cases p with
      | mutex => exact left_of_reach h hgone t hsl hin
      | flag => exact left_of_reach h (.inr hgone) t hsl hin
      | cond => exact (hI.settled (hI.woken (.inr hgone))).2 t (hcond rfl)
  · rintro t v rfl -
    cases hstep with
    | base _ hb =>
      obtain ⟨c, r, hpc, hout, hdl⟩ := hI.base.outcome_of_return hb
      rcases hout with ⟨rfl, -⟩ | ⟨rfl, -⟩
      · exact .inr ⟨rfl, c, by simp [hpc, Pc.call?], hdl rfl⟩
      · exact .inl rfl

/-- The mutex or the context is gone while a sleeper is inside. -/
def Overdue (s : Closing τ) : Prop :=
  (s.mutexGone = true ∨ s.freed = true) ∧ ∃ t, s.sleeper t = true ∧ (s.base.pc t).Inside

/-- The sleeper then cannot leave without using what is gone. -/
theorem Overdue.step {s s' : Closing τ} {a : CloseAct τ} (hI : s.Inv) (ho : Overdue s)
    (h : CloseStep s a s') (hu : ¬ UsesGone s a) : Overdue s' := by
  obtain ⟨hg, t, hsl, hin⟩ := ho
  cases h with
  | @base a b _ hs =>
    have hunlock : a ≠ .usleepUnlock t := by
      rintro rfl
      exact hu ⟨_, t, rfl, rfl, hsl, .mutex, by simp [Act.uses], hg⟩
    refine ⟨hg, t, ?_, hs.inside hin hunlock⟩
    cases hs with
    | @usleepReturn u _ _ hpc =>
      have htu : t ≠ u := by rintro rfl; simp [hpc, Pc.Inside] at hin
      simpa [sleepersAfter, htu] using hsl
    | _ => exact hsl
  | close hst _ =>
    have hno := hI.woken (hg.imp id .inr)
    simp [Closing.Woken, hst] at hno
  | destroyMutex ok _ => exact ⟨hg.imp (by simp +contextual) id, t, hsl, hin⟩
  | destroyCond ok _ => exact ⟨hg, t, hsl, hin⟩
  | free _ => exact ⟨.inr rfl, t, hsl, hin⟩

/-- A run of proper steps that does not end overdue has awaited every sleeper. -/
theorem awaits_or_overdue {s₀ s : Closing τ} {as : List (CloseAct τ)} (h₀ : (closing τ).init s₀)
    (h : (closing τ).Run Proper s₀ as s) : (closing τ).Run Awaits s₀ as s ∨ Overdue s := by
  induction h with
  | nil => exact .inl .nil
  | @snoc s t as a hr hC hs ih =>
    have hI := Closing.inv_of_reach ⟨s₀, _, h₀, hr⟩
    have hstep := CloseStep.of_closing hs
    rcases ih with hrun | ho
    · by_cases hA : Awaits s a
      · exact .inl (hrun.snoc hA hs)
      · obtain ⟨hact, hleft⟩ : (a = .destroyMutex true ∨ a = .free) ∧ ¬ s.Left := by
          simpa [Awaits] using hA
        obtain ⟨t, hsl, hin⟩ : ∃ t, s.sleeper t = true ∧ (s.base.pc t).Inside := by
          simpa [Closing.Left] using hleft
        rcases hact with rfl | rfl
        · cases hstep with
          | destroyMutex _ _ => exact .inr ⟨.inl (by simp), t, hsl, hin⟩
        · cases hstep with
          | free _ => exact .inr ⟨.inr rfl, t, hsl, hin⟩
    · exact .inr (ho.step hI hstep hC.1)

/-- **When closing is proper.** In every run in which close destroys the mutex and frees the context
only when no sleeper is inside any more, every step is proper; and a run in whose last
state no sleeper is inside is proper only if close did so. -/
theorem close_proper_iff (τ : Type) [DecidableEq τ] :
    (∀ (s₀ s : Closing τ) (as : List (CloseAct τ)), (closing τ).init s₀ →
      (closing τ).Run Awaits s₀ as s → (closing τ).Run Proper s₀ as s) ∧
    (∀ (s₀ s : Closing τ) (as : List (CloseAct τ)), (closing τ).init s₀ →
      (closing τ).Run Proper s₀ as s → s.Left → (closing τ).Run Awaits s₀ as s) := by
  constructor
  · intro s₀ s as h₀ h
    exact h.of_reach (fun _ _ _ hr _ hs => proper_of_reach hr hs) h₀
  · intro s₀ s as h₀ h hleft
    refine (awaits_or_overdue h₀ h).resolve_right ?_
    rintro ⟨-, t, hsl, hin⟩
    exact hleft t hsl hin

/-- One sleeper, woken by the broadcast of close, takes the mutex after close has freed it. -/
theorem sleeper_uses_freed_mutex :
    ¬ ∀ (s₀ s : Closing Bool) (as : List (CloseAct Bool)), (closing Bool).init s₀ →
      (closing Bool).Run Any s₀ as s → (closing Bool).Run Proper s₀ as s := by
  intro h
  let s₀ : Closing Bool :=
    ⟨⟨0, false, Monitor.free, fun _ => .idle⟩, .before, fun _ => false, false, false, false⟩
  let acts : List (CloseAct Bool) :=
    [.base (.usleep true 100000), .base (.usleepLock true), .base (.usleepTest true),
      .base (.usleepWait true), .close false, .base (.setFlag false), .base (.unblockLock false),
      .base (.broadcast false), .base (.unblockUnlock false), .destroyMutex true, .destroyCond true,
      .free]
  obtain ⟨s, t, hs, hgone, hst⟩ : ∃ s t, (closing Bool).exec s₀ acts = some s ∧
      (s.sleeper true = true ∧ s.Gone .mutex) ∧
      (closing Bool).step s (.base (.usleepReacquire true 0)) = some t :=
    ⟨_, _, rfl, ⟨rfl, .inl rfl⟩, rfl⟩
  have hinit : (closing Bool).init s₀ :=
    ⟨⟨rfl, rfl, fun _ => rfl⟩, rfl, fun _ => rfl, rfl, rfl, rfl⟩
  obtain ⟨u, hu, hproper, -⟩ := (h s₀ t _ hinit ((Sys.run_of_exec hs).snoc trivial hst)).last_step
  obtain rfl : s = u := (Sys.run_of_exec hs).det hu
  exact hproper.1 ⟨_, true, rfl, rfl, hgone.1, .mutex, by simp [Act.uses], hgone.2⟩

end NginxTools.InterrUsleep
