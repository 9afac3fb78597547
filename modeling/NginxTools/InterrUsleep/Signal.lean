import NginxTools.InterrUsleep.Protocol

/-!
# A signal in the sleeping thread

`main_proc_quit_signal_handler` of `test_rate_limiting.cpp` calls `interr_usleep_unblock`,
and `SIGINT` and `SIGTERM` stay unblocked in the thread that sleeps. The handler then
locks `interr_mutex` on top of whatever the interrupted thread was doing.

## The model

Every thread has two frames, its own and that of a handler nested on it; the frames are
the parties of the protocol (`Protocol`), so that the mutex has a frame for its owner. It
is not recursive: a handler that locks it while its own thread owns it waits.
`Permitted` says what nesting allows: the frame of a thread takes no step until the
handler has returned, a handler is entered (`unblock`) at any point of `interr_usleep`,
and does nothing but the steps of `interr_usleep_unblock`. The other threads go on.

## What is proved

A handler is `Stuck` when it waits for the mutex and its own thread owns it; it then
stays so for ever (`stuck_forever`). `handler_completes_iff` — a handler entered while its
thread owns the mutex reaches that state, and when every handler is entered at a
point where its thread does not own the mutex, no reachable state has a stuck handler.
-/

namespace NginxTools.InterrUsleep

open NginxTools.Library

/-- The frames of a thread. -/
inductive Frame (τ : Type) where
  /-- The thread's own. -/
  | thread (t : τ)
  /-- That of the signal handler nested on it. -/
  | handler (t : τ)
  deriving DecidableEq

variable {τ : Type} [DecidableEq τ]

/-- What the nesting of the frames allows. -/
def Permitted (s : State (Frame τ)) (a : Act (Frame τ)) : Prop :=
  match a.actor with
  | none => True
  | some (.thread t) => s.pc (.handler t) = .idle
  | some (.handler t) =>
    match a with
    | .usleep _ _ => False
    | .unblock _ => (s.pc (.thread t)).call?.isSome
    | _ => True

instance (s : State (Frame τ)) (a : Act (Frame τ)) : Decidable (Permitted s a) := by
  unfold Permitted
  split
  · infer_instance
  · infer_instance
  · split <;> infer_instance

/-- The protocol with handlers. -/
def signals (τ : Type) [DecidableEq τ] : Sys (State (Frame τ)) (Act (Frame τ)) where
  init := (protocol (Frame τ)).init
  step s a := if Permitted s a then step s a else none

theorem signals_step {s s' : State (Frame τ)} {a : Act (Frame τ)}
    (h : (signals τ).step s a = some s') :
    Permitted s a ∧ Step s a s' := by
  simp only [signals] at h
  split_ifs at h with hp
  exact ⟨hp, .of_step h⟩

/-- The handler on thread `t` waits for the mutex, and thread `t` owns it. -/
def Stuck (s : State (Frame τ)) (t : τ) : Prop :=
  s.pc (.handler t) = .unblockLock ∧ s.monitor.owner = some (.thread t)

/-- A handler is entered only at a point where its thread does not own the mutex. -/
def EnteredUnowned (s : State (Frame τ)) (a : Act (Frame τ)) : Prop :=
  ∀ t, a = .unblock (.handler t) → s.monitor.owner ≠ some (.thread t)

/-! ### Who can change what -/

/-- A step makes nobody the owner but its actor. -/
theorem Step.owner_of_ne {s s' : State τ} {a : Act τ} (h : Step s a s') {t : τ}
    (ht : a.actor ≠ some t) (hown : s'.monitor.owner = some t) : s.monitor.owner = some t := by
  have ht' : ∀ u, a.actor = some u → some u ≠ some t := by
    intro u hu hut
    exact ht (hut ▸ hu)
  cases h with
  | usleepLock _ hm | unblockLock _ hm =>
    obtain ⟨-, rfl⟩ := Monitor.lock_eq_some.mp hm
    exact absurd hown (ht' _ rfl)
  | usleepReacquire _ _ hm =>
    obtain ⟨-, -, rfl⟩ := Monitor.reacquire_eq_some.mp hm
    exact absurd hown (ht' _ rfl)
  | usleepWait _ hm => obtain ⟨-, rfl⟩ := Monitor.wait_eq_some.mp hm; simp at hown
  | usleepUnlock _ hm | unblockUnlock _ hm =>
      obtain ⟨-, rfl⟩ := Monitor.unlock_eq_some.mp hm; simp at hown
  | usleepWake hm => obtain ⟨-, rfl⟩ := Monitor.wake_eq_some.mp hm; exact hown
  | _ => exact hown

/-- The owner of the mutex keeps it through the steps of others. -/
theorem Step.owner_kept {s s' : State τ} {a : Act τ} (h : Step s a s') {t : τ}
    (ht : a.actor ≠ some t) (hown : s.monitor.owner = some t) : s'.monitor.owner = some t := by
  have ht' : ∀ u, a.actor = some u → some t ≠ some u := by
    intro u hu htu
    exact ht (htu ▸ hu)
  cases h with
  | usleepLock _ hm | unblockLock _ hm => simp [Monitor.lock_eq_some, hown] at hm
  | usleepReacquire _ _ hm => simp [Monitor.reacquire_eq_some, hown] at hm
  | usleepWait _ hm => exact absurd (hown.symm.trans (Monitor.wait_eq_some.mp hm).1) (ht' _ rfl)
  | usleepUnlock _ hm | unblockUnlock _ hm =>
    exact absurd (hown.symm.trans (Monitor.unlock_eq_some.mp hm).1) (ht' _ rfl)
  | usleepWake hm => obtain ⟨-, rfl⟩ := Monitor.wake_eq_some.mp hm; exact hown
  | _ => exact hown

/-! ### When the handler completes -/

/-- An active handler's thread does not own the mutex, when all were entered unowned. -/
theorem thread_unowned {s : State (Frame τ)} (h : (signals τ).Reach EnteredUnowned s) (t : τ)
    (ht : s.pc (.handler t) ≠ .idle) : s.monitor.owner ≠ some (.thread t) := by
  revert t
  refine h.invariant
    (I := fun s => ∀ t, s.pc (.handler t) ≠ .idle → s.monitor.owner ≠ some (Frame.thread t)) ?_ ?_
  · rintro s ⟨-, hm, -⟩ t -
    simp [hm, Monitor.free]
  · intro s a s' _ hC ih hs t ht hown
    obtain ⟨hperm, hstep⟩ := signals_step hs
    by_cases hact : a.actor = some (.thread t)
    · -- the thread itself moved, so its handler is not active
      have hidle : s.pc (.handler t) = .idle := by simpa [Permitted, hact] using hperm
      exact ht ((hstep.pc_of_ne (by simp [hact])).trans hidle)
    · have hown₀ := hstep.owner_of_ne hact hown
      by_cases hidle : s.pc (.handler t) = .idle
      · -- the handler was entered by this step
        have hact' : a.actor = some (.handler t) := by
          by_contra hne
          exact ht ((hstep.pc_of_ne hne).trans hidle)
        cases hstep with
        | unblock hpc => cases hact'; exact hC t rfl hown₀
        | usleep _ hpc => cases hact'; simp [Permitted, Act.actor] at hperm
        | tick _ => cases hact'
        | usleepWake hm =>
          cases hact'
          exact ht hidle
        | _ => cases hact'; simp_all
      · exact ih t hidle hown₀

/-- A stuck handler stays stuck, whatever the other threads do. -/
theorem stuck_forever {C : State (Frame τ) → Act (Frame τ) → Prop} {s s' : State (Frame τ)}
    {as : List (Act (Frame τ))} {t : τ} (hs : Stuck s t) (h : (signals τ).Run C s as s') :
    Stuck s' t := by
  refine h.invariant (I := fun s => Stuck s t) ?_ hs
  rintro s a s' - ⟨hpc, hown⟩ hst
  obtain ⟨hperm, hstep⟩ := signals_step hst
  have hthread : a.actor ≠ some (.thread t) := by
    intro hact
    simp [Permitted, hact, hpc] at hperm
  refine ⟨?_, hstep.owner_kept hthread hown⟩
  by_cases hact : a.actor = some (.handler t)
  · -- the only step a waiting handler could take is to lock, and the mutex is taken
    cases hstep with
    | unblockLock _ hm => simp [Monitor.lock_eq_some, hown] at hm
    | usleepWake _ => exact hpc
    | tick _ => exact hpc
    | _ => cases hact; simp_all
  · exact (hstep.pc_of_ne hact).trans hpc

/-- A handler entered while its thread owns the mutex gets stuck at its second step. -/
theorem stuck_of_owned {s : State (Frame τ)} {t : τ} (hcall : (s.pc (.thread t)).call?.isSome)
    (hidle : s.pc (.handler t) = .idle) (hown : s.monitor.owner = some (.thread t)) :
    ∃ s', (signals τ).Run Any s [.unblock (.handler t), .setFlag (.handler t)] s' ∧ Stuck s' t := by
  refine ⟨{ s.goto (.handler t) .unblockSet with flagExit := true }.goto (.handler t) .unblockLock,
    ?_, ?_⟩
  · refine Sys.run_of_exec ?_
    simp [Sys.exec, Sys.execIf, signals, Permitted, Act.actor, hcall, step, hidle, State.goto]
  · exact ⟨by simp [State.goto], hown⟩

/-- **When the handler completes**: a handler entered while its thread owns the mutex can
get stuck at once, and then is for ever; in a run in which every handler is entered while its
thread does not own the mutex, no handler is ever stuck. -/
theorem handler_completes_iff (τ : Type) [DecidableEq τ] :
    (∀ s : State (Frame τ), (signals τ).Reach EnteredUnowned s → ∀ t, ¬ Stuck s t) ∧
    (∀ (s : State (Frame τ)) (t : τ), (signals τ).Reach Any s → (s.pc (.thread t)).call?.isSome →
      s.pc (.handler t) = .idle → s.monitor.owner = some (.thread t) →
      ∃ s', (signals τ).Run Any s [.unblock (.handler t), .setFlag (.handler t)] s' ∧ Stuck s' t ∧
        ∀ s'' as, (signals τ).Run Any s' as s'' → Stuck s'' t) := by
  constructor
  · intro s hs t ⟨hpc, hown⟩
    exact thread_unowned hs t (by simp [hpc]) hown
  · intro s t _ hcall hidle hown
    obtain ⟨s', hrun, hst⟩ := stuck_of_owned hcall hidle hown
    exact ⟨s', hrun, hst, fun s'' as h => stuck_forever hst h⟩

/-- A signal right after the sleeper has locked the mutex: the handler is stuck. -/
theorem handler_stuck_after_lock :
    ¬ ∀ s : State (Frame Unit), (signals Unit).Reach Any s → ∀ t, ¬ Stuck s t := by
  intro h
  let s₀ : State (Frame Unit) := ⟨0, false, Monitor.free, fun _ => .idle⟩
  let acts : List (Act (Frame Unit)) :=
    [.usleep (.thread ()) 100000, .usleepLock (.thread ()), .unblock (.handler ()),
      .setFlag (.handler ())]
  obtain ⟨s, hs, hst⟩ : ∃ s, (signals Unit).exec s₀ acts = some s ∧ Stuck s () := ⟨_, rfl, rfl, rfl⟩
  exact h s ⟨s₀, acts, ⟨rfl, rfl, fun _ => rfl⟩, Sys.run_of_exec hs⟩ () hst

end NginxTools.InterrUsleep
