import NginxTools.Library.TransitionSystem
import NginxTools.Library.Monitor
import Mathlib.Algebra.Order.Ring.Int
import Mathlib.Tactic.Common

/-!
# The interruptible sleep

`interr_usleep.c`: a sleep that another thread can end. `interr_usleep` computes an
absolute deadline, takes the context's mutex and waits on its condition while the exit
flag is clear and the deadline has not passed; `interr_usleep_unblock` is the macro

    interr_usleep_ctx->flag_exit= 1;
    pthread_mutex_lock(&interr_usleep_ctx->interr_mutex);
    pthread_cond_broadcast(&interr_usleep_ctx->interr_signal);
    pthread_mutex_unlock(&interr_usleep_ctx->interr_mutex);

whose first line runs outside the mutex.

## The model

* `timeout` — the deadline, in the `uint64_t` arithmetic of the source.
* `Pc` — where a thread is: outside, or at a control point of one of the two functions.
  The test of the loop is a step of its own, so that the flag may be written between
  the test and the wait.
* `State` — the monotonic clock in nanoseconds, the flag, the mutex and condition
  (`Library.Monitor`), and every thread's control point. `τ` names the threads; nothing
  bounds them.
* `Act`, `step` — one atomic step of one thread, or the clock moving on. What the
  system chooses is in the action: when a wait is left, and the code it returns
  (anything, but `ETIMEDOUT` only once the deadline has passed).

The field `late` of a call records whether the flag was set when the call began. The
code does not keep it; it is there to state what a call returns.

## What is proved

`Inv` holds in every reachable state: the mutex and the wait set agree with the control
points, and a thread that waits, or is past the test and about to wait, while the flag
is set, is one that some unblocker between its write and its broadcast will still wake.
From it: no wake-up is lost (`Inv.no_lost_wakeup`); a call returns `EINTR` only with
the flag set and `0` only past its deadline; and a call that begins with the flag set
never waits (`Inv.late_call`). `Outcome` is the contract the callers of `interr_usleep`
rely on, and `outcome_of_return` says every return meets it.
-/

namespace NginxTools.InterrUsleep

open NginxTools.Library

/-! ### Error codes and time -/

/-- `EINTR`. -/
def EINTR : ℤ := 4

/-- `ETIMEDOUT`. -/
def ETIMEDOUT : ℤ := 110

/-- `struct timespec`. -/
structure Timespec where
  /-- Seconds. -/
  tvSec : ℕ
  /-- Nanoseconds. -/
  tvNsec : ℕ
  deriving DecidableEq, Repr

/-- The instant a `timespec` denotes, in nanoseconds. -/
def Timespec.ns (t : Timespec) : ℕ := t.tvSec * 1000000000 + t.tvNsec

/-- What `clock_gettime(CLOCK_MONOTONIC, ..)` stores when the clock stands at `now`. -/
def clockGettime (now : ℕ) : Timespec := ⟨now / 1000000000, now % 1000000000⟩

theorem clockGettime_ns (now : ℕ) : (clockGettime now).ns = now := by
  simp only [clockGettime, Timespec.ns]
  omega

/-- `monotime_tout`: the start and `usec` added up in nanoseconds as `uint64_t`, and split again. -/
def timeout (monotimeCurr : Timespec) (usec : UInt32) : Timespec :=
  let currNsec : UInt64 :=
    UInt64.ofNat monotimeCurr.tvSec * 1000000000 + UInt64.ofNat monotimeCurr.tvNsec
  let currNsec := currNsec + usec.toUInt64 * 1000
  ⟨(currNsec / 1000000000).toNat, (currNsec % 1000000000).toNat⟩

/-- The sum of the source, before it is split, does not wrap for starts below `2³⁴` seconds. -/
theorem toNat_currNsec {sec nsec : ℕ} (usec : UInt32) (hsec : sec < 2 ^ 34)
    (hnsec : nsec < 1000000000) :
    (UInt64.ofNat sec * 1000000000 + UInt64.ofNat nsec + usec.toUInt64 * 1000).toNat =
      sec * 1000000000 + nsec + usec.toNat * 1000 := by
  have hu : usec.toNat < 2 ^ 32 := usec.toNat_lt
  simp only [UInt64.toNat_add, UInt64.toNat_mul, UInt64.toNat_ofNat', UInt32.toNat_toUInt64,
    UInt64.reduceToNat]
  omega

/-- **The deadline is normalised and denotes exactly the start plus `usec` microseconds**. -/
theorem timeout_exact {start : Timespec} (usec : UInt32) (hsec : start.tvSec < 2 ^ 34)
    (hnsec : start.tvNsec < 1000000000) :
    (timeout start usec).tvNsec < 1000000000 ∧
      (timeout start usec).ns = start.ns + usec.toNat * 1000 := by
  have h := toNat_currNsec usec hsec hnsec
  simp only [timeout, Timespec.ns, UInt64.toNat_div, UInt64.toNat_mod, UInt64.reduceToNat, h]
  omega

/-! ### The machine -/

/-- The local variables of a call of `interr_usleep`. -/
structure Call where
  /-- The clock when the call read it. -/
  start : ℕ
  /-- The microseconds to sleep. -/
  usec : UInt32
  /-- Whether the exit flag was set when the call began. -/
  late : Bool
  deriving DecidableEq

/-- The absolute deadline of a call, `monotime_tout`. -/
def Call.tout (c : Call) : Timespec := timeout (clockGettime c.start) c.usec

/-- Where a thread is. -/
inductive Pc where
  /-- In neither function. -/
  | idle
  /-- `interr_usleep`: about to lock the mutex. -/
  | usleepLock (c : Call)
  /-- At the test of the loop, the mutex held. -/
  | usleepTest (c : Call) (retCode : ℤ)
  /-- In `pthread_cond_timedwait`, the mutex not yet released. -/
  | usleepWait (c : Call)
  /-- In `pthread_cond_timedwait`, the mutex released. -/
  | usleepBlocked (c : Call)
  /-- Past the loop, about to unlock the mutex. -/
  | usleepUnlock (c : Call) (retCode : ℤ)
  /-- About to return. -/
  | usleepReturn (c : Call) (retCode : ℤ)
  /-- `interr_usleep_unblock`: about to write the flag. -/
  | unblockSet
  /-- The flag written, about to lock the mutex. -/
  | unblockLock
  /-- The mutex held, about to broadcast. -/
  | unblockBroadcast
  /-- The broadcast made, about to unlock the mutex. -/
  | unblockUnlock
  deriving DecidableEq

/-- The control points at which a thread holds the mutex. -/
def Pc.Holds : Pc → Prop
  | .usleepTest _ _ | .usleepWait _ | .usleepUnlock _ _ | .unblockBroadcast | .unblockUnlock => True
  | _ => False

/-- The control point from which a thread may be in the wait set. -/
def Pc.Blocked : Pc → Prop
  | .usleepBlocked _ => True
  | _ => False

/-- The control points of an unblocker between its flag write and its broadcast. -/
def Pc.Waking : Pc → Prop
  | .unblockLock | .unblockBroadcast => True
  | _ => False

/-- The context and the threads that use it. -/
structure State (τ : Type) where
  /-- `CLOCK_MONOTONIC`, in nanoseconds. -/
  now : ℕ
  /-- `flag_exit` is not zero. -/
  flagExit : Bool
  /-- `interr_mutex` and `interr_signal`. -/
  monitor : Monitor τ
  /-- Where each thread is. -/
  pc : τ → Pc

variable {τ : Type} [DecidableEq τ]

/-- Thread `t` moves to another control point. -/
def State.goto (s : State τ) (t : τ) (p : Pc) : State τ := { s with pc := Function.update s.pc t p }

@[simp] theorem State.goto_now (s : State τ) (t : τ) (p : Pc) : (s.goto t p).now = s.now := rfl

@[simp] theorem State.goto_flagExit (s : State τ) (t : τ) (p : Pc) :
    (s.goto t p).flagExit = s.flagExit := rfl

@[simp] theorem State.goto_monitor (s : State τ) (t : τ) (p : Pc) :
    (s.goto t p).monitor = s.monitor := rfl

/-- The atomic steps. -/
inductive Act (τ : Type) where
  /-- The clock moves on. -/
  | tick (ns : ℕ)
  /-- A thread calls `interr_usleep`: the clock is read and the deadline computed. -/
  | usleep (t : τ) (usec : UInt32)
  /-- `pthread_mutex_lock`. -/
  | usleepLock (t : τ)
  /-- `flag_exit== 0 && ret_code!= ETIMEDOUT`. -/
  | usleepTest (t : τ)
  /-- The first half of the wait: the mutex is released and the wait set joined. -/
  | usleepWait (t : τ)
  /-- The wait returns a code without having waited. -/
  | usleepRefused (t : τ) (retCode : ℤ)
  /-- A time-out or a spurious wake-up: the thread leaves the wait set. -/
  | usleepWake (t : τ)
  /-- The second half of the wait: the mutex is taken again and a code returned. -/
  | usleepReacquire (t : τ) (retCode : ℤ)
  /-- `pthread_mutex_unlock`. -/
  | usleepUnlock (t : τ)
  /-- `interr_usleep` returns a value. -/
  | usleepReturn (t : τ) (value : ℤ)
  /-- A thread calls `interr_usleep_unblock`. -/
  | unblock (t : τ)
  /-- `flag_exit= 1`. -/
  | setFlag (t : τ)
  /-- `pthread_mutex_lock`. -/
  | unblockLock (t : τ)
  /-- `pthread_cond_broadcast`. -/
  | broadcast (t : τ)
  /-- `pthread_mutex_unlock`, and return. -/
  | unblockUnlock (t : τ)
  deriving DecidableEq

/-- The party that takes an action; the clock is nobody's. -/
def Act.actor {τ : Type} : Act τ → Option τ
  | .tick _ => none
  | .usleep t _ | .usleepLock t | .usleepTest t | .usleepWait t | .usleepRefused t _ | .usleepWake t
  | .usleepReacquire t _ | .usleepUnlock t | .usleepReturn t _ | .unblock t | .setFlag t
  | .unblockLock t | .broadcast t | .unblockUnlock t => some t

/-- `(ret_code== ETIMEDOUT)? 0: EINTR`. -/
def result (retCode : ℤ) : ℤ := if retCode = ETIMEDOUT then 0 else EINTR

/-- The codes a wait of the call `c` may return at time `now`: any, but `ETIMEDOUT`
only once the deadline has passed. -/
def Admits (c : Call) (now : ℕ) (retCode : ℤ) : Prop := retCode = ETIMEDOUT → c.tout.ns ≤ now

instance (c : Call) (now : ℕ) (retCode : ℤ) : Decidable (Admits c now retCode) :=
  inferInstanceAs (Decidable (_ → _))

/-- One step. An action is enabled only for a thread at its control point. -/
def step (s : State τ) : Act τ → Option (State τ)
  | .tick ns => some { s with now := s.now + ns }
  | .usleep t usec =>
    match s.pc t with
    | .idle => some (s.goto t (.usleepLock ⟨s.now, usec, s.flagExit⟩))
    | _ => none
  | .usleepLock t =>
    match s.pc t with
    | .usleepLock c => (s.monitor.lock t).map fun m =>
        { s with monitor := m }.goto t (.usleepTest c 0)
    | _ => none
  | .usleepTest t =>
    match s.pc t with
    | .usleepTest c retCode =>
      if s.flagExit = false ∧ retCode ≠ ETIMEDOUT then some (s.goto t (.usleepWait c))
      else some (s.goto t (.usleepUnlock c retCode))
    | _ => none
  | .usleepWait t =>
    match s.pc t with
    | .usleepWait c => (s.monitor.wait t).map fun m =>
        { s with monitor := m }.goto t (.usleepBlocked c)
    | _ => none
  | .usleepRefused t retCode =>
    match s.pc t with
    | .usleepWait c =>
        if Admits c s.now retCode then some (s.goto t (.usleepTest c retCode)) else none
    | _ => none
  | .usleepWake t => (s.monitor.wake t).map fun m => { s with monitor := m }
  | .usleepReacquire t retCode =>
    match s.pc t with
    | .usleepBlocked c =>
      if Admits c s.now retCode then
        (s.monitor.reacquire t).map fun m => { s with monitor := m }.goto t (.usleepTest c retCode)
      else none
    | _ => none
  | .usleepUnlock t =>
    match s.pc t with
    | .usleepUnlock c retCode =>
      (s.monitor.unlock t).map fun m => { s with monitor := m }.goto t (.usleepReturn c retCode)
    | _ => none
  | .usleepReturn t value =>
    match s.pc t with
    | .usleepReturn _ retCode => if value = result retCode then some (s.goto t .idle) else none
    | _ => none
  | .unblock t =>
    match s.pc t with
    | .idle => some (s.goto t .unblockSet)
    | _ => none
  | .setFlag t =>
    match s.pc t with
    | .unblockSet => some ({ s with flagExit := true }.goto t .unblockLock)
    | _ => none
  | .unblockLock t =>
    match s.pc t with
    | .unblockLock => (s.monitor.lock t).map fun m =>
        { s with monitor := m }.goto t .unblockBroadcast
    | _ => none
  | .broadcast t =>
    match s.pc t with
    | .unblockBroadcast => some ({ s with monitor := s.monitor.broadcast }.goto t .unblockUnlock)
    | _ => none
  | .unblockUnlock t =>
    match s.pc t with
    | .unblockUnlock => (s.monitor.unlock t).map fun m => { s with monitor := m }.goto t .idle
    | _ => none

/-- The protocol on one open context: the flag is clear, the mutex free, every thread outside. -/
def protocol (τ : Type) [DecidableEq τ] : Sys (State τ) (Act τ) where
  init s := s.flagExit = false ∧ s.monitor = Monitor.free ∧ ∀ t, s.pc t = .idle
  step := step

/-- **What a step can do**, one case for each action; the test of the loop has two. -/
inductive Step (s : State τ) : Act τ → State τ → Prop where
  | tick (ns : ℕ) : Step s (.tick ns) { s with now := s.now + ns }
  | usleep {t : τ} (usec : UInt32) (hpc : s.pc t = .idle) :
      Step s (.usleep t usec) (s.goto t (.usleepLock ⟨s.now, usec, s.flagExit⟩))
  | usleepLock {t : τ} {c : Call} {m : Monitor τ} (hpc : s.pc t = .usleepLock c)
      (hm : s.monitor.lock t = some m) :
      Step s (.usleepLock t) ({ s with monitor := m }.goto t (.usleepTest c 0))
  | again {t : τ} {c : Call} {retCode : ℤ} (hpc : s.pc t = .usleepTest c retCode)
      (hflag : s.flagExit = false) (hret : retCode ≠ ETIMEDOUT) :
      Step s (.usleepTest t) (s.goto t (.usleepWait c))
  | leave {t : τ} {c : Call} {retCode : ℤ} (hpc : s.pc t = .usleepTest c retCode)
      (hout : s.flagExit = true ∨ retCode = ETIMEDOUT) :
      Step s (.usleepTest t) (s.goto t (.usleepUnlock c retCode))
  | usleepWait {t : τ} {c : Call} {m : Monitor τ} (hpc : s.pc t = .usleepWait c)
      (hm : s.monitor.wait t = some m) :
      Step s (.usleepWait t) ({ s with monitor := m }.goto t (.usleepBlocked c))
  | usleepRefused {t : τ} {c : Call} {retCode : ℤ} (hpc : s.pc t = .usleepWait c)
      (hret : Admits c s.now retCode) :
      Step s (.usleepRefused t retCode) (s.goto t (.usleepTest c retCode))
  | usleepWake {t : τ} {m : Monitor τ} (hm : s.monitor.wake t = some m) :
      Step s (.usleepWake t) { s with monitor := m }
  | usleepReacquire {t : τ} {c : Call} {retCode : ℤ} {m : Monitor τ}
      (hpc : s.pc t = .usleepBlocked c)
      (hret : Admits c s.now retCode) (hm : s.monitor.reacquire t = some m) :
      Step s (.usleepReacquire t retCode) ({ s with monitor := m }.goto t (.usleepTest c retCode))
  | usleepUnlock {t : τ} {c : Call} {retCode : ℤ} {m : Monitor τ}
      (hpc : s.pc t = .usleepUnlock c retCode) (hm : s.monitor.unlock t = some m) :
      Step s (.usleepUnlock t) ({ s with monitor := m }.goto t (.usleepReturn c retCode))
  | usleepReturn {t : τ} {c : Call} {retCode : ℤ} (hpc : s.pc t = .usleepReturn c retCode) :
      Step s (.usleepReturn t (result retCode)) (s.goto t .idle)
  | unblock {t : τ} (hpc : s.pc t = .idle) : Step s (.unblock t) (s.goto t .unblockSet)
  | setFlag {t : τ} (hpc : s.pc t = .unblockSet) :
      Step s (.setFlag t) ({ s with flagExit := true }.goto t .unblockLock)
  | unblockLock {t : τ} {m : Monitor τ} (hpc : s.pc t = .unblockLock)
      (hm : s.monitor.lock t = some m) :
      Step s (.unblockLock t) ({ s with monitor := m }.goto t .unblockBroadcast)
  | broadcast {t : τ} (hpc : s.pc t = .unblockBroadcast) :
      Step s (.broadcast t) ({ s with monitor := s.monitor.broadcast }.goto t .unblockUnlock)
  | unblockUnlock {t : τ} {m : Monitor τ} (hpc : s.pc t = .unblockUnlock)
      (hm : s.monitor.unlock t = some m) :
      Step s (.unblockUnlock t) ({ s with monitor := m }.goto t .idle)

theorem Step.of_step {s s' : State τ} {a : Act τ} (h : step s a = some s') : Step s a s' := by
  cases a with
  | tick ns => cases h; exact .tick ns
  | usleepWake t => obtain ⟨m, hm, rfl⟩ := Option.map_eq_some_iff.mp h; exact .usleepWake hm
  | usleep t usec =>
    simp only [step] at h
    split at h <;> cases h
    exact .usleep _ ‹_›
  | usleepTest t =>
    simp only [step] at h
    split at h <;> try cases h
    split_ifs at h with hc <;> cases h
    · exact .again ‹_› hc.1 hc.2
    · refine .leave ‹_› ?_
      by_contra hn
      exact hc (by simpa using hn)
  | usleepRefused t retCode =>
    simp only [step] at h
    split at h <;> try cases h
    split_ifs at h with hc
    cases h
    exact .usleepRefused ‹_› hc
  | usleepReacquire t retCode =>
    simp only [step] at h
    split at h <;> try cases h
    split_ifs at h with hc
    obtain ⟨m, hm, rfl⟩ := Option.map_eq_some_iff.mp h
    exact .usleepReacquire ‹_› hc hm
  | usleepReturn t value =>
    simp only [step] at h
    split at h <;> try cases h
    split_ifs at h with hc
    cases h
    rw [hc]
    exact .usleepReturn ‹_›
  | unblock t => simp only [step] at h; split at h <;> cases h; exact .unblock ‹_›
  | setFlag t => simp only [step] at h; split at h <;> cases h; exact .setFlag ‹_›
  | broadcast t => simp only [step] at h; split at h <;> cases h; exact .broadcast ‹_›
  | usleepLock t =>
    simp only [step] at h
    split at h <;> try cases h
    obtain ⟨m, hm, rfl⟩ := Option.map_eq_some_iff.mp h
    exact .usleepLock ‹_› hm
  | usleepWait t =>
    simp only [step] at h
    split at h <;> try cases h
    obtain ⟨m, hm, rfl⟩ := Option.map_eq_some_iff.mp h
    exact .usleepWait ‹_› hm
  | usleepUnlock t =>
    simp only [step] at h
    split at h <;> try cases h
    obtain ⟨m, hm, rfl⟩ := Option.map_eq_some_iff.mp h
    exact .usleepUnlock ‹_› hm
  | unblockLock t =>
    simp only [step] at h
    split at h <;> try cases h
    obtain ⟨m, hm, rfl⟩ := Option.map_eq_some_iff.mp h
    exact .unblockLock ‹_› hm
  | unblockUnlock t =>
    simp only [step] at h
    split at h <;> try cases h
    obtain ⟨m, hm, rfl⟩ := Option.map_eq_some_iff.mp h
    exact .unblockUnlock ‹_› hm

/-- The same of a step of the system. -/
theorem Step.of_protocol {s s' : State τ} {a : Act τ} (h : (protocol τ).step s a = some s') :
    Step s a s' := .of_step h

/-- A step changes no control point but its actor's. -/
theorem Step.pc_of_ne {s s' : State τ} {a : Act τ} (h : Step s a s') {t : τ}
    (ht : a.actor ≠ some t) :
    s'.pc t = s.pc t := by
  have ht' : ∀ u, a.actor = some u → t ≠ u := by
    intro u hu htu
    exact ht (htu ▸ hu)
  cases h with
  | tick _ => rfl
  | usleepWake _ => rfl
  | _ => exact Function.update_of_ne (ht' _ rfl) _ _

/-! ### The invariant -/

/-- What the local variables of a thread say about the flag and the clock. -/
def CallOk (flag : Bool) (now : ℕ) : Pc → Prop
  | .usleepLock c => c.late = true → flag = true
  | .usleepTest c r => (c.late = true → flag = true ∧ r = 0) ∧ Admits c now r
  | .usleepWait c | .usleepBlocked c => c.late = false
  | .usleepUnlock c r | .usleepReturn c r =>
    (c.late = true → r = 0) ∧ (r ≠ ETIMEDOUT → flag = true) ∧ Admits c now r
  | .unblockLock | .unblockBroadcast | .unblockUnlock => flag = true
  | .idle | .unblockSet => True

theorem Admits.mono {c : Call} {now now' : ℕ} {r : ℤ} (h : Admits c now r) (hn : now ≤ now') :
    Admits c now' r := fun hr => Nat.le_trans (h hr) hn

/-- The flag is never cleared and the clock never goes back, so the facts stay true. -/
theorem CallOk.mono {flag flag' : Bool} {now now' : ℕ} {p : Pc} (h : CallOk flag now p)
    (hf : flag = true → flag' = true) (hn : now ≤ now') : CallOk flag' now' p := by
  cases p with
  | idle | unblockSet => trivial
  | usleepLock c => exact fun hl => hf (h hl)
  | usleepTest c r => exact ⟨fun hl => ⟨hf (h.1 hl).1, (h.1 hl).2⟩, h.2.mono hn⟩
  | usleepWait c | usleepBlocked c => exact h
  | usleepUnlock c r | usleepReturn c r => exact ⟨h.1, fun hr => hf (h.2.1 hr), h.2.2.mono hn⟩
  | unblockLock | unblockBroadcast | unblockUnlock => exact hf h

/-- Thread `t` waits on the condition, or has tested the flag and is about to. -/
def Stranded (s : State τ) (t : τ) : Prop :=
  (∃ c, s.pc t = .usleepWait c) ∨ s.monitor.waiting t = true

/-- The invariant of the protocol. -/
structure Inv (s : State τ) : Prop where
  /-- The mutex and the wait set agree with the control points. -/
  disc : s.monitor.Disciplined Pc.Holds Pc.Blocked s.pc
  /-- Every thread's local variables agree with the flag and the clock. -/
  calls : ∀ t, CallOk s.flagExit s.now (s.pc t)
  /-- With the flag set, a waiting thread has an unblocker that will still broadcast. -/
  wakes : s.flagExit = true → ∀ t, Stranded s t → ∃ u, (s.pc u).Waking

/-- The local facts of all threads after thread `t` moves. -/
theorem calls_goto {s : State τ} (h : ∀ u, CallOk s.flagExit s.now (s.pc u)) {t : τ} {q : Pc}
    {flag : Bool} (hf : s.flagExit = true → flag = true) (hq : CallOk flag s.now q) :
    ∀ u, CallOk flag s.now (Function.update s.pc t q u) :=
  (Function.forall_update_iff s.pc fun _ p => CallOk flag s.now p).mpr
    ⟨hq, fun u _ => (h u).mono hf (Nat.le_refl _)⟩

/-- Who is stranded after a step of thread `t` that does not strand it was stranded before. -/
theorem stranded_of_goto {s : State τ} {m : Monitor τ} {t : τ} {q : Pc}
    (hm : ∀ u, m.waiting u = true → s.monitor.waiting u = true) (hq : ∀ c, q ≠ .usleepWait c)
    {u : τ} (hu : Stranded ({ s with monitor := m }.goto t q) u) : Stranded s u := by
  rcases hu with ⟨c, hc⟩ | hwait
  · by_cases hut : u = t
    · subst hut; exact absurd (by simpa [State.goto] using hc) (hq c)
    · exact .inl ⟨c, by simpa [State.goto, hut] using hc⟩
  · exact .inr (hm u hwait)

/-- A step of thread `t` that strands nobody and leaves the unblockers where they are. -/
theorem wakes_goto {s : State τ} {m : Monitor τ} {t : τ} {q : Pc}
    (h : s.flagExit = true → ∀ u, Stranded s u → ∃ v, (s.pc v).Waking)
    (hm : ∀ u, m.waiting u = true → s.monitor.waiting u = true) (hq : ∀ c, q ≠ .usleepWait c)
    (hw : (s.pc t).Waking → q.Waking) (hf : s.flagExit = true) (u : τ)
    (hu : Stranded ({ s with monitor := m }.goto t q) u) :
    ∃ v, (Function.update s.pc t q v).Waking := by
  obtain ⟨v, hv⟩ := h hf u (stranded_of_goto hm hq hu)
  by_cases hvt : v = t
  · subst hvt; exact ⟨v, by simpa using hw hv⟩
  · exact ⟨v, by simpa [Function.update_of_ne hvt] using hv⟩

theorem Inv.init {s : State τ} (h : (protocol τ).init s) : Inv s := by
  obtain ⟨hf, hm, hpc⟩ := h
  refine ⟨?_, fun t => ?_, fun h => ?_⟩
  · rw [hm]; exact .free fun t => by simp [hpc, Pc.Holds]
  · rw [hpc]; trivial
  · simp [hf] at h

/-- **A step keeps the invariant.** -/
theorem Inv.step {s s' : State τ} {a : Act τ} (hI : Inv s) (h : Step s a s') : Inv s' := by
  obtain ⟨hd, hc, hw⟩ := hI
  cases h with
  | tick ns =>
    exact ⟨hd, fun t => (hc t).mono id (Nat.le_add_right _ _), hw⟩
  | @usleep t usec hpc =>
    refine ⟨hd.move (by simp [hpc, Pc.Holds]) (by simp [hpc, Pc.Blocked]), calls_goto hc id id, ?_⟩
    exact wakes_goto hw (fun _ => id) (by simp) (by simp [hpc, Pc.Waking])
  | @usleepLock t c m hpc hm =>
    have hct : CallOk s.flagExit s.now (.usleepLock c) := hpc ▸ hc t
    refine ⟨hd.lock hm trivial (by simp [hpc, Pc.Blocked]), calls_goto hc id ?_, ?_⟩
    · exact ⟨fun hl => ⟨hct hl, rfl⟩, fun h0 => by simp [ETIMEDOUT] at h0⟩
    · obtain ⟨-, rfl⟩ := Monitor.lock_eq_some.mp hm
      exact wakes_goto hw (fun _ => id) (by simp) (by simp [hpc, Pc.Waking])
  | @again t c r hpc hflag hret =>
    have hct : CallOk s.flagExit s.now (.usleepTest c r) := hpc ▸ hc t
    refine ⟨hd.move (by simp [hpc, Pc.Holds]) (by simp [hpc, Pc.Blocked]), calls_goto hc id ?_, ?_⟩
    · by_contra hl
      have := (hct.1 (by simpa [CallOk] using hl)).1
      simp [hflag] at this
    · -- the flag is clear, so nobody is stranded yet
      intro hset
      simp [hflag] at hset
  | @leave t c r hpc hout =>
    have hct : CallOk s.flagExit s.now (.usleepTest c r) := hpc ▸ hc t
    refine ⟨hd.move (by simp [hpc, Pc.Holds]) (by simp [hpc, Pc.Blocked]), calls_goto hc id ?_, ?_⟩
    · exact ⟨fun hl => (hct.1 hl).2, fun hr => hout.resolve_right hr, hct.2⟩
    · exact wakes_goto hw (fun _ => id) (by simp) (by simp [hpc, Pc.Waking])
  | @usleepWait t c m hpc hm =>
    have hct : CallOk s.flagExit s.now (.usleepWait c) := hpc ▸ hc t
    refine ⟨hd.wait hm (by simp [Pc.Holds]) trivial, calls_goto hc id hct, ?_⟩
    -- `t` was stranded before it joined the wait set, and the others as before
    intro hset u hu
    obtain ⟨v, hv⟩ := hw hset t (.inl ⟨c, hpc⟩)
    have hvt : v ≠ t := by rintro rfl; simp [hpc, Pc.Waking] at hv
    exact ⟨v, by simpa [State.goto, hvt] using hv⟩
  | @usleepRefused t c r hpc hret =>
    have hct : CallOk s.flagExit s.now (.usleepWait c) := hpc ▸ hc t
    refine ⟨hd.move (by simp [hpc, Pc.Holds]) (by simp [hpc, Pc.Blocked]), calls_goto hc id ?_, ?_⟩
    · exact ⟨fun hl => by simp [CallOk] at hct; simp [hct] at hl, hret⟩
    · exact wakes_goto hw (fun _ => id) (by simp) (by simp [hpc, Pc.Waking])
  | @usleepWake t m hm =>
    refine ⟨hd.wake hm, hc, fun hset u hu => hw hset u ?_⟩
    obtain ⟨-, rfl⟩ := Monitor.wake_eq_some.mp hm
    refine hu.imp id fun hwait => ?_
    by_cases hut : u = t
    · subst hut; simp at hwait
    · simpa [Function.update_of_ne hut] using hwait
  | @usleepReacquire t c r m hpc hret hm =>
    have hct : CallOk s.flagExit s.now (.usleepBlocked c) := hpc ▸ hc t
    refine ⟨hd.reacquire hm trivial, calls_goto hc id ?_, ?_⟩
    · exact ⟨fun hl => by simp [CallOk] at hct; simp [hct] at hl, hret⟩
    · obtain ⟨-, -, rfl⟩ := Monitor.reacquire_eq_some.mp hm
      exact wakes_goto hw (fun _ => id) (by simp) (by simp [hpc, Pc.Waking])
  | @usleepUnlock t c r m hpc hm =>
    have hct : CallOk s.flagExit s.now (.usleepUnlock c r) := hpc ▸ hc t
    refine ⟨hd.unlock hm (by simp [Pc.Holds]) (by simp [hpc, Pc.Blocked]), calls_goto hc id hct, ?_⟩
    obtain ⟨-, rfl⟩ := Monitor.unlock_eq_some.mp hm
    exact wakes_goto hw (fun _ => id) (by simp) (by simp [hpc, Pc.Waking])
  | @usleepReturn t c r hpc =>
    refine ⟨hd.move (by simp [hpc, Pc.Holds]) (by simp [hpc, Pc.Blocked]), calls_goto hc id trivial,
      ?_⟩
    exact wakes_goto hw (fun _ => id) (by simp) (by simp [hpc, Pc.Waking])
  | @unblock t hpc =>
    refine ⟨hd.move (by simp [hpc, Pc.Holds]) (by simp [hpc, Pc.Blocked]), calls_goto hc id trivial,
      ?_⟩
    exact wakes_goto hw (fun _ => id) (by simp) (by simp [hpc, Pc.Waking])
  | @setFlag t hpc =>
    refine ⟨hd.move (by simp [hpc, Pc.Holds]) (by simp [hpc, Pc.Blocked]),
      calls_goto hc (fun _ => rfl) rfl, fun _ _ _ => ⟨t, ?_⟩⟩
    simp [State.goto, Pc.Waking]
  | @unblockLock t m hpc hm =>
    have hct : CallOk s.flagExit s.now .unblockLock := hpc ▸ hc t
    refine ⟨hd.lock hm trivial (by simp [hpc, Pc.Blocked]), calls_goto hc id hct, ?_⟩
    obtain ⟨-, rfl⟩ := Monitor.lock_eq_some.mp hm
    exact wakes_goto hw (fun _ => id) (by simp) (by simp [Pc.Waking])
  | @broadcast t hpc =>
    have hct : CallOk s.flagExit s.now .unblockBroadcast := hpc ▸ hc t
    have hheld : (s.pc t).Holds := by simp [hpc, Pc.Holds]
    refine ⟨hd.broadcast (by simp [hpc, Pc.Holds]), calls_goto hc id hct, ?_⟩
    -- the broadcaster holds the mutex, so no thread is between its test and its wait
    rintro - u (⟨c, hu⟩ | hu)
    · by_cases hut : u = t
      · subst hut; simp [State.goto] at hu
      · have hu' : s.pc u = .usleepWait c := by simpa [State.goto, hut] using hu
        exact absurd (hd.unique (by simp [hu', Pc.Holds]) hheld) hut
    · simp at hu
  | @unblockUnlock t m hpc hm =>
    refine ⟨hd.unlock hm (by simp [Pc.Holds]) (by simp [hpc, Pc.Blocked]), calls_goto hc id trivial,
      ?_⟩
    obtain ⟨-, rfl⟩ := Monitor.unlock_eq_some.mp hm
    exact wakes_goto hw (fun _ => id) (by simp) (by simp [hpc, Pc.Waking])

theorem inv_of_reach {C : State τ → Act τ → Prop} {s : State τ} (h : (protocol τ).Reach C s) :
    Inv s :=
  h.invariant (fun _ => Inv.init) fun _ _ _ _ _ hI hs => hI.step (.of_protocol hs)

/-! ### What the protocol guarantees -/

omit [DecidableEq τ] in
/-- **No lost wake-up**: with the flag set and no unblocker between its write and its
broadcast, nobody is in the wait set. -/
theorem Inv.no_lost_wakeup {s : State τ} (hI : Inv s) (hf : s.flagExit = true)
    (hw : ∀ u, ¬ (s.pc u).Waking) (t : τ) : s.monitor.waiting t = false := by
  by_contra ht
  obtain ⟨u, hu⟩ := hI.wakes hf t (.inr (by simpa using ht))
  exact hw u hu

/-- The flag, once set, stays set. -/
theorem Step.flagExit {s s' : State τ} {a : Act τ} (h : Step s a s') (hf : s.flagExit = true) :
    s'.flagExit = true := by
  cases h <;> simp [hf]

theorem flagExit_of_run {C : State τ → Act τ → Prop} {s s' : State τ} {as : List (Act τ)}
    (h : (protocol τ).Run C s as s') (hf : s.flagExit = true) : s'.flagExit = true :=
  h.invariant (I := fun s => s.flagExit = true)
    (fun _ _ _ _ hf hs => (Step.of_protocol hs).flagExit hf) hf

/-- The flag is set exactly by the writes of the unblockers. -/
theorem flagExit_iff_setFlag {C : State τ → Act τ → Prop} {s₀ s : State τ} {as : List (Act τ)}
    (h₀ : s₀.flagExit = false) (h : (protocol τ).Run C s₀ as s) :
    s.flagExit = true ↔ ∃ u, .setFlag u ∈ as := by
  refine h.trace_invariant (I := fun as s => s.flagExit = true ↔
    ∃ u, Act.setFlag u ∈ as) (by simp [h₀]) ?_
  intro bs u a v _ _ ih hs
  cases Step.of_protocol hs <;> simp [ih]

/-- What a return of `interr_usleep` tells its caller, given whether the flag was set
when the call began and when it returned. -/
def Outcome (setOnEntry setOnReturn : Bool) (value : ℤ) : Prop :=
  (value = 0 ∧ setOnEntry = false) ∨ (value = EINTR ∧ setOnReturn = true)

instance (b b' : Bool) (v : ℤ) : Decidable (Outcome b b' v) := inferInstanceAs (Decidable (_ ∨ _))

theorem result_eq_zero {r : ℤ} : result r = 0 ↔ r = ETIMEDOUT := by
  unfold result EINTR
  split_ifs with h <;> simp [h]

theorem result_of_ne {r : ℤ} (h : r ≠ ETIMEDOUT) : result r = EINTR := if_neg h

/-- **Every return meets the contract**, and returns `0` only once the deadline has passed. -/
theorem Inv.outcome_of_return {s s' : State τ} (hI : Inv s) {t : τ} {v : ℤ}
    (h : Step s (.usleepReturn t v) s') :
    ∃ c r, s.pc t = .usleepReturn c r ∧ Outcome c.late s.flagExit v ∧
      (v = 0 → c.tout.ns ≤ s.now) := by
  cases h with
  | @usleepReturn _ c r hpc =>
    obtain ⟨hlate, hflag, hadm⟩ : CallOk s.flagExit s.now (.usleepReturn c r) := hpc ▸ hI.calls t
    refine ⟨c, r, hpc, ?_, fun hv => hadm (result_eq_zero.mp hv)⟩
    by_cases hr : r = ETIMEDOUT
    · refine .inl ⟨result_eq_zero.mpr hr, ?_⟩
      by_contra hl
      have h0 := hlate (by simpa using hl)
      simp [h0, ETIMEDOUT] at hr
    · exact .inr ⟨result_of_ne hr, hflag hr⟩

/-- The call of `interr_usleep` a thread is in. -/
def Pc.call? : Pc → Option Call
  | .usleepLock c | .usleepTest c _ | .usleepWait c | .usleepBlocked c | .usleepUnlock c _
  | .usleepReturn c _ => some c
  | _ => none

/-- A thread stays in its call until it returns. -/
theorem Step.call? {s s' : State τ} {a : Act τ} (h : Step s a s') {t : τ} {c : Call}
    (hc : (s.pc t).call? = some c) (ha : ∀ v, a ≠ .usleepReturn t v) :
    (s'.pc t).call? = some c := by
  cases h with
  | tick _ => exact hc
  | usleepWake _ => exact hc
  | @usleepReturn u c' r hpc =>
    have htu : t ≠ u := by rintro rfl; exact ha _ rfl
    simpa [State.goto, htu] using hc
  | @usleep u _ hpc | @usleepLock u _ _ hpc | @again u _ _ hpc | @leave u _ _ hpc
  | @usleepWait u _ _ hpc | @usleepRefused u _ _ hpc | @usleepReacquire u _ _ _ hpc
  | @usleepUnlock u _ _ _ hpc | @unblock u hpc | @setFlag u hpc | @unblockLock u _ hpc
  | @broadcast u hpc | @unblockUnlock u _ hpc =>
    by_cases htu : t = u
    · subst htu; simp_all [Pc.call?, State.goto]
    · simpa [State.goto, htu] using hc

theorem call?_of_run {C : State τ → Act τ → Prop} {s s' : State τ} {as : List (Act τ)}
    (h : (protocol τ).Run C s as s') {t : τ} {c : Call} (hc : (s.pc t).call? = some c)
    (has : ∀ v, .usleepReturn t v ∉ as) : (s'.pc t).call? = some c := by
  induction h with
  | nil => exact hc
  | snoc _ _ hs ih =>
    refine (Step.of_protocol hs).call? (ih fun v hv => has v (List.mem_append_left _ hv)) ?_
    rintro v rfl
    exact has v (List.mem_append_right _ (List.mem_singleton.mpr rfl))

/-- A call that began with the flag set never waits. -/
theorem Inv.late_call {s s' : State τ} (hI : Inv s) {t : τ} {c : Call}
    (hc : (s.pc t).call? = some c) (hlate : c.late = true) : ¬ Step s (.usleepWait t) s' := by
  intro h
  cases h with
  | @usleepWait _ c' m hpc hm =>
    have hct : CallOk s.flagExit s.now (.usleepWait c') := hpc ▸ hI.calls t
    obtain rfl : c' = c := by simpa [hpc, Pc.call?] using hc
    simp [CallOk, hlate] at hct

/-- **A call that begins once the flag is set returns `EINTR` without waiting.** -/
theorem late_call_returns {s₀ s : State τ} (h₀ : (protocol τ).init s₀) {pre mid : List (Act τ)}
    {t : τ} {usec : UInt32} {v : ℤ}
    (h : (protocol τ).Run Any s₀ (pre ++ .usleep t usec :: (mid ++ [.usleepReturn t v])) s)
    (hset : ∃ u, .setFlag u ∈ pre) (hmid : ∀ w, .usleepReturn t w ∉ mid) :
    v = EINTR ∧ .usleepWait t ∉ mid := by
  obtain ⟨s₁, s₂, hpre, -, hcall, hrest⟩ := h.split_step
  have hflag : s₁.flagExit = true := (flagExit_iff_setFlag h₀.1 hpre).mpr hset
  have hr₂ : (protocol τ).Reach Any s₂ := ⟨_, _, h₀, hpre.snoc trivial hcall⟩
  -- the call carries the set flag from its first step on
  obtain ⟨c, hc, hlate⟩ : ∃ c, (s₂.pc t).call? = some c ∧ c.late = true := by
    cases Step.of_protocol hcall with
    | usleep _ hpc => exact ⟨⟨s₁.now, usec, s₁.flagExit⟩, by simp [State.goto, Pc.call?], hflag⟩
  constructor
  · obtain ⟨s₃, hrun, -, hret⟩ := hrest.last_step
    have hc₃ := call?_of_run hrun hc hmid
    obtain ⟨c', r, hpc, hout, -⟩ :=
      (inv_of_reach (hr₂.run hrun)).outcome_of_return (.of_protocol hret)
    obtain rfl : c' = c := by simpa [hpc, Pc.call?] using hc₃
    rcases hout with ⟨-, hno⟩ | ⟨hv, -⟩
    · simp [hlate] at hno
    · exact hv
  · intro hmem
    obtain ⟨xs, ys, rfl⟩ := List.append_of_mem hmem
    rw [List.append_assoc, List.cons_append] at hrest
    obtain ⟨s₃, s₄, hrun, -, hwait, -⟩ := hrest.split_step
    have hc₃ := call?_of_run hrun hc fun w hw => hmid w (List.mem_append_left _ hw)
    exact (inv_of_reach (hr₂.run hrun)).late_call hc₃ hlate (.of_protocol hwait)

/-- **The sleep/unblock protocol**, for any number of threads and any interleaving.
No wake-up is lost; `EINTR` is returned only after some unblock has written the flag, `0`
only past the call's own deadline, which is normalised and exact; and the flag is sticky. -/
theorem interr_usleep_protocol (τ : Type) [DecidableEq τ] :
    (∀ s : State τ, (protocol τ).Reach Any s → s.flagExit = true → (∀ u, ¬ (s.pc u).Waking) →
      ∀ t, s.monitor.waiting t = false) ∧
    (∀ (s₀ s s' : State τ) (as : List (Act τ)) (t : τ) (v : ℤ), (protocol τ).init s₀ →
      (protocol τ).Run Any s₀ as s → step s (.usleepReturn t v) = some s' →
      (v = 0 ∨ v = EINTR) ∧ (v = EINTR → ∃ u, .setFlag u ∈ as) ∧
      (v = 0 → ∃ c r, s.pc t = .usleepReturn c r ∧ c.tout.ns ≤ s.now)) ∧
    (∀ c : Call, (clockGettime c.start).tvSec < 2 ^ 34 →
      c.tout.tvNsec < 1000000000 ∧ c.tout.ns = c.start + c.usec.toNat * 1000) ∧
    (∀ (s s' : State τ) (as : List (Act τ)), (protocol τ).Run Any s as s' → s.flagExit = true →
      s'.flagExit = true) ∧
    (∀ (s₀ s : State τ) (pre mid : List (Act τ)) (t : τ) (usec : UInt32) (v : ℤ),
      (protocol τ).init s₀ →
      (protocol τ).Run Any s₀ (pre ++ .usleep t usec :: (mid ++ [.usleepReturn t v])) s →
      (∃ u, .setFlag u ∈ pre) → (∀ w, .usleepReturn t w ∉ mid) →
      v = EINTR ∧ .usleepWait t ∉ mid) := by
  refine ⟨fun s hs hf hw => (inv_of_reach hs).no_lost_wakeup hf hw, ?_, ?_, ?_, ?_⟩
  · intro s₀ s s' as t v h₀ hr hs
    obtain ⟨c, r, hpc, hout, hdl⟩ := (inv_of_reach ⟨s₀, as, h₀, hr⟩).outcome_of_return (.of_step hs)
    refine ⟨hout.imp And.left And.left, fun hv => ?_, fun hv => ⟨c, r, hpc, hdl hv⟩⟩
    rcases hout with ⟨h0, -⟩ | ⟨-, hf⟩
    · simp [h0, EINTR] at hv
    · exact (flagExit_iff_setFlag h₀.1 hr).mp hf
  · intro c hsec
    have h := timeout_exact c.usec hsec (Nat.mod_lt _ (by decide))
    rwa [clockGettime_ns] at h
  · exact fun s s' as => flagExit_of_run
  · exact fun s₀ s pre mid t usec v h₀ h hset hmid => late_call_returns h₀ h hset hmid

end NginxTools.InterrUsleep
