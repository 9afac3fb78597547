import Mathlib.Algebra.Order.Ring.Nat
import Mathlib.Tactic.Common

/-!
# What a process is waited for to tell

`waitpid` stores in an `int` what has become of a process, and macros read it: glibc keeps the
signal that ended the process in the lowest seven bits, `0` if it has exited, and `0x7f` if it has
not ended but stopped or gone on.

`WaitStatus.encode` is what is stored, and `wifexited_encode`, `wifsignaled_encode` that the macros
tell it apart.
-/

namespace NginxTools.Library

/-- What has become of a process. -/
inductive WaitStatus where
  | exited (code : UInt8)
  /-- Ended by one of the 64 signals; `core` if it has left a core file. -/
  | signaled (sig : Fin 64) (core : Bool)
  | stopped (sig : UInt8)
  | continued
deriving DecidableEq

namespace WaitStatus

/-- What `waitpid` stores. -/
def encode : WaitStatus → UInt32
  | exited code => code.toUInt32 <<< 8
  | signaled sig core => (.ofNat sig + 1) ||| if core then 0x80 else 0
  | stopped sig => sig.toUInt32 <<< 8 ||| 0x7f
  | continued => 0xffff

/-- The process has ended. -/
def ended : WaitStatus → Bool
  | exited _ | signaled _ _ => true
  | stopped _ | continued => false

end WaitStatus

/-- `WTERMSIG`. -/
def wtermsig (status : UInt32) : UInt32 := status &&& 0x7f

/-- `WEXITSTATUS`. -/
def wexitstatus (status : UInt32) : UInt32 := (status &&& 0xff00) >>> 8

/-- `WIFEXITED`. -/
def wifexited (status : UInt32) : Bool := wtermsig status = 0

/-- `WIFSIGNALED`: `0x7f` and one more is negative as a `signed char`. -/
def wifsignaled (status : UInt32) : Bool := (0 : Int8) < (wtermsig status + 1).toUInt8.toInt8 >>> 1

/-! ### What the macros tell -/

/-- A fact about bytes is one about 256 numbers. -/
theorem forall_uint8 {p : UInt8 → Prop} (h : ∀ n : Fin 256, p (.ofNat n)) (b : UInt8) : p b := by
  simpa using h b.toFin

open WaitStatus

@[simp]
theorem wifexited_exited (code : UInt8) : wifexited (encode (exited code)) = true := by
  revert code
  exact forall_uint8 (by decide +kernel)

@[simp]
theorem wexitstatus_exited (code : UInt8) : wexitstatus (encode (exited code)) = code.toUInt32 := by
  revert code
  exact forall_uint8 (by decide +kernel)

@[simp]
theorem wtermsig_signaled (sig : Fin 64) (core : Bool) :
    wtermsig (encode (signaled sig core)) = .ofNat sig + 1 := by
  revert sig core
  decide +kernel

@[simp]
theorem wtermsig_stopped (sig : UInt8) : wtermsig (encode (stopped sig)) = 0x7f := by
  revert sig
  exact forall_uint8 (by decide +kernel)

@[simp]
theorem wifexited_signaled (sig : Fin 64) (core : Bool) :
    wifexited (encode (signaled sig core)) = false := by
  revert sig core
  decide +kernel

@[simp]
theorem wifsignaled_signaled (sig : Fin 64) (core : Bool) :
    wifsignaled (encode (signaled sig core)) = true := by
  revert sig core
  decide +kernel

/-- A process that has not ended has neither exited nor been killed. -/
theorem not_ended_encode {w : WaitStatus} (h : w.ended = false) :
    wifexited w.encode = false ∧ wifsignaled w.encode = false := by
  cases w with
  | exited _ => cases h
  | signaled _ _ => cases h
  | stopped sig =>
      exact ⟨by rw [wifexited, wtermsig_stopped]; decide,
        by rw [wifsignaled, wtermsig_stopped]; decide⟩
  | continued => decide

end NginxTools.Library
