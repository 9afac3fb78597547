import NginxTools.TestRateLimiting.WrapperClose

/-!
# Which process is signalled

The number in a pid file is converted without any check, by `cpid = strtol(strpid, NULL, 10)`:

* what is no number is converted to `0`, which to `kill` are all processes of the group;
* a number that is too large for a `long` becomes the largest there is, and of this `cpid` keeps the
  lower half, `-1`: all processes;
* other numbers are cut off as well, down to those of processes that have nothing to do with nginx;
* `strpid` ends with a zero only if the file has less than 32 bytes.

## What is proved

`scan_strpid` — what is converted is the number that the file starts with, if it ends within
`strpid`; if it does not, the conversion goes on behind it (`le_scan_strpid`). So
`signalsIntended_iff`: the process signalled is the intended one exactly if the content starts with
a positive number that ends in time and fits into a `pid_t`.
-/

namespace NginxTools.TestRateLimiting

open Library

/-- The content of the pid file, which is empty if there is none. -/
def CloseEnv.content (env : CloseEnv) (fullpathPidfile : Option (List UInt8)) : List UInt8 :=
  (fullpathPidfile.bind env.file).getD []

/-- `pid` is a process, and the number that the content starts with. -/
def IsPid (content : List UInt8) (pid : Int32) : Prop :=
  0 < pid ∧ (scan content).number = some pid.toInt

/-- What is done is meant by the content of the pid file. -/
def Intended (content : List UInt8) : CloseEvent → Prop
  -- The byte after the number is the file's too, or it is the zero that ends it in `strpid`.
  | .strtol taken => taken ≤ content.length ∧ taken < strpidSize
  | .kill pid sig => IsPid content pid ∧ sig = SIGQUIT
  | .waitpid pid _ => IsPid content pid
  | _ => True

/-- No other process is signalled or waited for, and nothing but the content decides which it is. -/
def SignalsIntended (content : List UInt8) (l : List CloseEvent) : Prop :=
  ∀ e ∈ l, Intended content e

/-- The content starts with a number that is fit for a `pid_t` and ends within `strpid`. -/
def NamesProcess (content : List UInt8) : Prop :=
  ∃ n, (scan content).number = some n ∧ 0 < n ∧ n < 2 ^ 31 ∧ (scan content).length < strpidSize

variable {env : CloseEnv} {content : List UInt8} {path : Option (List UInt8)}

/-! ### The conversion -/

theorem strpid_of_lt (env : CloseEnv) (h : content.length < strpidSize) :
    ∃ r, StartsEnding r ∧ env.strpid (content.take strpidSize) = content ++ r := by
  obtain ⟨k, hk⟩ : ∃ k, strpidSize - content.length = k + 1 :=
    ⟨strpidSize - content.length - 1, by omega⟩
  refine ⟨0 :: (List.replicate k 0 ++ env.beyond), ⟨0, _, rfl, ends_nul⟩, ?_⟩
  rw [CloseEnv.strpid, List.take_of_length_le h.le, hk, List.replicate_succ, List.append_assoc,
    List.cons_append]

theorem strpid_of_le (env : CloseEnv) (h : strpidSize ≤ content.length) :
    env.strpid (content.take strpidSize) = content.take strpidSize ++ env.beyond := by
  rw [CloseEnv.strpid, List.length_take_of_le h, Nat.sub_self, List.replicate_zero, List.append_nil]

/-- The part of a content that `strpid` holds shows the number, if this ends in it. -/
theorem scan_take (h : strpidSize ≤ content.length)
    (hlt : (scan (content.take strpidSize)).length < strpidSize) (r : List UInt8) :
    scan (content.take strpidSize ++ r) = scan content := by
  have hend : (scan (content.take strpidSize)).length < (content.take strpidSize).length := by
    rwa [List.length_take_of_le h]
  rw [scan_append (.inl hend), ← scan_append (.inl hend), List.take_append_drop]

/-- **What is converted is the number of the file**, if it ends within `strpid`. -/
theorem scan_strpid (env : CloseEnv) (h : (scan content).length < strpidSize) :
    scan (env.strpid (content.take strpidSize)) = scan content := by
  rcases Nat.lt_or_ge content.length strpidSize with hlt | hle
  · obtain ⟨r, hr, hstrpid⟩ := strpid_of_lt env hlt
    rw [hstrpid, scan_append (.inr hr)]
  · have hscan := length_scan_le (content.take strpidSize) (content.drop strpidSize)
    rw [List.take_append_drop] at hscan
    rw [strpid_of_le env hle, scan_take hle (hscan.trans_lt h)]

/-- A number that does not end there is looked for in the memory behind it. -/
theorem le_scan_strpid (env : CloseEnv) (h : strpidSize ≤ (scan content).length) :
    strpidSize ≤ (scan (env.strpid (content.take strpidSize))).length := by
  have hle : strpidSize ≤ content.length := h.trans (length_scan content)
  have htake : strpidSize ≤ (scan (content.take strpidSize)).length := by
    by_contra hlt
    have hscan := scan_take hle (Nat.lt_of_not_le hlt) []
    rw [List.append_nil] at hscan
    exact hlt (hscan ▸ h)
  rw [strpid_of_le env hle]
  exact htake.trans (length_scan_le _ _)

theorem cpid_eq {strpid : List UInt8} {n : ℤ} (h : (scan strpid).number = some n) (hpos : 0 < n)
    (hlt : n < 2 ^ 31) : (cpid strpid).toInt = n := by
  rw [cpid, toInt_strtol h (by omega) (by omega), Int64.toInt32_ofInt,
    Int32.toInt_ofInt_of_le (by omega) (by omega)]

/-! ### The process -/

theorem obtained_eq (hr : env.readable = true) :
    env.obtained path = (env.content path).take strpidSize := by
  rw [CloseEnv.obtained, CloseEnv.content]
  cases path.bind env.file with
  | none => rfl
  | some content => simp [hr]

/-- Without a content, or with one that is not read, nothing is done. -/
theorem obtained_eq_nil :
    env.obtained path = [] ↔ (env.readable = true → env.content path = []) := by
  by_cases hr : env.readable = true
  · rw [obtained_eq hr, List.take_eq_nil_iff]
    simp [hr, strpidSize]
  · rw [CloseEnv.obtained]
    cases path.bind env.file with
    | none => simp [hr]
    | some content => simp [hr]

/-- All that is waited for is the process that was signalled. -/
theorem intended_waitLoop {cpid : Int32} (h : IsPid content cpid) (waits : ℕ → WaitOutcome)
    (tries : ℕ) (status : UInt32) (left : ℕ) :
    SignalsIntended content (waitLoop waits cpid tries status left) := by
  induction left generalizing tries status with
  | zero => simp [SignalsIntended, waitLoop]
  | succ left ih =>
    have hwaited : SignalsIntended content (waited cpid (waits tries)) := by
      cases ho : waits tries <;> simp [SignalsIntended, waited, Intended, h]
    have htests : ∀ s, SignalsIntended content (tests s) := by
      intro s
      rw [tests]
      split <;> simp [SignalsIntended, Intended]
    have htold : ∀ s, SignalsIntended content (told s) := by
      intro s
      rw [told]
      split_ifs <;> simp [SignalsIntended, Intended]
    intro e he
    simp only [waitLoop, List.mem_append] at he
    rcases he with (((he | he) | he) | he) | he
    · exact hwaited e he
    · exact htests _ e he
    · exact htold _ e he
    · exact htests _ e he
    · split at he
      · exact ih _ _ e he
      · cases he

/-- **The process signalled is the intended one exactly if the content names a process**, provided
that it is read at all. -/
theorem signalsIntended_iff (env : CloseEnv) (fullpathPidfile : Option (List UInt8)) :
    SignalsIntended (env.content fullpathPidfile) (nginxWrapperClose env fullpathPidfile) ↔
      (env.readable = true → env.content fullpathPidfile ≠ [] →
        NamesProcess (env.content fullpathPidfile)) := by
  rw [nginxWrapperClose]
  split
  · next hnil =>
    rw [obtained_eq_nil] at hnil
    exact ⟨fun _ hr hne => absurd (hnil hr) hne, fun _ e he => absurd he List.not_mem_nil⟩
  · next hobtained =>
    rw [obtained_eq_nil, Classical.not_imp] at hobtained
    obtain ⟨hr, hne⟩ := hobtained
    rw [obtained_eq hr]
    generalize env.content fullpathPidfile = content at hne ⊢
    constructor
    · intro h _ _
      obtain ⟨-, htaken⟩ := h (.strtol _) List.mem_cons_self
      obtain ⟨⟨hpos, hnumber⟩, -⟩ := h (.kill _ _) (List.mem_cons_of_mem _ List.mem_cons_self)
      have hlt : (scan content).length < strpidSize := by
        by_contra hle
        exact absurd htaken (Nat.not_lt.mpr (le_scan_strpid env (Nat.le_of_not_lt hle)))
      exact ⟨_, hnumber, Int32.lt_iff_toInt_lt.mp hpos, Int32.toInt_lt _, hlt⟩
    · intro h
      obtain ⟨n, hnumber, hpos, hmax, hlt⟩ := h hr hne
      have hscan := scan_strpid env hlt
      have hcpid := cpid_eq (hscan ▸ hnumber) hpos hmax
      have hpid : IsPid content (cpid (env.strpid (content.take strpidSize))) := by
        refine ⟨Int32.lt_iff_toInt_lt.mpr ?_, by rw [hcpid, hnumber]⟩
        rw [hcpid]
        exact hpos
      intro e he
      rcases List.mem_cons.mp he with rfl | he
      · rw [hscan]
        exact ⟨length_scan content, hlt⟩
      rcases List.mem_cons.mp he with rfl | he
      · exact ⟨hpid, rfl⟩
      · exact intended_waitLoop hpid _ _ _ _ e he

/-- A pid file with twenty times the digit nine. -/
def manyNines : CloseEnv where
  file _ := some (List.replicate 20 57 ++ [10])
  readable := true
  beyond := []
  status := 0
  waits _ := .failure 10

/-- By it, every process is signalled that may be. -/
theorem signals_every_process :
    ¬SignalsIntended (manyNines.content (some [])) (nginxWrapperClose manyNines (some [])) := by
  intro h
  have hkill : .kill (-1) SIGQUIT ∈ nginxWrapperClose manyNines (some []) := by decide
  exact absurd (h _ hkill).1.1 (by decide)

end NginxTools.TestRateLimiting
