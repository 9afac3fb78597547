import NginxTools.Library.Strtol
import NginxTools.Library.WaitStatus

/-!
# Waiting for an nginx to end

`nginx_wrapper_close` has the number of the process from a pid file, signals the process, and waits
for it, at most ten times:

    do {
        if((waitpid(cpid, &status, WUNTRACED| WCONTINUED))== -1)
            perror("\nFailure while executing 'waitpid()'\n");
        if(WIFEXITED(status))
        ...
    } while(!WIFEXITED(status) && !WIFSIGNALED(status) && tries < maxTries);

`status` has no value to begin with, and what is tested after a failed `waitpid` is whatever it was.

## The model

`nginxWrapperClose` is what the function does, as the list of its steps that matter here, for any
outcome of its system calls: `CloseEnv` has these, and the bits that `status` and the memory after
`strpid` happen to have. The file descriptor and what the messages say otherwise are left out.

## What is proved

`decidesOnReal_iff` — a status that was stored by `waitpid` is what decides, whatever the waits
yield, exactly if the first of them is successful. After it, `waitLoop_decides` holds of every
further wait.
-/

namespace NginxTools.TestRateLimiting

open Library

/-- How a `waitpid` ends: with -1 and an `errno`, or with a status. -/
inductive WaitOutcome where
  | failure (errno : Int32)
  | success (status : WaitStatus)
deriving DecidableEq

/-- What `status` is afterwards. -/
def WaitOutcome.stored (status : UInt32) : WaitOutcome → UInt32
  | .failure _ => status
  | .success w => w.encode

/-- What `nginx_wrapper_close` does. -/
inductive CloseEvent where
  /-- The conversion of `strpid`, and how many bytes it takes for the number; it looks at one
  more. -/
  | strtol (taken : ℕ)
  | kill (pid sig : Int32)
  | waitpid (pid : Int32) (outcome : WaitOutcome)
  | perror (errno : Int32)
  /-- `WIFEXITED`, or `WIFSIGNALED`, of a status. -/
  | test (status : UInt32)
  /-- "nginx exited with status=" -/
  | exited (status : UInt32)
  /-- "nginx killed by signal" -/
  | killed (sig : UInt32)
  | usleep (usec : ℕ)
deriving DecidableEq

/-- What the function finds: all that it does not determine itself. -/
structure CloseEnv where
  /-- The file at a path, where `open` succeeds. -/
  file : List UInt8 → Option (List UInt8)
  /-- `read` does not fail. -/
  readable : Bool
  /-- The memory after `strpid`. -/
  beyond : List UInt8
  /-- The value of `status` before it is given one. -/
  status : UInt32
  /-- The outcomes of `waitpid`, in turn. -/
  waits : ℕ → WaitOutcome

def maxTries : ℕ := 10

/-- `sizeof(strpid)`. -/
def strpidSize : ℕ := 32

def SIGQUIT : Int32 := 3

/-! ### The loop -/

/-- `WIFEXITED(status)`, and `WIFSIGNALED(status)` if it is not. -/
def tests (status : UInt32) : List CloseEvent :=
  if wifexited status then [.test status] else [.test status, .test status]

/-- What is told of a status. -/
def told (status : UInt32) : List CloseEvent :=
  if wifexited status then [.exited (wexitstatus status)]
  else if wifsignaled status then [.killed (wtermsig status)]
  else [.usleep (1 * 1000 * 1000)]

/-- A call of `waitpid`. -/
def waited (cpid : Int32) (outcome : WaitOutcome) : List CloseEvent :=
  .waitpid cpid outcome :: match outcome with
    | .failure errno => [.perror errno]
    | .success _ => []

/-- The loop, with `left` of the waits left. -/
def waitLoop (waits : ℕ → WaitOutcome) (cpid : Int32) (tries : ℕ) (status : UInt32) :
    (left : ℕ) → List CloseEvent
  | 0 => []
  | left + 1 =>
    let status := (waits tries).stored status
    waited cpid (waits tries) ++ tests status ++ told status ++ tests status ++
      if !wifexited status && !wifsignaled status then
        waitLoop waits cpid (tries + 1) status left
      else []

/-! ### The function -/

/-- The bytes that are obtained from the file; the function returns without any. -/
def CloseEnv.obtained (env : CloseEnv) (fullpathPidfile : Option (List UInt8)) : List UInt8 :=
  match fullpathPidfile.bind env.file with
  | none => []
  | some content => if env.readable then content.take strpidSize else []

/-- `strpid`, and the memory after it. -/
def CloseEnv.strpid (env : CloseEnv) (obtained : List UInt8) : List UInt8 :=
  obtained ++ List.replicate (strpidSize - obtained.length) 0 ++ env.beyond

/-- `cpid`: the number is cut off to 32 bits. -/
def cpid (strpid : List UInt8) : Int32 := (Library.strtol strpid).toInt32

def nginxWrapperClose (env : CloseEnv) (fullpathPidfile : Option (List UInt8)) : List CloseEvent :=
  let obtained := env.obtained fullpathPidfile
  if obtained = [] then []
  else
    let strpid := env.strpid obtained
    let cpid := cpid strpid
    .strtol (scan strpid).length :: .kill cpid SIGQUIT ::
      waitLoop env.waits cpid 0 env.status maxTries

/-! ### What decides -/

/-- A wait. -/
def CloseEvent.isWait : CloseEvent → Bool
  | waitpid _ _ => true
  | _ => false

/-- A report of the end of nginx. -/
def CloseEvent.isReport : CloseEvent → Bool
  | exited _ | killed _ => true
  | _ => false

/-- What has been stored after a wait. -/
def WaitOutcome.seen (seen : List UInt32) : WaitOutcome → List UInt32
  | failure _ => seen
  | success w => w.encode :: seen

/-- A status is only tested if it has been stored before: by one of `seen`, or by a wait of these
events. -/
def Tested : (seen : List UInt32) → List CloseEvent → Prop
  | _, [] => True
  | seen, .waitpid _ (.success w) :: l => Tested (w.encode :: seen) l
  | seen, .test status :: l => status ∈ seen ∧ Tested seen l
  | seen, _ :: l => Tested seen l

/-- A wait of these events has returned `w`. -/
def Returned (l : List CloseEvent) (w : WaitStatus) : Prop :=
  ∃ pid, CloseEvent.waitpid pid (.success w) ∈ l

/-- What is decided is decided on statuses that were returned: by the waits of these events, of
which there are `left` at most, or by those before, which have stored `seen`. -/
structure DecidesOnReal (seen : List UInt32) (left : ℕ) (l : List CloseEvent) : Prop where
  waits : l.countP CloseEvent.isWait ≤ left
  tested : Tested seen l
  once : l.countP CloseEvent.isReport ≤ 1
  exited : ∀ status, .exited status ∈ l → ∃ code, Returned l (.exited code) ∧ status = code.toUInt32
  killed : ∀ n, .killed n ∈ l → ∃ sig core, Returned l (.signaled sig core) ∧ n = .ofNat sig + 1
  /-- Only for a process that has ended are not all of the waits made. -/
  early : l ≠ [] → l.countP CloseEvent.isWait < left → ∃ w, Returned l w ∧ w.ended = true

variable {seen : List UInt32} {left : ℕ} {l : List CloseEvent} {w : WaitStatus}

@[simp]
theorem returned_cons {e : CloseEvent} :
    Returned (e :: l) w ↔ (∃ pid, e = .waitpid pid (.success w)) ∨ Returned l w := by
  simp only [Returned, List.mem_cons, exists_or, eq_comm]

theorem Returned.cons (h : Returned l w) (e : CloseEvent) : Returned (e :: l) w :=
  returned_cons.mpr (.inr h)

/-! ### What a step adds -/

theorem decidesOnReal_nil : DecidesOnReal seen left [] :=
  ⟨Nat.zero_le _, trivial, Nat.zero_le _, by simp, by simp, by simp⟩

/-- A step that is neither a wait nor a report: what it tests, if anything, has been stored. -/
theorem DecidesOnReal.cons {e : CloseEvent} (h : DecidesOnReal seen left l) (hl : l = [] → left = 0)
    (hwait : e.isWait = false) (hreport : e.isReport = false) (htested : Tested seen (e :: l)) :
    DecidesOnReal seen left (e :: l) where
  waits := by simpa [List.countP_cons, hwait] using h.waits
  tested := htested
  once := by simpa [List.countP_cons, hreport] using h.once
  exited status hs := by
    rcases List.mem_cons.mp hs with rfl | hs
    · cases hreport
    · obtain ⟨code, hcode, he⟩ := h.exited status hs
      exact ⟨code, hcode.cons e, he⟩
  killed n hn := by
    rcases List.mem_cons.mp hn with rfl | hn
    · cases hreport
    · obtain ⟨sig, core, hsig, he⟩ := h.killed n hn
      exact ⟨sig, core, hsig.cons e, he⟩
  early _ hlt := by
    have hlt' : l.countP CloseEvent.isWait < left := by simpa [List.countP_cons, hwait] using hlt
    have hne : l ≠ [] := by
      intro hnil
      rw [hl hnil] at hlt'
      exact Nat.not_lt_zero _ hlt'
    obtain ⟨w, hw, hended⟩ := h.early hne hlt'
    exact ⟨w, hw.cons e, hended⟩

/-- A status that has been stored is tested. -/
theorem DecidesOnReal.test {status : UInt32} (h : DecidesOnReal seen left l)
    (hl : l = [] → left = 0) (hs : status ∈ seen) : DecidesOnReal seen left (.test status :: l) :=
  h.cons hl rfl rfl ⟨hs, h.tested⟩

/-- A wait, which may have stored a status. -/
theorem DecidesOnReal.wait {outcome : WaitOutcome} (pid : Int32)
    (h : DecidesOnReal (outcome.seen seen) left l) (hl : l ≠ []) :
    DecidesOnReal seen (left + 1) (.waitpid pid outcome :: l) where
  waits := by simpa [List.countP_cons, CloseEvent.isWait] using h.waits
  tested := by
    cases outcome with
    | failure errno => exact h.tested
    | success w => exact h.tested
  once := by simpa [List.countP_cons, CloseEvent.isReport] using h.once
  exited status hs := by
    obtain ⟨code, hcode, he⟩ := h.exited status (by simpa using hs)
    exact ⟨code, hcode.cons _, he⟩
  killed n hn := by
    obtain ⟨sig, core, hsig, he⟩ := h.killed n (by simpa using hn)
    exact ⟨sig, core, hsig.cons _, he⟩
  early _ hlt := by
    obtain ⟨w, hw, hended⟩ := h.early hl (by simpa [List.countP_cons, CloseEvent.isWait] using hlt)
    exact ⟨w, hw.cons _, hended⟩

/-! ### What a round adds -/

/-- The last round, of a process that has exited. -/
theorem decides_exited (cpid : Int32) (code : UInt8) (tries : ℕ) (status : UInt32)
    {waits : ℕ → WaitOutcome} (h : waits tries = .success (.exited code)) :
    DecidesOnReal seen (left + 1) (waitLoop waits cpid tries status (left + 1)) := by
  have hl : waitLoop waits cpid tries status (left + 1) =
      let s := (WaitStatus.exited code).encode
      [.waitpid cpid (.success (.exited code)), .test s, .exited code.toUInt32, .test s] := by
    simp [waitLoop, h, waited, WaitOutcome.stored, tests, told]
  rw [hl]
  refine ⟨?_, ?_, ?_, ?_, ?_, ?_⟩
  · simp [List.countP_cons, CloseEvent.isWait]
  · simp [Tested]
  · simp [List.countP_cons, CloseEvent.isReport]
  · rintro status hs
    exact ⟨code, by simp, by simpa using hs⟩
  · simp
  · rintro - -
    exact ⟨.exited code, by simp, rfl⟩

/-- The last round, of a process that was killed. -/
theorem decides_signaled (cpid : Int32) (sig : Fin 64) (core : Bool) (tries : ℕ) (status : UInt32)
    {waits : ℕ → WaitOutcome} (h : waits tries = .success (.signaled sig core)) :
    DecidesOnReal seen (left + 1) (waitLoop waits cpid tries status (left + 1)) := by
  have hl : waitLoop waits cpid tries status (left + 1) =
      let s := (WaitStatus.signaled sig core).encode
      [.waitpid cpid (.success (.signaled sig core)), .test s, .test s, .killed (.ofNat sig + 1),
        .test s, .test s] := by
    simp [waitLoop, h, waited, WaitOutcome.stored, tests, told]
  rw [hl]
  refine ⟨?_, ?_, ?_, ?_, ?_, ?_⟩
  · simp [List.countP_cons, CloseEvent.isWait]
  · simp [Tested]
  · simp [List.countP_cons, CloseEvent.isReport]
  · simp
  · rintro n hn
    exact ⟨sig, core, by simp, by simpa using hn⟩
  · rintro - -
    exact ⟨.signaled sig core, by simp, rfl⟩

/-- What a round does that is not the last one. -/
theorem waitLoop_goesOn (cpid : Int32) (tries : ℕ) (status : UInt32) {waits : ℕ → WaitOutcome}
    (hw : w.ended = false) (h : (waits tries).stored status = w.encode) (left : ℕ) :
    waitLoop waits cpid tries status (left + 1) = waited cpid (waits tries) ++
      .test w.encode :: .test w.encode :: .usleep (1 * 1000 * 1000) ::
        .test w.encode :: .test w.encode :: waitLoop waits cpid (tries + 1) w.encode left := by
  obtain ⟨hexited, hsignaled⟩ := not_ended_encode hw
  simp [waitLoop, h, tests, told, hexited, hsignaled]

/-- A round that is not the last one. -/
theorem DecidesOnReal.goesOn {outcome : WaitOutcome} {status : UInt32} {usec : ℕ} (cpid : Int32)
    (h : DecidesOnReal (outcome.seen seen) left l) (hl : l = [] → left = 0)
    (hs : status ∈ outcome.seen seen) :
    DecidesOnReal seen (left + 1)
      (waited cpid outcome ++
        .test status :: .test status :: .usleep usec :: .test status :: .test status :: l) := by
  have hlast := (h.test hl hs).test (by simp) hs
  have hslept := hlast.cons (e := .usleep usec) (by simp) rfl rfl hlast.tested
  have htested := (hslept.test (by simp) hs).test (by simp) hs
  cases outcome with
  | success w => exact htested.wait cpid (by simp)
  | failure errno =>
    have hprinted := htested.cons (e := .perror errno) (by simp) rfl rfl htested.tested
    exact hprinted.wait cpid (by simp)

theorem waitLoop_ne_nil (waits : ℕ → WaitOutcome) (cpid : Int32) (tries : ℕ) (status : UInt32)
    (h : waitLoop waits cpid tries status left = []) : left = 0 := by
  cases left with
  | zero => rfl
  | succ left => simp [waitLoop, waited] at h

/-- A round whose wait is successful, or follows one that was. -/
theorem decides_round {waits : ℕ → WaitOutcome} {cpid : Int32} {tries : ℕ} {status : UInt32}
    (h : (∃ w, waits tries = .success w) ∨ ∃ w : WaitStatus, w.ended = false ∧ w.encode = status ∧
      status ∈ seen)
    (ih : ∀ (w : WaitStatus) seen, w.ended = false → w.encode ∈ seen →
      DecidesOnReal seen left (waitLoop waits cpid (tries + 1) w.encode left)) :
    DecidesOnReal seen (left + 1) (waitLoop waits cpid tries status (left + 1)) := by
  -- The wait leaves a status that is none of an end, and it is one that was returned.
  have hgo : ∀ w : WaitStatus, w.ended = false → (waits tries).stored status = w.encode →
      w.encode ∈ (waits tries).seen seen →
        DecidesOnReal seen (left + 1) (waitLoop waits cpid tries status (left + 1)) := by
    intro w hw hstored hseen
    rw [waitLoop_goesOn cpid tries status hw hstored]
    exact (ih w _ hw hseen).goesOn cpid (waitLoop_ne_nil _ _ _ _) hseen
  cases ho : waits tries with
  | success w =>
    cases w with
    | exited code => exact decides_exited cpid code tries status ho
    | signaled sig core => exact decides_signaled cpid sig core tries status ho
    | stopped sig => exact hgo (.stopped sig) rfl (by rw [ho]; rfl) (by simp [ho, WaitOutcome.seen])
    | continued => exact hgo .continued rfl (by rw [ho]; rfl) (by simp [ho, WaitOutcome.seen])
  | failure errno =>
    obtain ⟨w, hw⟩ | ⟨w, hw, he, hseen⟩ := h
    · cases ho.symm.trans hw
    · exact hgo w hw (by rw [ho, he]; rfl) (by rwa [ho, he])

/-! ### The loop, and the function -/

/-- **After a successful wait** every further round is decided on what was returned. -/
theorem waitLoop_decides (waits : ℕ → WaitOutcome) (cpid : Int32) (hw : w.ended = false)
    (hseen : w.encode ∈ seen) (tries left : ℕ) :
    DecidesOnReal seen left (waitLoop waits cpid tries w.encode left) := by
  induction left generalizing w seen tries with
  | zero => exact decidesOnReal_nil
  | succ left ih =>
    exact decides_round (.inr ⟨w, hw, rfl, hseen⟩) fun w seen hw hseen => ih hw hseen (tries + 1)

/-- **What decides is real exactly if the first wait is successful**, once the process has been
signalled. -/
theorem decidesOnReal_iff (env : CloseEnv) (fullpathPidfile : Option (List UInt8)) :
    DecidesOnReal [] maxTries (nginxWrapperClose env fullpathPidfile) ↔
      (env.obtained fullpathPidfile ≠ [] → ∃ w, env.waits 0 = .success w) := by
  rw [nginxWrapperClose]
  split
  · next hnil => simp [hnil, decidesOnReal_nil]
  · next hobtained =>
    simp only [ne_eq, hobtained, not_false_eq_true, true_implies]
    generalize cpid (env.strpid (env.obtained fullpathPidfile)) = pid
    have hmax : maxTries = 9 + 1 := rfl
    rw [hmax]
    constructor
    · intro h
      cases ho : env.waits 0 with
      | success w => exact ⟨w, rfl⟩
      | failure errno =>
        -- What is tested first has not been stored by anything.
        have htested : Tested [] (waitLoop env.waits pid 0 env.status (9 + 1)) := h.tested
        rw [waitLoop, ho, waited, tests] at htested
        split at htested <;> simp [Tested] at htested
    · intro h
      have hloop : DecidesOnReal [] (9 + 1) (waitLoop env.waits pid 0 env.status (9 + 1)) :=
        decides_round (.inl h) fun w seen hw hseen => waitLoop_decides env.waits pid hw hseen _ _
      have hkill :=
        hloop.cons (e := .kill pid SIGQUIT) (waitLoop_ne_nil _ _ _ _) rfl rfl hloop.tested
      exact hkill.cons (by simp) rfl rfl hkill.tested

/-- The process of the pid file is no child, which `waitpid` tells at once (`ECHILD`), and `status`
happens to be zero. -/
def noChild : CloseEnv where
  file _ := some [55, 10]
  readable := true
  beyond := []
  status := 0
  waits _ := .failure 10

/-- Then an exit is reported that nothing has told. -/
theorem failed_wait_decides : ¬DecidesOnReal [] maxTries (nginxWrapperClose noChild (some [])) := by
  intro h
  have hrun : nginxWrapperClose noChild (some []) =
      [.strtol 1, .kill 7 SIGQUIT, .waitpid 7 (.failure 10), .perror 10, .test 0, .exited 0,
        .test 0] := by decide
  rw [hrun] at h
  obtain ⟨code, ⟨pid, hcode⟩, -⟩ := h.exited 0 (by decide)
  simp at hcode

end NginxTools.TestRateLimiting
