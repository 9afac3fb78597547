import NginxTools.Library.TransitionSystem
import Mathlib.Tactic.Common

/-!
# Lazy initialisation without a lock

A body that is to be executed once before anything else is used, guarded by a counter that
every user reads and the first one increments, with no lock:

    if (counter == 0) { if (counter++ == 0) body(); }

## The model

`LazyInit τ` is the counter, and where each thread is; `starts` counts how often the body was
begun. The increment is a load and a store. A thread is `past` from where it has got past the guard
until it leaves.

## What is proved

`Safe`: the body was begun at most once, and no thread is past the guard while another is in the
body. `Inv.step`, `Inv.safe` — it holds as long as a thread reads the counter only while no other
thread is at work, from its load of zero to the end of the body. `doomed_of_not_alone` — a thread
that reads the counter at another time can at once go on to a state that is not safe. `Ready.step` —
when the body has been executed before the first thread starts, nothing goes wrong.
-/

namespace NginxTools.Library

universe u

namespace LazyInit

/-- Where a thread is. -/
inductive Pc where
  /-- Not in need of the body. -/
  | outside
  /-- The counter read as zero; about to load it for the increment. -/
  | load
  /-- The counter loaded as `v`; about to store it incremented. -/
  | store (v : ℕ)
  /-- In the body. -/
  | body
  /-- Past the guard. -/
  | past
  deriving DecidableEq

/-- The thread has not got past the guard, and has not found the counter positive. -/
def Pc.Early (p : Pc) : Prop := p = .outside ∨ p = .load ∨ p = .store 0

/-- The thread executes the body, or will with its next step. -/
def Pc.AtWork : Pc → Prop
  | .store 0 | .body => True
  | _ => False

/-- A step of a thread. -/
inductive Act (τ : Type u) where
  /-- It reads the counter. -/
  | test (t : τ)
  /-- It loads the counter for the increment. -/
  | load (t : τ)
  /-- It stores the counter incremented. -/
  | store (t : τ)
  /-- It finishes the body. -/
  | finish (t : τ)
  /-- It is done with what the body provides. -/
  | leave (t : τ)
  deriving DecidableEq

end LazyInit

/-- The counter, and the threads. -/
structure LazyInit (τ : Type u) where
  counter : ℕ
  /-- Where each thread is. -/
  pc : τ → LazyInit.Pc
  /-- How often the body was begun. -/
  starts : ℕ

namespace LazyInit

variable {τ : Type u} [DecidableEq τ]

/-- Nothing has happened yet. -/
def fresh : LazyInit τ := ⟨0, fun _ => .outside, 0⟩

/-- Thread `t` moves to another place. -/
def goto (s : LazyInit τ) (t : τ) (p : Pc) : LazyInit τ := { s with pc := Function.update s.pc t p }

/-- One step. -/
def step (s : LazyInit τ) : Act τ → Option (LazyInit τ)
  | .test t =>
    match s.pc t with
    | .outside => some (s.goto t (if s.counter = 0 then .load else .past))
    | _ => none
  | .load t =>
    match s.pc t with
    | .load => some (s.goto t (.store s.counter))
    | _ => none
  | .store t =>
    match s.pc t with
    | .store 0 => some ({ s with counter := 1, starts := s.starts + 1 }.goto t .body)
    | .store (v + 1) => some ({ s with counter := v + 2 }.goto t .past)
    | _ => none
  | .finish t =>
    match s.pc t with
    | .body => some (s.goto t .past)
    | _ => none
  | .leave t =>
    match s.pc t with
    | .past => some (s.goto t .outside)
    | _ => none

/-- The threads as a system. -/
def sys (τ : Type u) [DecidableEq τ] : Sys (LazyInit τ) (Act τ) := ⟨fun s => s = fresh, step⟩

/-- **What a step can do.** -/
inductive Step (s : LazyInit τ) : Act τ → LazyInit τ → Prop where
  | first {t : τ} (hpc : s.pc t = .outside) (hc : s.counter = 0) : Step s (.test t) (s.goto t .load)
  | later {t : τ} (hpc : s.pc t = .outside) (hc : s.counter ≠ 0) : Step s (.test t) (s.goto t .past)
  | load {t : τ} (hpc : s.pc t = .load) : Step s (.load t) (s.goto t (.store s.counter))
  | start {t : τ} (hpc : s.pc t = .store 0) :
      Step s (.store t) ({ s with counter := 1, starts := s.starts + 1 }.goto t .body)
  | skip {t : τ} {v : ℕ} (hpc : s.pc t = .store (v + 1)) :
      Step s (.store t) ({ s with counter := v + 2 }.goto t .past)
  | finish {t : τ} (hpc : s.pc t = .body) : Step s (.finish t) (s.goto t .past)
  | leave {t : τ} (hpc : s.pc t = .past) : Step s (.leave t) (s.goto t .outside)

theorem Step.of_step {s s' : LazyInit τ} {a : Act τ} (h : step s a = some s') : Step s a s' := by
  cases a with
  | test t =>
    simp only [step] at h
    split at h <;> cases h
    split_ifs with hc
    · exact .first ‹_› hc
    · exact .later ‹_› hc
  | load t => simp only [step] at h; split at h <;> cases h; exact .load ‹_›
  | store t =>
    simp only [step] at h
    split at h <;> cases h
    · exact .start ‹_›
    · exact .skip ‹_›
  | finish t => simp only [step] at h; split at h <;> cases h; exact .finish ‹_›
  | leave t => simp only [step] at h; split at h <;> cases h; exact .leave ‹_›

/-- The body was begun at most once, and nobody is past the guard while another is in the body. -/
def Safe (s : LazyInit τ) : Prop := s.starts ≤ 1 ∧ ∀ t u, s.pc t = .past → s.pc u ≠ .body

/-- The thread that takes the step, if the step reads the counter. -/
def Act.reader? : Act τ → Option τ
  | .test t | .load t => some t
  | _ => none

/-- The counter is read only while no other thread is at work. -/
def Alone (s : LazyInit τ) (a : Act τ) : Prop :=
  ∀ t, a.reader? = some t → ∀ u, u ≠ t → ¬ (s.pc u).AtWork

/-! ### Reading alone is safe -/

/-- The invariant of threads that read the counter alone. -/
structure Inv (s : LazyInit τ) : Prop where
  /-- While a thread is at work, the others have not got past the first reading. -/
  others : ∀ t u, (s.pc u).AtWork → t ≠ u → s.pc t = .outside ∨ s.pc t = .load
  /-- While the counter is zero, nobody has got past it. -/
  zero : s.counter = 0 → s.starts = 0 ∧ ∀ t, (s.pc t).Early
  /-- Once it is not, the body was begun once and nobody is about to begin it. -/
  positive : s.counter ≠ 0 → s.starts ≤ 1 ∧ ∀ t, s.pc t ≠ .store 0

omit [DecidableEq τ] in
theorem Inv.fresh : Inv (fresh : LazyInit τ) := by
  constructor <;> simp [LazyInit.fresh, Pc.AtWork, Pc.Early]

/-- What is said of every thread stays true when thread `t` moves to a place of which it is true. -/
theorem forall_goto {s : LazyInit τ} {t : τ} {p : Pc} (P : Pc → Prop) (hp : P p)
    (h : ∀ u, P (s.pc u)) :
    ∀ u, P ((s.goto t p).pc u) :=
  (Function.forall_update_iff s.pc fun _ q => P q).mpr ⟨hp, fun u _ => h u⟩

/-- A thread that is not at work moves to where it has not got past, or while nobody is at work. -/
theorem Inv.others_goto {s : LazyInit τ} (hI : Inv s) {t : τ} {p : Pc} (hp : ¬ p.AtWork)
    (hor : p = .outside ∨ p = .load ∨ ∀ u, u ≠ t → ¬ (s.pc u).AtWork) (v u : τ)
    (hu : ((s.goto t p).pc u).AtWork) (hvu : v ≠ u) :
    (s.goto t p).pc v = .outside ∨ (s.goto t p).pc v = .load := by
  have hut : u ≠ t := by rintro rfl; exact hp (by simpa [goto] using hu)
  have hold : (s.pc u).AtWork := by simpa [goto, hut] using hu
  by_cases hvt : v = t
  · subst hvt
    rcases hor with rfl | rfl | hno
    · simp [goto]
    · simp [goto]
    · exact absurd hold (hno u hut)
  · simpa [goto, hvt] using hI.others v u hold hvu

/-- **A step keeps the invariant**, if the counter is read alone. -/
theorem Inv.step {s s' : LazyInit τ} {a : Act τ} (hI : Inv s) (hC : Alone s a) (h : Step s a s') :
    Inv s' := by
  cases h with
  | @first t hpc hc =>
    refine ⟨hI.others_goto (by simp [Pc.AtWork]) (by simp), fun _ => ⟨(hI.zero hc).1, ?_⟩,
      fun hne => absurd hc hne⟩
    exact forall_goto Pc.Early (by simp [Pc.Early]) (hI.zero hc).2
  | @later t hpc hc =>
    refine ⟨hI.others_goto (by simp [Pc.AtWork]) (.inr (.inr (hC t rfl))), fun h0 => absurd h0 hc,
      fun _ => ⟨(hI.positive hc).1, ?_⟩⟩
    exact forall_goto (· ≠ .store 0) (by simp) (hI.positive hc).2
  | @load t hpc =>
    have hno := hC t rfl
    refine ⟨fun v u hu hvu => ?_, fun h0 => ⟨(hI.zero h0).1, ?_⟩,
      fun hne => ⟨(hI.positive hne).1, ?_⟩⟩
    · by_cases hut : u = t
      · -- the thread has loaded zero, so the others are where they can only have read it as zero
        subst hut
        have hzero : s.counter = 0 := by
          by_contra hne
          obtain ⟨c, hc⟩ := Nat.exists_eq_succ_of_ne_zero hne
          simp [goto, hc, Pc.AtWork] at hu
        rcases (hI.zero hzero).2 v with hv | hv | hv
        · exact .inl (by simpa [goto, hvu] using hv)
        · exact .inr (by simpa [goto, hvu] using hv)
        · exact absurd (by simp [hv, Pc.AtWork]) (hno v hvu)
      · exact absurd (by simpa [goto, hut] using hu) (hno u hut)
    · have h0' : s.counter = 0 := h0
      exact forall_goto Pc.Early (by simp [Pc.Early, h0']) (hI.zero h0).2
    · have hne' : s.counter ≠ 0 := hne
      exact forall_goto (· ≠ .store 0) (by simpa using hne') (hI.positive hne).2
  | @start t hpc =>
    have hwork : (s.pc t).AtWork := by simp [hpc, Pc.AtWork]
    have hzero : s.counter = 0 := by
      by_contra hne
      exact (hI.positive hne).2 t hpc
    have hstarts : s.starts = 0 := (hI.zero hzero).1
    refine ⟨fun v u hu hvu => ?_, fun h0 => by simp [goto] at h0, fun _ => ⟨?_, ?_⟩⟩
    · by_cases hut : u = t
      · subst hut
        simpa [goto, hvu] using hI.others v u hwork hvu
      · have ht := hI.others t u (by simpa [goto, hut] using hu) (Ne.symm hut)
        simp [hpc] at ht
    · show s.starts + 1 ≤ 1
      omega
    · intro u
      by_cases hut : u = t
      · subst hut; simp [goto]
      · have hu := hI.others u t hwork hut
        rcases hu with hu | hu <;> simp [goto, hut, hu]
  | @skip t v hpc =>
    have hne : s.counter ≠ 0 := by
      intro h0
      have := (hI.zero h0).2 t
      simp [hpc, Pc.Early] at this
    have hno : ∀ u, u ≠ t → ¬ (s.pc u).AtWork := by
      intro u hut hu
      have := hI.others t u hu (Ne.symm hut)
      simp [hpc] at this
    refine ⟨?_, fun h0 => by simp [goto] at h0, fun _ => ⟨(hI.positive hne).1, ?_⟩⟩
    · exact hI.others_goto (by simp [Pc.AtWork]) (.inr (.inr hno))
    · exact forall_goto (· ≠ .store 0) (by simp) (hI.positive hne).2
  | @finish t hpc =>
    have hne : s.counter ≠ 0 := by
      intro h0
      have := (hI.zero h0).2 t
      simp [hpc, Pc.Early] at this
    have hno : ∀ u, u ≠ t → ¬ (s.pc u).AtWork := by
      intro u hut hu
      have := hI.others t u hu (Ne.symm hut)
      simp [hpc] at this
    refine ⟨?_, fun h0 => absurd h0 hne, fun _ => ⟨(hI.positive hne).1, ?_⟩⟩
    · exact hI.others_goto (by simp [Pc.AtWork]) (.inr (.inr hno))
    · exact forall_goto (· ≠ .store 0) (by simp) (hI.positive hne).2
  | @leave t hpc =>
    refine ⟨hI.others_goto (by simp [Pc.AtWork]) (by simp), fun h0 => ⟨(hI.zero h0).1, ?_⟩,
      fun hne => ⟨(hI.positive hne).1, ?_⟩⟩
    · exact forall_goto Pc.Early (by simp [Pc.Early]) (hI.zero h0).2
    · exact forall_goto (· ≠ .store 0) (by simp) (hI.positive hne).2

omit [DecidableEq τ] in
theorem Inv.safe {s : LazyInit τ} (hI : Inv s) : Safe s := by
  constructor
  · by_cases hc : s.counter = 0
    · have := (hI.zero hc).1
      omega
    · exact (hI.positive hc).1
  · intro t u ht hu
    have htu : t ≠ u := by rintro rfl; simp [ht] at hu
    have := hI.others t u (by simp [hu, Pc.AtWork]) htu
    simp [ht] at this

/-! ### Reading while another is at work -/

/-- A thread in the body has counted itself. -/
def Counted (s : LazyInit τ) : Prop := ∀ t, s.pc t = .body → s.counter ≠ 0

theorem Counted.step {s s' : LazyInit τ} {a : Act τ} (hc : Counted s) (h : Step s a s') :
    Counted s' := by
  have hmove : ∀ {t : τ} {p : Pc}, p ≠ .body → Counted (s.goto t p) := by
    intro t p hp u hu
    by_cases hut : u = t
    · subst hut; exact absurd (by simpa [goto] using hu) hp
    · exact hc u (by simpa [goto, hut] using hu)
  cases h with
  | first _ _ => exact hmove (by simp)
  | later _ _ => exact hmove (by simp)
  | load _ => exact hmove (by simp)
  | finish _ => exact hmove (by simp)
  | leave _ => exact hmove (by simp)
  | start _ => intro u _; simp [goto]
  | skip _ => intro u _; simp [goto]

/-- The step is one within the guard. -/
def Act.Inner : Act τ → Prop
  | .load _ | .store _ => True
  | _ => False

/-- Steps within the guard lead to a state that is not safe. -/
def Doomed (s : LazyInit τ) : Prop :=
  ∃ bs s', (∀ b ∈ bs, Act.Inner b) ∧ (sys τ).Run Any s bs s' ∧ ¬ Safe s'

theorem Doomed.now {s : LazyInit τ} (h : ¬ Safe s) : Doomed s := ⟨[], s, by simp, .nil, h⟩

theorem Doomed.next {s s₁ : LazyInit τ} {b : Act τ} (hd : Doomed s₁) (hb : b.Inner)
    (h : step s b = some s₁) :
    Doomed s := by
  obtain ⟨bs, s', hbs, hrun, hs'⟩ := hd
  refine ⟨b :: bs, s', ?_, (Sys.Run.single trivial h).trans hrun, hs'⟩
  simpa using ⟨hb, hbs⟩

theorem doomed_of_past_body {s : LazyInit τ} {t u : τ} (ht : s.pc t = .past) (hu : s.pc u = .body) :
    Doomed s :=
  .now fun h => h.2 t u ht hu

/-- A thread is past the guard and another is about to begin the body. -/
theorem doomed_of_past_store {s : LazyInit τ} {t u : τ} (ht : s.pc t = .past)
    (hu : s.pc u = .store 0) : Doomed s := by
  have htu : t ≠ u := by rintro rfl; simp [ht] at hu
  refine (doomed_of_past_body (t := t) (u := u) ?_ ?_).next (b := .store u) trivial
    (by simp [step, hu]; rfl)
  · simpa [goto, htu] using ht
  · simp [goto]

/-- The body was begun and a thread is about to begin it. -/
theorem doomed_of_started {s : LazyInit τ} {u : τ} (hs : 0 < s.starts) (hu : s.pc u = .store 0) :
    Doomed s := by
  refine Doomed.next (b := .store u) (.now ?_) trivial (by simp [step, hu]; rfl)
  rintro ⟨hle, -⟩
  have hle : s.starts + 1 ≤ 1 := hle
  omega

/-- Two threads are about to begin the body. -/
theorem doomed_of_store_store {s : LazyInit τ} {t u : τ} (htu : t ≠ u) (ht : s.pc t = .store 0)
    (hu : s.pc u = .store 0) : Doomed s := by
  refine (doomed_of_started (u := u) ?_ ?_).next (b := .store t) trivial (by simp [step, ht]; rfl)
  · simp [goto]
  · simpa [goto, Ne.symm htu] using hu

theorem Pc.atWork_iff {p : Pc} : p.AtWork ↔ p = .store 0 ∨ p = .body := by
  constructor
  · intro h
    unfold Pc.AtWork at h
    split at h
    · exact .inl rfl
    · exact .inr rfl
    · exact h.elim
  · rintro (rfl | rfl) <;> trivial

/-- A thread has got past the guard while another is at work. -/
theorem doomed_of_past {s : LazyInit τ} {t u : τ} (ht : s.pc t = .past) (hu : (s.pc u).AtWork) :
    Doomed s := by
  rcases Pc.atWork_iff.mp hu with hu | hu
  · exact doomed_of_past_store ht hu
  · exact doomed_of_past_body ht hu

/-- A thread has loaded the counter while another is at work. -/
theorem doomed_of_load {s : LazyInit τ} (hc : Counted s) {t u : τ} (hut : u ≠ t)
    (hu : (s.pc u).AtWork) :
    Doomed (s.goto t (.store s.counter)) := by
  have hu' : ∀ p, (s.goto t p).pc u = s.pc u := fun p => by simp [goto, hut]
  have ht : (s.goto t (.store s.counter)).pc t = .store s.counter := by simp [goto]
  cases hcount : s.counter with
  | zero =>
    rw [hcount] at ht
    rcases Pc.atWork_iff.mp hu with hstore | hbody
    · exact doomed_of_store_store hut.symm ht ((hu' _).trans hstore)
    · exact absurd hcount (hc u hbody)
  | succ v =>
    rw [hcount] at ht
    refine Doomed.next (b := .store t) ?_ trivial (by simp only [step, ht]; rfl)
    refine doomed_of_past (t := t) (u := u) (by simp [goto]) ?_
    simpa [goto, hut] using hu

/-- **Reading while another is at work goes wrong**: the run can at once go on to a state that is
not safe. -/
theorem doomed_of_not_alone {s s₁ : LazyInit τ} {a : Act τ} (hc : Counted s) (h : Step s a s₁)
    (ha : ¬ Alone s a) : Doomed s₁ := by
  obtain ⟨t, hread, u, hut, hu⟩ : ∃ t, a.reader? = some t ∧ ∃ u, u ≠ t ∧ (s.pc u).AtWork := by
    simpa [Alone] using ha
  cases h with
  | first hpc hzero =>
    cases hread
    have hu₁ : ((s.goto t .load).pc u).AtWork := by simpa [goto, hut] using hu
    have hd := doomed_of_load (hc.step (.first hpc hzero)) hut hu₁
    exact hd.next (b := .load t) trivial (by simp [step, goto])
  | later hpc hpos =>
    cases hread
    exact doomed_of_past (t := t) (u := u) (by simp [goto]) (by simpa [goto, hut] using hu)
  | load hpc => cases hread; exact doomed_of_load hc hut hu
  | start _ | skip _ | finish _ | leave _ => simp [Act.reader?] at hread

/-! ### Executing the body first -/

/-- The body has been executed, and nobody finds the counter zero. -/
structure Ready (s : LazyInit τ) : Prop where
  counter : s.counter ≠ 0
  starts : s.starts = 1
  pc : ∀ t, s.pc t = .outside ∨ s.pc t = .past

theorem Ready.step {s s' : LazyInit τ} {a : Act τ} (hr : Ready s) (h : Step s a s') : Ready s' := by
  obtain ⟨hc, hs, hpc⟩ := hr
  cases h with
  | first _ h0 => exact absurd h0 hc
  | later _ _ => exact ⟨hc, hs, forall_goto (fun p => p = .outside ∨ p = .past) (.inr rfl) hpc⟩
  | @load t h | @start t h | @skip t _ h | @finish t h =>
    have ht := hpc t
    simp [h] at ht
  | leave _ => exact ⟨hc, hs, forall_goto (fun p => p = .outside ∨ p = .past) (.inl rfl) hpc⟩

omit [DecidableEq τ] in
theorem Ready.safe {s : LazyInit τ} (hr : Ready s) : Safe s := by
  refine ⟨Nat.le_of_eq hr.starts, fun t u _ hu => ?_⟩
  have h := hr.pc u
  simp [hu] at h

end LazyInit

end NginxTools.Library
