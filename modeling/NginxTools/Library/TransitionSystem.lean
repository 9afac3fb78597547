import Mathlib.Logic.Function.Basic
import Mathlib.Data.List.Induction
import Mathlib.Data.Nat.Notation

/-!
# Transition systems with labelled steps

A system has initial states and a partial step function: from a state, an action
either leads to one next state or is not enabled. Everything a scheduler or an
environment may choose is in the action, so that a list of actions determines a
run and a concrete run can be computed.

## The model

* `Sys` — the initial states and the step function.
* `Run S C s as t` — the actions `as` lead from `s` to `t`, and every one of them
  is taken in a state in which the condition `C` allows it. The condition is how a
  theorem speaks of "every run whose steps all ..."; `Any` allows everything.
* `Reach S C s` — some run from an initial state arrives at `s`.
* `exec`, `execIf` — the state a list of actions leads to, computed; `execIf` tests every step.
* `log` — what the steps of a list of actions write down, in their order.

## What is proved

* `Reach.invariant` — **the invariant rule**: what holds initially and is kept by
  every allowed step holds in every reachable state. The step may use that its
  first state is reachable, so that one invariant can rest on another.
* `Run.last_step` — a run that ends with an action splits before it.
* `Run.good_or_bad` — a run on which a condition may fail once and for all.
* `Run.length_add_le` — a run whose steps use something up is no longer than what there is of it.
* `run_of_execIf`, `run_of_exec` — a computed run is a run.
-/

namespace NginxTools.Library

universe u v w

/-- A system: its initial states, and the state an action leads to when it is enabled. -/
structure Sys (σ : Type u) (α : Type v) where
  /-- The initial states. -/
  init : σ → Prop
  /-- The step an action takes, `none` when the action is not enabled. -/
  step : σ → α → Option σ

/-- The condition that allows every step. -/
def Any {σ : Type u} {α : Type v} : σ → α → Prop := fun _ _ => True

namespace Sys

variable {σ : Type u} {α : Type v}

/-- The actions `as` lead from the first state to the second, each allowed by `C`. -/
inductive Run (S : Sys σ α) (C : σ → α → Prop) : σ → List α → σ → Prop where
  /-- No action. -/
  | nil {s : σ} : Run S C s [] s
  /-- One more action at the end. -/
  | snoc {s t u : σ} {as : List α} {a : α} :
      Run S C s as t → C t a → S.step t a = some u → Run S C s (as ++ [a]) u

/-- Some run from an initial state, its steps allowed by `C`, arrives at the state. -/
def Reach (S : Sys σ α) (C : σ → α → Prop) (s : σ) : Prop :=
  ∃ s₀ as, S.init s₀ ∧ Run S C s₀ as s

/-- The state a list of actions leads to, `none` when one of them is not enabled or does not pass
the test. -/
def execIf (S : Sys σ α) (p : σ → α → Bool) : σ → List α → Option σ
  | s, [] => some s
  | s, a :: as => if p s a then (S.step s a).bind fun t => execIf S p t as else none

/-- The state a list of actions leads to, `none` when one of them is not enabled. -/
def exec (S : Sys σ α) : σ → List α → Option σ := S.execIf fun _ _ => true

/-- What the steps that a list of actions takes write down. -/
def log {β : Type w} (S : Sys σ α) (f : σ → α → List β) : σ → List α → List β
  | _, [] => []
  | s, a :: as =>
    match S.step s a with
    | none => []
    | some t => f s a ++ S.log f t as

variable {S : Sys σ α} {C D : σ → α → Prop}

/-! ### Runs -/

theorem Run.single {s t : σ} {a : α} (hC : C s a) (h : S.step s a = some t) : Run S C s [a] t := by
  show Run S C s ([] ++ [a]) t
  exact Run.nil.snoc hC h

theorem Run.trans {s t u : σ} {as bs : List α} (h : Run S C s as t) (h' : Run S C t bs u) :
    Run S C s (as ++ bs) u := by
  induction h' with
  | nil => simpa using h
  | snoc _ hC hs ih => rw [← List.append_assoc]; exact ih.snoc hC hs

/-- A run stays a run under a weaker condition on its steps. -/
theorem Run.mono (hCD : ∀ s a, C s a → D s a) {s t : σ} {as : List α} (h : Run S C s as t) :
    Run S D s as t := by
  induction h with
  | nil => exact .nil
  | snoc _ hC hs ih => exact ih.snoc (hCD _ _ hC) hs

/-- The condition is needed of the actions of the run only. -/
theorem Run.mono_mem {s t : σ} {as : List α} (h : Run S C s as t)
    (hCD : ∀ s, ∀ a ∈ as, C s a → D s a) : Run S D s as t := by
  induction h with
  | nil => exact .nil
  | snoc _ hC hs ih =>
    refine (ih fun s a ha => hCD s a (List.mem_append_left _ ha)).snoc (hCD _ _ ?_ hC) hs
    exact List.mem_append_right _ List.mem_cons_self

/-- A run that ends with the action `a` splits into the run before it and its step. -/
theorem Run.last_step {s u : σ} {as : List α} {a : α} (h : Run S C s (as ++ [a]) u) :
    ∃ t, Run S C s as t ∧ C t a ∧ S.step t a = some u := by
  generalize hl : as ++ [a] = l at h
  cases h with
  | nil => simp at hl
  | snoc hr hC hs =>
    obtain ⟨rfl, h'⟩ := List.append_inj' hl rfl
    obtain rfl : a = _ := by simpa using h'
    exact ⟨_, hr, hC, hs⟩

/-- Every action of a run is taken in some state of it, after the actions before it. -/
theorem Run.split_step {s u : σ} {as bs : List α} {a : α} (h : Run S C s (as ++ a :: bs) u) :
    ∃ t t', Run S C s as t ∧ C t a ∧ S.step t a = some t' ∧ Run S C t' bs u := by
  induction bs using List.reverseRecOn generalizing u with
  | nil =>
    obtain ⟨t, hr, hC, hs⟩ := h.last_step
    exact ⟨t, u, hr, hC, hs, .nil⟩
  | append_singleton bs b ih =>
    rw [← List.cons_append, ← List.append_assoc] at h
    obtain ⟨v, hr, hC, hs⟩ := h.last_step
    obtain ⟨t, t', ht, hCt, hst, hr'⟩ := ih hr
    exact ⟨t, t', ht, hCt, hst, hr'.snoc hC hs⟩

/-- Actions lead to one state only, whatever allows them. -/
theorem Run.det {s t u : σ} {as : List α} (h : Run S C s as t) (h' : Run S D s as u) : t = u := by
  induction h generalizing u with
  | nil =>
    generalize hl : ([] : List α) = l at h'
    cases h' with
    | nil => rfl
    | snoc => simp at hl
  | snoc _ _ hs ih =>
    obtain ⟨v, hr, -, hv⟩ := h'.last_step
    rw [← ih hr, hs] at hv
    exact Option.some.inj hv

/-- No action leads nowhere else. -/
theorem Run.eq_of_nil {s t : σ} (h : Run S C s [] t) : s = t := (Run.nil (C := C)).det h

/-- A run that begins with the action `a` splits into its step and the run after it. -/
theorem Run.first_step {s u : σ} {as : List α} {a : α} (h : Run S C s (a :: as) u) :
    ∃ t, C s a ∧ S.step s a = some t ∧ Run S C t as u := by
  have h' : Run S C s ([] ++ a :: as) u := h
  obtain ⟨t, t', hr, hC, hs, hr'⟩ := h'.split_step
  rw [← hr.eq_of_nil] at hC hs
  exact ⟨t', hC, hs, hr'⟩

/-- **A computed run is a run**, and meets any condition that the test and the actions give. -/
theorem run_of_execIf {p : σ → α → Bool} {s t : σ} {as : List α} (h : S.execIf p s as = some t)
    (hC : ∀ u, ∀ a ∈ as, p u a = true → C u a) : Run S C s as t := by
  induction as generalizing s with
  | nil =>
    obtain rfl : s = t := by simpa [execIf] using h
    exact .nil
  | cons a as ih =>
    rw [execIf] at h
    split at h
    · next hp =>
      obtain ⟨u, hu, ht⟩ := Option.bind_eq_some_iff.mp h
      have hrun := ih ht fun v b hb => hC v b (List.mem_cons_of_mem _ hb)
      exact (Run.single (hC s a List.mem_cons_self hp) hu).trans hrun
    · cases h

theorem run_of_exec {s t : σ} {as : List α} (h : S.exec s as = some t) : Run S Any s as t :=
  run_of_execIf h fun _ _ _ _ => trivial

/-! ### What a run writes down -/

section Log

variable {β : Type w} {f : σ → α → List β}

theorem log_cons {s t : σ} {a : α} (hs : S.step s a = some t) (as : List α) :
    S.log f s (a :: as) = f s a ++ S.log f t as := by simp [log, hs]

theorem log_single {s t : σ} {a : α} (hs : S.step s a = some t) : S.log f s [a] = f s a := by
  rw [log_cons hs, log, List.append_nil]

theorem Run.log_append {s t : σ} {as : List α} (h : Run S C s as t) (bs : List α) :
    S.log f s (as ++ bs) = S.log f s as ++ S.log f t bs := by
  induction h generalizing bs with
  | nil => rfl
  | snoc _ _ hs ih =>
    rw [List.append_assoc, ih, ih, List.singleton_append, log_cons hs, log_single hs,
      List.append_assoc]

/-- **A run with one more action** writes down what the action does. -/
theorem Run.log_snoc {s t u : σ} {as : List α} {a : α} (h : Run S C s as t)
    (hs : S.step t a = some u) : S.log f s (as ++ [a]) = S.log f s as ++ f t a := by
  rw [h.log_append, log_single hs]

theorem log_eq_nil {as : List α} (hf : ∀ s, ∀ a ∈ as, f s a = []) (s : σ) : S.log f s as = [] := by
  induction as generalizing s with
  | nil => rfl
  | cons a as ih =>
    rw [log]
    split
    · rfl
    · rw [hf s a List.mem_cons_self, ih fun s b hb => hf s b (List.mem_cons_of_mem _ hb)]
      rfl

end Log

/-! ### Reachable states -/

theorem Reach.run {s t : σ} {as : List α} (h : Reach S C s) (hr : Run S C s as t) :
    Reach S C t := by
  obtain ⟨s₀, bs, h₀, hr₀⟩ := h
  exact ⟨s₀, bs ++ as, h₀, hr₀.trans hr⟩

/-- **The invariant rule along a run**: what every allowed step keeps is kept by the run. -/
theorem Run.invariant {I : σ → Prop} (hstep : ∀ s a t, C s a → I s → S.step s a = some t → I t)
    {s t : σ} {as : List α} (h : Run S C s as t) (hs : I s) : I t := by
  induction h with
  | nil => exact hs
  | snoc _ hC hst ih => exact hstep _ _ _ hC ih hst

/-- **The invariant rule**: what holds initially and is kept by every allowed step
from a reachable state holds in every reachable state. -/
theorem Reach.invariant {I : σ → Prop} (hinit : ∀ s, S.init s → I s)
    (hstep : ∀ s a t, Reach S C s → C s a → I s → S.step s a = some t → I t) {s : σ}
    (h : Reach S C s) : I s := by
  obtain ⟨s₀, as, h₀, hr⟩ := h
  induction hr with
  | nil => exact hinit _ h₀
  | snoc hr hC hs ih => exact hstep _ _ _ ⟨_, _, h₀, hr⟩ hC ih hs

/-- **A run is no longer than what its steps use up.** -/
theorem Run.length_add_le {μ : σ → ℕ} {I : σ → Prop}
    (hstep : ∀ s a t, I s → S.step s a = some t → I t ∧ μ t < μ s) {s t : σ} {as : List α}
    (h : Run S C s as t) (hs : I s) : I t ∧ as.length + μ t ≤ μ s := by
  induction h with
  | nil => exact ⟨hs, by simp⟩
  | snoc _ _ hst ih =>
    obtain ⟨hI, hle⟩ := ih
    obtain ⟨hI', hlt⟩ := hstep _ _ _ hI hst
    refine ⟨hI', ?_⟩
    rw [List.length_append, List.length_singleton]
    omega

/-- A condition that the steps from reachable states meet is met along a run. -/
theorem Run.of_reach (hD : ∀ s a t, Reach S C s → C s a → S.step s a = some t → D s a) {s t : σ}
    {as : List α} (h : Run S C s as t) (hs : S.init s) : Run S D s as t := by
  induction h with
  | nil => exact .nil
  | snoc hr hC hst ih => exact ih.snoc (hD _ _ _ ⟨_, _, hs, hr⟩ hC hst) hst

/-- The invariant rule for a fact about the actions taken and the state reached. -/
theorem Run.trace_invariant {I : List α → σ → Prop} {s t : σ} {as : List α} (h : Run S C s as t)
    (hnil : I [] s)
    (hstep : ∀ bs u a v, Run S C s bs u → C u a → I bs u → S.step u a = some v → I (bs ++ [a]) v) :
    I as t := by
  induction h with
  | nil => exact hnil
  | snoc hr hC hs ih => exact hstep _ _ _ _ hr hC ih hs

/-- **A run stays good as long as the condition holds, and is bad ever after**: the condition
holds of all steps of a run exactly if its last state is still good. -/
theorem Run.good_or_bad {G B : σ → Prop}
    (hgood : ∀ s a t, G s → S.step s a = some t → C s a ∧ G t ∨ ¬C s a ∧ B t)
    (hbad : ∀ s a t, B s → S.step s a = some t → B t) {s t : σ} {as : List α} (h : Run S Any s as t)
    (hs : G s) :
    Run S C s as t ∧ G t ∨ ¬Run S C s as t ∧ B t := by
  induction h with
  | nil => exact .inl ⟨.nil, hs⟩
  | snoc hr _ hst ih =>
    rcases ih with ⟨hC, hG⟩ | ⟨hC, hB⟩
    · rcases hgood _ _ _ hG hst with ⟨hc, hG'⟩ | ⟨hc, hB'⟩
      · exact .inl ⟨hC.snoc hc hst, hG'⟩
      · refine .inr ⟨fun hrun => ?_, hB'⟩
        obtain ⟨v, hv, hc', -⟩ := hrun.last_step
        exact hc (hr.det hv ▸ hc')
    · refine .inr ⟨fun hrun => hC ?_, hbad _ _ _ hB hst⟩
      obtain ⟨v, hv, -, -⟩ := hrun.last_step
      exact hr.det hv ▸ hv

end Sys

end NginxTools.Library
