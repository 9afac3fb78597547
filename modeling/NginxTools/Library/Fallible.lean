/-!
# Programs with one exit for every failure

C code that checks each call and jumps to a common label when one fails is a program
that carries a state and may stop with an error, the state being whatever it is there.

## The model

`Ends P m c Q E` says all there is to say about such a piece `m` at once: from a state in
`P` it gets through exactly if `c` holds, which does not depend on the state, and then
leaves a state in `Q`; otherwise it stops with an error and a state in `E`.

## What is proved

The rules of composition: `Ends.bind` (the conditions are conjoined, the exit is shared),
`Ends.mono`, and one for each way a piece is built. `Ends.of_ok` and `Ends.of_error` read off
whether a program gets through. `Yields` only speaks of what is left when it does, and `Keeps` of
what is left alone however it ends.
-/

namespace NginxTools.Library

universe u

variable {ε σ α β : Type u} {P P' : σ → Prop} {Q Q' : α → σ → Prop} {R : β → σ → Prop}
    {E E' : ε → σ → Prop}
  {c c' : Prop} {m : EStateM ε σ α}

theorem bind_of_ok {f : α → EStateM ε σ β} {s t : σ} {a : α} (h : m s = .ok a t) :
    (m >>= f) s = f a t := by
  change EStateM.bind m f s = f a t
  rw [EStateM.bind, h]

theorem bind_of_error {f : α → EStateM ε σ β} {s t : σ} {e : ε} (h : m s = .error e t) :
    (m >>= f) s = .error e t := by
  change EStateM.bind m f s = .error e t
  rw [EStateM.bind, h]

/-- From `P` the program gets through exactly if `c`, into `Q`; otherwise it stops in `E`. -/
def Ends (P : σ → Prop) (m : EStateM ε σ α) (c : Prop) (Q : α → σ → Prop)
    (E : ε → σ → Prop) : Prop :=
  ∀ s, P s → match m s with
    | .ok a t => c ∧ Q a t
    | .error e t => ¬c ∧ E e t

/-- Whenever the program gets through from `P`, it leaves a state in `Q`. -/
def Yields (P : σ → Prop) (m : EStateM ε σ α) (Q : α → σ → Prop) : Prop :=
  ∀ s, P s → ∀ a t, m s = .ok a t → Q a t

/-- However the program ends, `f` of the state is what it was. -/
def Keeps (m : EStateM ε σ α) (f : σ → β) : Prop := ∀ s, match m s with
  | .ok _ t => f t = f s
  | .error _ t => f t = f s

namespace Ends

/-- What is known of a program that gets through. -/
theorem of_ok (h : Ends P m c Q E) {s t : σ} {a : α} (hs : P s) (hm : m s = .ok a t) :
    c ∧ Q a t := by
  simpa [hm] using h s hs

/-- What is known of a program that stops. -/
theorem of_error (h : Ends P m c Q E) {s t : σ} {e : ε} (hs : P s) (hm : m s = .error e t) :
    ¬c ∧ E e t := by
  simpa [hm] using h s hs

theorem mono (h : Ends P m c Q E) (hP : ∀ s, P' s → P s) (hc : c ↔ c') (hQ : ∀ a t, Q a t → Q' a t)
    (hE : ∀ e t, E e t → E' e t) : Ends P' m c' Q' E' := by
  intro s hs
  cases hm : m s with
  | ok a t => exact ⟨hc.mp (h.of_ok (hP s hs) hm).1, hQ a t (h.of_ok (hP s hs) hm).2⟩
  | error e t => exact ⟨mt hc.mpr (h.of_error (hP s hs) hm).1, hE e t (h.of_error (hP s hs) hm).2⟩

/-- The condition in another form. -/
theorem iff (h : Ends P m c Q E) (hc : c ↔ c') : Ends P m c' Q E :=
  h.mono (fun _ h => h) hc (fun _ _ h => h) fun _ _ h => h

theorem done {a : α} (h : ∀ s, P s → Q a s) : Ends P (pure a : EStateM ε σ α) True Q E :=
  fun s hs => ⟨trivial, h s hs⟩

theorem update {f : σ → σ} {Q : PUnit → σ → Prop} (h : ∀ s, P s → Q ⟨⟩ (f s)) :
    Ends P (modify f : EStateM ε σ PUnit) True Q E :=
  fun s hs => ⟨trivial, h s hs⟩

/-- **Composition**: both get through; the first to stop is where the whole stops. -/
theorem bind {f : α → EStateM ε σ β} (h : Ends P m c Q E) (hf : ∀ a, Ends (Q a) (f a) c' R E) :
    Ends P (m >>= f) (c ∧ c') R E := by
  intro s hs
  cases hm : m s with
  | error e t =>
    obtain ⟨hc, hE⟩ := h.of_error hs hm
    rw [bind_of_error hm]
    exact ⟨fun h => hc h.1, hE⟩
  | ok a t =>
    obtain ⟨hc, hQ⟩ := h.of_ok hs hm
    rw [bind_of_ok hm]
    cases hm' : f a t with
    | error e u =>
      obtain ⟨hc', hE⟩ := (hf a).of_error hQ hm'
      exact ⟨fun h => hc' h.2, hE⟩
    | ok b u =>
      obtain ⟨hc', hR⟩ := (hf a).of_ok hQ hm'
      exact ⟨⟨hc, hc'⟩, hR⟩

/-- A program that reads off the state what is known already. -/
theorem read {f : β → EStateM ε σ α} {g : σ → β} {b : β} (hg : ∀ s, P s → g s = b)
    (h : Ends P (f b) c Q E) :
    Ends P (do f (g (← get))) c Q E := by
  intro s hs
  have hrun : (do f (g (← get)) : EStateM ε σ α) s = f (g s) s := rfl
  rw [hrun, hg s hs]
  exact h s hs

/-- A piece that is only there when `p` holds. -/
theorem ite {p : Prop} [Decidable p] {m' : EStateM ε σ α} (h : p → Ends P m c Q E)
    (h' : ¬p → Ends P m' c' Q E) : Ends P (if p then m else m') (if p then c else c') Q E := by
  by_cases hp : p
  · simpa [hp] using h hp
  · simpa [hp] using h' hp

/-- What is left by a program that gets through. -/
theorem yields (h : Ends P m c Q E) : Yields P m Q := fun _ hs _ _ hm => (h.of_ok hs hm).2

end Ends

namespace Yields

theorem done {a : α} (h : ∀ s, P s → Q a s) : Yields P (pure a : EStateM ε σ α) Q := by
  intro s hs b t hm
  cases hm
  exact h s hs

theorem update {f : σ → σ} {Q : PUnit → σ → Prop} (h : ∀ s, P s → Q ⟨⟩ (f s)) :
    Yields P (modify f : EStateM ε σ PUnit) Q := by
  intro s hs b t hm
  cases hm
  exact h s hs

theorem bind {f : α → EStateM ε σ β} (h : Yields P m Q) (hf : ∀ a, Yields (Q a) (f a) R) :
    Yields P (m >>= f) R := by
  intro s hs b u hu
  cases hm : m s with
  | error e t => cases (bind_of_error hm).symm.trans hu
  | ok a t => exact hf a t (h s hs a t hm) b u ((bind_of_ok hm).symm.trans hu)

theorem mono (h : Yields P m Q) (hP : ∀ s, P' s → P s) (hQ : ∀ a t, Q a t → Q' a t) :
    Yields P' m Q' :=
  fun s hs a t hm => hQ a t (h s (hP s hs) a t hm)

end Yields

namespace Keeps

variable {f : σ → β} {γ : Type u}

theorem of_ok (h : Keeps m f) {s t : σ} {a : α} (hm : m s = .ok a t) : f t = f s := by
  simpa [hm] using h s

theorem of_error (h : Keeps m f) {s t : σ} {e : ε} (hm : m s = .error e t) : f t = f s := by
  simpa [hm] using h s

theorem done {a : α} : Keeps (pure a : EStateM ε σ α) f := fun _ => rfl

theorem stop {e : ε} : Keeps (throw e : EStateM ε σ α) f := fun _ => rfl

theorem update {g : σ → σ} (h : ∀ s, f (g s) = f s) : Keeps (modify g : EStateM ε σ PUnit) f := h

theorem bind {k : α → EStateM ε σ γ} (h : Keeps m f) (hk : ∀ a, Keeps (k a) f) :
    Keeps (m >>= k) f := by
  intro s
  cases hm : m s with
  | error e t =>
    rw [bind_of_error hm]
    exact h.of_error hm
  | ok a t =>
    have ht := h.of_ok hm
    rw [bind_of_ok hm]
    cases hm' : k a t with
    | error e u => exact ((hk a).of_error hm').trans ht
    | ok b u => exact ((hk a).of_ok hm').trans ht

/-- A program that reads off the state what it does. -/
theorem read {k : γ → EStateM ε σ α} {g : σ → γ} (h : ∀ b, Keeps (k b) f) :
    Keeps (do k (g (← get))) f :=
  fun s => h (g s) s

end Keeps

end NginxTools.Library
