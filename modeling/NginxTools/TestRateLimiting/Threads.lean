import NginxTools.TestRateLimiting.App

/-!
# The threads are joined before what they use is gone

A `std::thread` that is joinable must not be destroyed or assigned to, or the process is aborted;
and the threads use `TEST_DIR` and the logger, which `main` removes and closes at its end.

## What is proved

`Joining` says where `main` is which of the threads are still to be joined. It holds in every run in
which `main` is not interrupted while it waits for the delayed requests; when it is, it jumps to its
end with `plottingThread` still joinable (`Orphaned`). `joined_iff_not_interrupted` puts both
together.
-/

namespace NginxTools.TestRateLimiting

open Library InterrUsleep

variable {settings : List SettingCtx} {s t : App}

/-- `plottingThread` is joinable. -/
def MainPc.Plotting : MainPc → Bool
  | .fxn .. | .join .. | .clearClients _ | .testExit _ | .testLevel _ | .usleep (.burst _)
  | .sleeping (.burst _) _ | .setFlag _ | .joinPlotter _ => true
  | _ => false

/-- Which of the clients have been joined, the list telling it of each. -/
def MainPc.JoinedOk (joined : List Bool) : MainPc → Prop
  | .fxn .. => True
  | .join _ cli => ∀ b ∈ joined.take cli, b = true
  | .clearClients _ => ∀ b ∈ joined, b = true
  | _ => joined = []

/-- `main`'s place says which threads are still to be joined. -/
structure Joining (s : App) : Prop where
  joinable : s.joinable = s.pc.Plotting
  joined : s.pc.JoinedOk (s.clients.map Client.joined)
  alive : s.pc ≠ .terminated

theorem joining_of_start (h : s.Start) : Joining s := by
  refine ⟨by rw [h.joinable, h.pc]; rfl, ?_, by simp [h.pc]⟩
  rw [h.pc, h.clients]
  rfl

/-- A step that starts and joins nothing, to a place with the same threads. -/
theorem Joining.goTo (h : Joining s) {pc : MainPc} (hpc : t.pc = pc) (hj : t.joinable = s.joinable)
    (hc : t.clients = s.clients) (hplot : pc.Plotting = s.pc.Plotting)
    (hok : ∀ joined, s.pc.JoinedOk joined → pc.JoinedOk joined) (halive : pc ≠ .terminated) :
    Joining t :=
  ⟨by rw [hj, hpc, hplot]; exact h.joinable, by rw [hpc, hc]; exact hok _ h.joined, hpc ▸ halive⟩

theorem unjoined_eq_false : s.unjoined = false ↔ ∀ b ∈ s.clients.map Client.joined, b = true := by
  simp [App.unjoined]

/-- **One step of `main`**: it joins what its place says. -/
theorem Joining.mainStep (hI : Joining s) (h : MainStep settings s t) : Joining t := by
  have hplot := hI.joinable
  have hjoined := hI.joined
  cases h with
  | startPlotter h hj =>
    rw [h] at hjoined
    exact ⟨rfl, trivial, by simp⟩
  | startTerminates h hj =>
    rw [h, hj] at hplot
    cases hplot
  | startClient h =>
    rw [h] at hplot
    exact ⟨hplot, trivial, by simp⟩
  | joinClient h hc hd =>
    rw [h] at hplot hjoined
    refine ⟨hplot, ?_, by simp⟩
    obtain ⟨hlt, -⟩ := List.getElem?_eq_some_iff.mp hc
    simp only [MainPc.JoinedOk, List.map_set, List.take_add_one,
      List.take_set_of_le (Nat.le_refl _),
      List.getElem?_set_self (show _ < (s.clients.map Client.joined).length by simpa using hlt)]
    intro b hb
    rcases List.mem_append.mp hb with hb | hb
    · exact hjoined b hb
    · simpa using hb
  | allJoined h hc =>
    rw [h] at hplot hjoined
    refine ⟨hplot, fun b hb => hjoined b ?_, by simp⟩
    rwa [List.take_of_length_le (by simpa using hc)]
  | clearClients h hu =>
    rw [h] at hplot
    exact ⟨hplot, rfl, by simp⟩
  | clearTerminates h hu =>
    rw [h] at hjoined
    exact absurd (unjoined_eq_false.mpr hjoined) (by simp [hu])
  | joinPlotter h hd =>
    rw [h] at hjoined
    exact ⟨rfl, hjoined, by simp⟩
  | retTerminates h hj =>
    rw [h] at hplot hjoined
    rcases hj with hj | hu
    · rw [hplot] at hj
      cases hj
    · have hnil : s.clients = [] := List.map_eq_nil_iff.mp hjoined
      simp [App.unjoined, hnil] at hu
  | @usleep site h =>
    refine hI.goTo rfl rfl rfl (by rw [h]; cases site <;> rfl) (fun _ hok => ?_) (by simp)
    rw [h] at hok
    exact hok
  | allCalled h =>
      exact hI.goTo rfl rfl rfl (by rw [h]; rfl) (fun _ _ => by simp [MainPc.JoinedOk]) (by simp)
  | _ h =>
      exact hI.goTo rfl rfl rfl (by rw [h]; rfl)
        (fun _ hok => by rw [h] at hok; exact hok) (by simp)

/-! ### A wait that is interrupted -/

/-- `interr_usleep` returns `EINTR` while `main` waits for the delayed requests. -/
def InterruptedWhilePlotting (s : App) (a : Act) : Prop :=
  a = .wake EINTR ∧ ∃ i late, s.pc = .sleeping (.burst i) late

/-- `main` has left the loop, and will return or be aborted, with the plotter still to be joined. -/
structure Orphaned (s : App) : Prop where
  pc : s.pc.AfterLoop ∧ s.pc ≠ .returned
  joinable : s.joinable = true

theorem Orphaned.mainStep (hI : Orphaned s) (h : MainStep settings s t) : Orphaned t := by
  obtain ⟨⟨hpc, -⟩, hj⟩ := hI
  cases h with
  | endLabel h | closeOrigin h | rmpath h | closeLogger h | retTerminates h =>
      exact ⟨⟨trivial, by simp⟩, hj⟩
  | returns h hj' => rw [hj] at hj'; cases hj'
  | _ h => simp [h, MainPc.AfterLoop] at hpc

theorem Joining.congr (hI : Joining s) (h : SameMain s t) : Joining t :=
  ⟨by rw [h.joinable, h.pc]; exact hI.joinable, by rw [h.joined, h.pc]; exact hI.joined,
    h.pc ▸ hI.alive⟩

/-- **One step**: the threads are joined as `main`'s place says, unless the wait is interrupted,
when the plotter is left. -/
theorem Joining.step (hI : Joining s) {a : Act} (hs : Step settings s a t) :
    ¬InterruptedWhilePlotting s a ∧ Joining t ∨ InterruptedWhilePlotting s a ∧ Orphaned t := by
  rcases hs.main_cases with ⟨rfl, hm⟩ | ⟨rc, rfl, hw⟩ | ⟨⟨-, hwake⟩, hsame⟩
  · refine .inl ⟨fun hi => ?_, hI.mainStep hm⟩
    cases hi.1
  · cases hw with
    | @slept site late h hrc =>
      refine .inl ⟨fun hi => ?_, ?_⟩
      · rw [hrc] at hi
        exact absurd hi.1 (by simp [EINTR])
      · refine hI.goTo rfl rfl rfl ?_ (fun _ hok => ?_) (by cases site <;> simp [Site.next])
        · rw [h]
          cases site <;> rfl
        · rw [h] at hok
          cases site <;> exact hok
    | @interrupted site late h hrc hu =>
      by_cases hsite : ∃ i, site = .burst i
      · obtain ⟨i, rfl⟩ := hsite
        have hj := hI.joinable
        rw [h] at hj
        exact .inr ⟨⟨by rw [hrc], i, late, h⟩, ⟨⟨trivial, by simp⟩, hj⟩⟩
      · refine .inl ⟨fun hi => ?_, ?_⟩
        · obtain ⟨-, i, late', h'⟩ := hi
          rw [h] at h'
          cases h'
          exact hsite ⟨i, rfl⟩
        · refine hI.goTo rfl rfl rfl ?_ (fun _ hok => ?_) (by simp)
          · rw [h]
            cases site with
            | burst i => exact absurd ⟨i, rfl⟩ hsite
            | _ => rfl
          · rw [h] at hok
            exact hok
  · exact .inl ⟨fun hi => hwake _ hi.1, hI.congr hsame⟩

theorem Orphaned.step (hI : Orphaned s) {a : Act} (hs : Step settings s a t) : Orphaned t := by
  rcases hs.main_cases with ⟨rfl, hm⟩ | ⟨rc, rfl, hw⟩ | ⟨-, hsame⟩
  · exact hI.mainStep hm
  · have hpc := hI.pc.1
    cases hw with
    | slept h | interrupted h => simp [h, MainPc.AfterLoop] at hpc
  · exact ⟨hsame.pc ▸ hI.pc, hsame.joinable.trans hI.joinable⟩

/-! ### Whole runs -/

/-- Every thread that was started has been joined. -/
def AllJoined (s : App) : Prop := s.joinable = false ∧ ∀ c ∈ s.clients, c.joined = true

/-- `main` is about to remove `TEST_DIR`, or past it. -/
def MainPc.PastUse (pc : MainPc) : Prop :=
  pc = .rmpath ∨ pc = .closeLogger ∨ pc = .ret ∨ pc = .returned

/-- No joinable thread has been destroyed or assigned to, and none outlives what it uses. -/
def NoneOutlives (s : App) : Prop := s.pc ≠ .terminated ∧ (s.pc.PastUse → AllJoined s)

theorem Joining.noneOutlives (hI : Joining s) : NoneOutlives s := by
  refine ⟨hI.alive, fun hpc => ?_⟩
  have hj := hI.joinable
  have hc := hI.joined
  obtain ⟨hplot, hnil⟩ : s.joinable = false ∧ s.clients.map Client.joined = [] := by
    rcases hpc with h | h | h | h <;> rw [h] at hj hc <;> exact ⟨hj, hc⟩
  exact ⟨hplot, by simp [List.map_eq_nil_iff.mp hnil]⟩

/-- **No thread outlives what it uses**: in no run in which the wait for the delayed requests is not
interrupted does one, nor is a joinable thread destroyed or assigned to; and a run that gets to the
removal of `TEST_DIR` with every thread joined is such a run. -/
theorem joined_iff_not_interrupted (settings : List SettingCtx) :
    (∀ s : App, (app settings).Reach (fun s a => ¬InterruptedWhilePlotting s a) s →
      NoneOutlives s) ∧
    (∀ (s₀ s : App) (as : List Act), s₀.Start → (app settings).Run Any s₀ as s →
      s.pc.PastUse ∨ s.pc = .terminated →
      (NoneOutlives s ↔
        (app settings).Run (fun s a => ¬InterruptedWhilePlotting s a) s₀ as s)) := by
  have hall : ∀ (s₀ s : App) (as : List Act), s₀.Start → (app settings).Run Any s₀ as s →
      (app settings).Run (fun s a => ¬InterruptedWhilePlotting s a) s₀ as s ∧ Joining s ∨
        ¬(app settings).Run (fun s a => ¬InterruptedWhilePlotting s a) s₀ as s ∧ Orphaned s := by
    intro s₀ s as h₀ h
    refine h.good_or_bad (fun s a t hI hs => ?_)
      (fun s a t hI hs => hI.step (.of_app hs)) (joining_of_start h₀)
    simpa using hI.step (.of_app hs)
  constructor
  · rintro s ⟨s₀, as, h₀, h⟩
    rcases hall s₀ s as h₀ (h.mono fun _ _ _ => trivial) with ⟨-, hI⟩ | ⟨hrun, -⟩
    · exact hI.noneOutlives
    · exact absurd h hrun
  · intro s₀ s as h₀ h hpc
    rcases hall s₀ s as h₀ h with ⟨hrun, hI⟩ | ⟨hrun, hI⟩
    · exact iff_of_true hI.noneOutlives hrun
    · refine iff_of_false (fun hs => ?_) hrun
      rcases hpc with hpc | hpc
      · have := (hs.2 hpc).1
        rw [hI.joinable] at this
        cases this
      · exact hs.1 hpc

/-- A quit signal while `main` waits for a burst that a sample has shown: `TEST_DIR` is about to be
removed, and the plotter has not been joined. -/
theorem plotter_outlives : ¬∀ s : App, (app [⟨[]⟩]).Reach Any s → NoneOutlives s := by
  intro h
  let as : List Act := [.main, .main, .main, .wake 0, .main, .main, .main, .wake 0, .main, .main,
    .main, .main, .main, .main, .plotter (.fopen true), .plotter .next, .plotter .next,
    .plotter (.poll (statusDoc ⟨0, 0, 0⟩ 1 1)), .plotter .next, .main, .main, .main, .signal,
    .unblock, .wake EINTR, .main, .main]
  obtain ⟨s, hs, hpc, hj⟩ : ∃ s, (app [⟨[]⟩]).exec .fresh as = some s ∧ s.pc = .rmpath ∧
      s.joinable = true :=
    ⟨_, rfl, rfl, rfl⟩
  have := ((h s ⟨_, as, start_fresh, Sys.run_of_exec hs⟩).2 (.inl hpc)).1
  rw [hj] at this
  cases this

end NginxTools.TestRateLimiting
