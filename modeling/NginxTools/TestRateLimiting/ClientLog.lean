import NginxTools.TestRateLimiting.Quiet

/-!
# The clients' log

A client pushes a line about its response to `clients_stats` under a mutex; past its loop the
plotter writes the lines to `CLIENT_STATSLOG` and clears the vector, without the mutex:

    for (unsigned int i = 0; i < clients_stats.size(); i++)
        fprintf(clistatsfile, "%s", clients_stats[i].c_str());
    clients_stats.clear();

What keeps the clients away is the order in which `main` joins and stops.

## What is proved

`Logging` says by phase what the vector and the file hold: the lines pushed for `main`'s setting,
until the plotter has moved them to the file. `log_exact` reads off that each is logged once, with
its own setting.
-/

namespace NginxTools.TestRateLimiting

open Library InterrUsleep

variable {settings : List SettingCtx} {s t : App} {a : Act}

/-- A run without a quit signal, in which every poll, `fopen` and `popen` succeeds. -/
def Undisturbed (s : App) (a : Act) : Prop :=
  Uninterrupted s a ∧ PollSucceeds s a ∧ a ≠ .plotter (.fopen false) ∧ a ≠ .plotter (.popen false)

/-- The lines pushed for a setting. -/
def linesOf (s : App) (i : ℕ) : List Line := s.history.pushed.filter (·.setting = i)

/-- What the vector and the file hold while the plotter is where it is. -/
def PlotterLog (s : App) (i : ℕ) : Prop :=
  match s.plotter.pc with
  | .readLine k =>
      s.shared.clientsStats = linesOf s i ∧ s.clientLog = some (s.shared.clientsStats.take k)
  | .clear => s.shared.clientsStats = linesOf s i ∧ s.clientLog = some (linesOf s i)
  | .popen | .done => s.shared.clientsStats = [] ∧ s.clientLog = some (linesOf s i)
  | _ => s.shared.clientsStats = linesOf s i

/-- What the vector and the file hold in a phase. -/
def PhaseLog (s : App) : Phase → Prop
  | .before => s.history.pushed = [] ∧ s.shared.clientsStats = []
  | .launching i => (∀ l ∈ s.history.pushed, l.setting < i) ∧ s.shared.clientsStats = []
  | .plotting i => (∀ l ∈ s.history.pushed, l.setting ≤ i) ∧ PlotterLog s i
  | .settled i =>
    (∀ l ∈ s.history.pushed, l.setting ≤ i) ∧ s.shared.clientsStats = [] ∧
      s.clientLog = some (linesOf s i)
  | .after => True

/-- What the vector and the file hold. -/
structure Logging (s : App) : Prop where
  phase : PhaseLog s s.pc.phase
  /-- The plotter is not done before it is told to stop. -/
  opened : s.pc.Unstopped → s.plotter.pc ≠ .done
  /-- Before the first client of a setting there is no line of it. -/
  first : ∀ i calls, s.pc = .fxn i calls → s.clients = [] → linesOf s i = []

theorem logging_of_start (h : s.Start) : Logging s where
  phase := by
    rw [h.pc]
    exact ⟨h.pushed, h.clientsStats⟩
  opened hu := by simp [h.plotter]
  first i calls hpc := by simp [h.pc] at hpc

theorem linesOf_eq_nil {i : ℕ} (h : ∀ l ∈ s.history.pushed, l.setting < i) : linesOf s i = [] := by
  apply List.filter_eq_nil_iff.mpr
  intro l hl
  have hlt := h l hl
  simp only [decide_eq_true_eq]
  omega

/-- What a phase's log speaks about. -/
structure SameLog (s t : App) : Prop where
  plotter : t.plotter.pc = s.plotter.pc
  clientsStats : t.shared.clientsStats = s.shared.clientsStats
  clientLog : t.clientLog = s.clientLog
  pushed : t.history.pushed = s.history.pushed

theorem linesOf_congr (h : t.history.pushed = s.history.pushed) (i : ℕ) :
    linesOf t i = linesOf s i := by
  rw [linesOf, h, linesOf]

theorem PhaseLog.congr {p : Phase} (hI : PhaseLog s p) (h : SameLog s t) : PhaseLog t p := by
  cases p <;> simp only [PhaseLog, PlotterLog, h.plotter, h.clientsStats, h.clientLog,
    linesOf_congr h.pushed, h.pushed]
    at hI ⊢ <;> exact hI

/-- A step of `main` within a phase. -/
theorem Logging.goTo (hI : Logging s) {pc : MainPc} (hpc : t.pc = pc) (hlog : SameLog s t)
    (hphase : pc.phase = s.pc.phase) (hun : pc.Unstopped → s.pc.Unstopped)
    (hfirst : ∀ i calls, pc = .fxn i calls → t.clients = [] →
      ∃ calls', s.pc = .fxn i calls' ∧ s.clients = []) :
    Logging t where
  phase := by
    rw [hpc, hphase]
    exact hI.phase.congr hlog
  opened hu := by
    rw [hlog.plotter]
    exact hI.opened (hun (hpc ▸ hu))
  first i calls h hc := by
    obtain ⟨calls', hs, hc'⟩ := hfirst i calls (hpc ▸ h) hc
    rw [linesOf_congr hlog.pushed]
    exact hI.first i calls' hs hc'

/-- A step of another thread that leaves the vector, the file and the plotter's place. -/
theorem Logging.congr (hI : Logging s) (hpc : t.pc = s.pc) (hlog : SameLog s t)
    (hclients : t.clients = [] → s.clients = []) : Logging t :=
  hI.goTo hpc hlog rfl id fun _ calls h hc => ⟨calls, h, hclients hc⟩

/-- After the loop nothing is said of the log. -/
theorem logging_of_afterLoop (h : t.pc.AfterLoop) : Logging t := by
  have hphase : t.pc.phase = .after := by
    cases hpc : t.pc <;> rw [hpc] at h <;> first | rfl | exact h.elim
  refine ⟨by rw [hphase]; trivial, fun hu => absurd h (not_afterLoop_of_unstopped hu), ?_⟩
  intro i calls hpc
  rw [hpc] at h
  exact h.elim

/-! ### The steps -/

/-- **One step of `main`**: it starts a setting with nothing pushed for it, and ends it when the
plotter is done. -/
theorem Logging.mainStep (hI : Logging s) (hH : Handshake s) (h : MainStep settings s t) :
    Logging t := by
  have hphase := hI.phase
  cases h with
  | prepare h =>
    rw [h] at hphase
    exact ⟨hphase, fun hu => hu.elim, fun _ _ hpc => by cases hpc⟩
  | clearFlag h =>
    have hnone : s.plotter.pc = .none := hH.none (by rw [h]; rfl)
    rw [h] at hphase
    exact ⟨hphase, fun _ hd => by simp [hnone] at hd, fun _ _ hpc => by cases hpc⟩
  | @startPlotter i h hj =>
    rw [h] at hphase
    obtain ⟨hlt, hnil⟩ := hphase
    refine ⟨⟨fun l hl => Nat.le_of_lt (hlt l hl), ?_⟩, fun _ => by simp [Plotter.start],
      fun j calls hpc _ => ?_⟩
    · exact hnil.trans (linesOf_eq_nil hlt).symm
    · cases hpc
      exact linesOf_eq_nil hlt
  | @startClient i n calls h =>
    exact hI.goTo rfl ⟨rfl, rfl, rfl, rfl⟩ (by rw [h]; rfl) (fun _ => by rw [h]; trivial) (by simp)
  | @called i calls h =>
    refine hI.goTo rfl ⟨rfl, rfl, rfl, rfl⟩ (by rw [h]; rfl)
      (fun _ => by rw [h]; trivial) fun j calls' hpc hc => ?_
    cases hpc
    exact ⟨_, h, hc⟩
  | @joinPlotter i h hd =>
    rw [h] at hphase
    obtain ⟨hle, hlog⟩ := hphase
    simp only [PlotterLog, hd] at hlog
    exact ⟨⟨hle, hlog⟩, fun hu => hu.elim, fun _ _ hpc => by cases hpc⟩
  | @unlinkLog i h =>
    rw [h] at hphase
    obtain ⟨hle, hnil, -⟩ := hphase
    exact ⟨⟨fun l hl => Nat.lt_succ_of_le (hle l hl), hnil⟩, fun hu => hu.elim,
      fun _ _ hpc => by cases hpc⟩
  | leave | endLabel | closeOrigin | rmpath | closeLogger | returns | startTerminates
  | clearTerminates | retTerminates => exact logging_of_afterLoop trivial
  | @usleep site h =>
    refine hI.goTo rfl ⟨rfl, rfl, rfl, rfl⟩ (by rw [h]; cases site <;> rfl) (fun hu => ?_) (by simp)
    rw [h]
    cases site <;> exact hu
  | _ h =>
    refine hI.goTo rfl ⟨rfl, rfl, rfl, rfl⟩ (by rw [h]; rfl) (fun hu => ?_) (by simp)
    rw [h]
    trivial

/-- A sleep that was slept out. -/
theorem Logging.slept (hI : Logging s) {site : Site} {late : Bool}
    (h : s.pc = .sleeping site late) :
    Logging { s with pc := site.next } := by
  cases site with
  | origin =>
    have hphase := hI.phase
    rw [h] at hphase
    obtain ⟨hnone, hnil⟩ := hphase
    exact ⟨⟨by simp [hnone], hnil⟩, fun hu => hu.elim, fun _ _ hpc => by cases hpc⟩
  | _ =>
    refine hI.goTo rfl ⟨rfl, rfl, rfl, rfl⟩ (by rw [h]; rfl) (fun hu => ?_) (by simp [Site.next])
    rw [h]
    exact hu

theorem MainPc.phase_of_plotting {pc : MainPc} (h : pc.Plotting = true) :
    ∃ i, pc.phase = .plotting i := by
  cases pc with
  | usleep site | sleeping site => cases site <;> first | exact ⟨_, rfl⟩ | cases h
  | _ => first | exact ⟨_, rfl⟩ | cases h

/-- There is a plotter only in the phase that is about it. -/
theorem Handshake.phase (hH : Handshake s) (hp : s.plotter.pc ≠ .none) :
    ∃ i, s.pc.phase = .plotting i := by
  refine MainPc.phase_of_plotting ?_
  by_contra hne
  exact hp (hH.none (by simpa using hne))

/-- **One step of the plotter**: the lines it has read are the first ones of the vector, in their
order. -/
theorem Logging.plotterStep (hI : Logging s) (hH : Handshake s) {b : PlotterAct}
    (h : PlotterStep b s t) (hopen : b ≠ .fopen false) : Logging t := by
  have hpl : ∀ {i}, s.pc.phase = .plotting i → (∀ l ∈ s.history.pushed, l.setting ≤ i) ∧
      PlotterLog s i :=
    fun hi => by simpa [hi, PhaseLog] using hI.phase
  -- Past its loop the plotter is about to be joined, so that it may be done.
  have hstop : s.plotter.pc.PastLoop → ¬s.pc.Unstopped := by
    intro hp
    obtain ⟨i, hi⟩ := hH.joins hp
    simp [hi, MainPc.Unstopped]
  obtain ⟨i, hi⟩ := hH.phase (by cases h <;> simp [*])
  obtain ⟨hle, hlog⟩ := hpl hi
  cases h with
  | opened h | exitSet h | exitClear h | stopSet h | stopClear h | poll h | trace h | sleep h =>
    simp only [PlotterLog, h] at hlog
    refine ⟨?_, fun _ => by simp, hI.first⟩
    simp only [hi]
    exact ⟨hle, hlog⟩
  | notOpened h hb => exact absurd hb hopen
  | fopenLog h =>
    simp only [PlotterLog, h] at hlog
    refine ⟨?_, fun _ => by simp, hI.first⟩
    simp only [hi]
    exact ⟨hle, hlog, rfl⟩
  | @readLine k line h hk =>
    simp only [PlotterLog, h] at hlog
    refine ⟨?_, fun _ => by simp, hI.first⟩
    simp only [hi]
    refine ⟨hle, hlog.1, ?_⟩
    simp [hlog.2, List.take_add_one, hk]
  | @allRead k h hk =>
    simp only [PlotterLog, h] at hlog
    refine ⟨?_, fun _ => by simp, hI.first⟩
    simp only [hi]
    refine ⟨hle, hlog.1, ?_⟩
    rw [hlog.2, List.take_of_length_le (List.getElem?_eq_none_iff.mp hk), hlog.1]
    rfl
  | clear h =>
    simp only [PlotterLog, h] at hlog
    refine ⟨?_, fun _ => by simp, hI.first⟩
    simp only [hi]
    exact ⟨hle, rfl, hlog.2⟩
  | popen h =>
    simp only [PlotterLog, h] at hlog
    refine ⟨?_, fun hu => absurd hu (hstop (by rw [h]; trivial)), hI.first⟩
    simp only [hi]
    exact ⟨hle, hlog⟩

/-- While there are clients, the plotter is in its loop. -/
theorem Logging.inLoop (hI : Logging s) (hH : Handshake s) (hpc : s.pc.Serving) :
    s.plotter.pc.InLoop := by
  have hun : s.pc.Plotting = true ∧ s.pc.Unstopped := by
    cases h : s.pc <;> rw [h] at hpc <;> first | exact ⟨rfl, trivial⟩ | exact hpc.elim
  rcases hH.loop hun.1 hun.2 with hl | hd
  · exact hl
  · exact absurd hd (hI.opened hun.2)

/-- In the loop the vector holds every line pushed for the setting. -/
theorem PlotterLog.inLoop {i : ℕ} (hl : s.plotter.pc.InLoop) :
    PlotterLog s i ↔ s.shared.clientsStats = linesOf s i := by
  cases h : s.plotter.pc <;> rw [h] at hl <;> first | exact hl.elim | simp [PlotterLog, h]

/-- **One step of a client**: a line is pushed while the plotter is in its loop, for `main`'s
setting. -/
theorem Logging.clientStep (hI : Logging s) (hO : Orderly s) {k : ℕ} (h : ClientStep k s t) :
    Logging t := by
  cases h with
  | serve | respond | fail => exact hI.congr rfl ⟨rfl, rfl, rfl, rfl⟩ (by simp)
  | @push c text hc h =>
    have hmem : c ∈ s.clients := List.mem_of_getElem? hc
    have hserv : s.pc.Serving := by
      by_contra hns
      simp [hO.joining.clients_eq_nil hns] at hmem
    have hin := hI.inLoop hO.handshake hserv
    obtain ⟨i, hi⟩ : ∃ i, s.pc.phase = .plotting i := by
      cases hpc : s.pc <;> rw [hpc] at hserv <;> first | exact ⟨_, rfl⟩ | exact hserv.elim
    have hset : c.setting = i := by
      have := hO.requesting.setting c hmem
      simp only [MainPc.setting, hi, Phase.setting, Option.some.injEq] at this
      exact this.symm
    have hphase := hI.phase
    simp only [hi, PhaseLog] at hphase
    obtain ⟨hle, hlog⟩ := hphase
    rw [PlotterLog.inLoop hin] at hlog
    refine ⟨?_, hI.opened, fun j calls _ hnil => ?_⟩
    · simp only [hi]
      refine ⟨?_, (PlotterLog.inLoop ?_).mpr ?_⟩
      · intro l hl
        rcases List.mem_append.mp hl with hl | hl
        · exact hle l hl
        · obtain rfl := List.mem_singleton.mp hl
          exact Nat.le_of_eq hset
      · exact hin
      · simp [linesOf, hset, hlog]
    · simp [List.ne_nil_of_mem hmem] at hnil

theorem Logging.step (hI : Logging s) (hO : Orderly s) (ha : Undisturbed s a)
    (h : Step settings s a t) : Logging t := by
  obtain ⟨-, -, hopen, -⟩ := ha
  cases h with
  | main h => exact hI.mainStep hO.handshake h
  | wake h =>
    obtain ⟨site, late, hpc, rfl⟩ := hO.quiet.slept h
    exact hI.slept hpc
  | plotter h => exact hI.plotterStep hO.handshake h fun hb => hopen (by rw [hb])
  | client h => exact hI.clientStep hO h
  | signal h => cases h <;> exact hI.congr rfl ⟨rfl, rfl, rfl, rfl⟩ id

/-! ### Whole runs -/

theorem orderly_of_undisturbed (h : (app settings).Reach Undisturbed s) : Orderly s :=
  orderly_of_reach (fun _ _ hc => hc.1) h

theorem logging_of_reach (h : (app settings).Reach Undisturbed s) : Logging s :=
  h.invariant (fun _ h => logging_of_start h) fun _ _ _ hr hc hI hs =>
    hI.step (orderly_of_undisturbed hr) hc (.of_app hs)

/-- A setting's first request finds the vector empty. -/
theorem Logging.clientsStats_eq_nil (hI : Logging s) (hH : Handshake s) {i : ℕ} {calls : List ℕ}
    (hpc : s.pc = .fxn i calls) (hc : s.clients = []) : s.shared.clientsStats = [] := by
  have hphase := hI.phase
  rw [hpc] at hphase
  rw [(PlotterLog.inLoop (hI.inLoop hH (by rw [hpc]; trivial))).mp hphase.2]
  exact hI.first i calls hpc hc

/-- **Every line is logged once, with its setting**: when the plotter has been joined, its file
holds the lines pushed for the setting, and no other; the vector is empty before a setting and
before its first request; and while the plotter reads and clears it, nothing can be pushed. -/
theorem log_exact (settings : List SettingCtx) (s : App) (h : (app settings).Reach Undisturbed s) :
    (∀ i, s.pc.phase = .settled i → ∃ log, s.clientLog = some log ∧
      log.Perm (s.history.pushed.filter (·.setting = i)) ∧ ∀ l ∈ log, l.setting = i) ∧
    (∀ i, s.pc.phase = .settled i ∨ s.pc.phase = .launching i ∨
      (∃ calls, s.pc = .fxn i calls ∧ s.clients = []) → s.shared.clientsStats = []) ∧
    (∀ k, (∃ n, s.plotter.pc = .readLine n) ∨ s.plotter.pc = .clear →
      clientStep k .push s = none) := by
  have hI := logging_of_reach h
  have hO := orderly_of_undisturbed h
  have hphase := hI.phase
  refine ⟨?_, ?_, ?_⟩
  · intro i hi
    rw [hi] at hphase
    refine ⟨_, hphase.2.2, .refl _, ?_⟩
    intro l hl
    simpa using (List.mem_filter.mp hl).2
  · intro i hi
    rcases hi with hi | hi | ⟨calls, hpc, hc⟩
    · rw [hi] at hphase
      exact hphase.2.1
    · rw [hi] at hphase
      exact hphase.2
    · exact hI.clientsStats_eq_nil hO.handshake hpc hc
  · intro k hp
    have hpast : s.plotter.pc.PastLoop := by
      rcases hp with ⟨n, hp⟩ | hp <;> rw [hp] <;> trivial
    simp [clientStep, hO.clients_eq_nil hpast]

/-- One client, whose line is in the file when the plotter has been joined. -/
theorem log_exact_oneLine :
    ∃ s, (app [⟨[1]⟩]).Reach Undisturbed s ∧ s.history.pushed = [⟨"0.1 3\n", 0⟩] ∧
    ∃ log, s.clientLog = some log ∧ log.Perm (s.history.pushed.filter (·.setting = 0)) ∧
    ∀ l ∈ log, l.setting = 0 := by
  let as : List Act := [.main, .main, .main, .wake 0, .main, .main, .main, .wake 0, .main, .main,
    .main, .main, .main, .plotter (.fopen true), .client 0 (.serve .s2xx),
    .client 0 (.respond "0.1 3\n"), .client 0 .push, .main, .main,
    .main, .main, .main, .main, .main, .plotter .next, .plotter .next, .plotter .next,
    .plotter .next, .plotter .next, .plotter .next, .plotter (.popen true), .main]
  obtain ⟨s, hs, hphase, hpushed⟩ : ∃ s, (app [⟨[1]⟩]).exec .fresh as = some s ∧
      s.pc.phase = .settled 0 ∧ s.history.pushed = [⟨"0.1 3\n", 0⟩] := ⟨_, rfl, rfl, rfl⟩
  have hrun : (app [⟨[1]⟩]).Run Undisturbed .fresh as s := by
    apply Sys.run_of_execIf hs
    rintro u a ha -
    refine ⟨?_, ?_, ?_, ?_⟩
    · rintro rfl
      simp [as] at ha
    · rintro jobj rfl
      simp [as] at ha
    · rintro rfl
      simp [as] at ha
    · rintro rfl
      simp [as] at ha
  have h : (app [⟨[1]⟩]).Reach Undisturbed s := ⟨_, as, start_fresh, hrun⟩
  exact ⟨s, h, hpushed, (log_exact [⟨[1]⟩] s h).1 0 hphase⟩

end NginxTools.TestRateLimiting
