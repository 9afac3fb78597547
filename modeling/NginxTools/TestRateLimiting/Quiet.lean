import NginxTools.TestRateLimiting.Threads

/-!
# Runs without a quit signal

Without a signal `interr_usleep` is never interrupted, and what keeps the threads apart is the order
in which `main` starts, stops and joins them: the stop flag is set only when every client has been
joined, and cleared only when there is no plotter.

## What is proved

`Quiet` — nothing is interrupted and `flag_exit` is clear as long as `main` is in its loop.
`Handshake` — where the plotter can be, by `main`'s place: once it has left its sampling loop,
`main` is about to join it. `Requesting` — the clients are those of `main`'s setting, and there are
none when it is.
-/

namespace NginxTools.TestRateLimiting

open Library InterrUsleep

variable {settings : List SettingCtx} {s t : App} {a : Act} {C : App → Act → Prop}

/-- No quit signal arrives. -/
def Uninterrupted (_ : App) (a : Act) : Prop := a ≠ .signal

/-- A poll gets the proxy's status, with any burst level and whatever else is in it. -/
def PollSucceeds (s : App) (a : Act) : Prop :=
  ∀ jobj, a = .plotter (.poll jobj) → jobj.Reports s.counters

/-! ### Nothing is interrupted -/

/-- No handler has run, and only `main`'s end sets `flag_exit`. -/
structure Quiet (s : App) : Prop where
  handlers : s.handlers = 0
  unblocked : s.unblocked = false
  flagExit : s.shared.flagExit = true → s.pc.AfterLoop

theorem quiet_of_start (h : s.Start) : Quiet s := ⟨h.handlers, h.unblocked, by simp [h.flagExit]⟩

/-- Every sleep is slept out. -/
theorem Quiet.slept (hI : Quiet s) {rc : ℤ} (h : WakeStep rc s t) :
    ∃ site late, s.pc = .sleeping site late ∧ t = { s with pc := site.next } := by
  cases h with
  | slept h => exact ⟨_, _, h, rfl⟩
  | interrupted h _ hu => exact absurd hu (by simp [hI.unblocked])

/-- Once `main` has left the loop, it stays outside. -/
theorem MainStep.afterLoop (h : MainStep settings s t) (hpc : s.pc.AfterLoop) : t.pc.AfterLoop := by
  cases h with
  | endLabel | closeOrigin | rmpath | closeLogger | returns | retTerminates | startTerminates
  | clearTerminates =>
    trivial
  | _ h => simp [h, MainPc.AfterLoop] at hpc

theorem Quiet.step (hI : Quiet s) (ha : Uninterrupted s a) (h : Step settings s a t) : Quiet t := by
  obtain ⟨hh, hu, hf⟩ := hI
  cases h with
  | main h =>
    have hkeep := h.afterLoop
    cases h with
    | endLabel h => exact ⟨hh, hu, fun _ => trivial⟩
    | _ => exact ⟨hh, hu, fun hflag => hkeep (hf hflag)⟩
  | wake h =>
    obtain ⟨site, late, hpc, rfl⟩ := Quiet.slept ⟨hh, hu, hf⟩ h
    exact ⟨hh, hu, fun hflag => absurd (hf hflag) (by simp [hpc, MainPc.AfterLoop])⟩
  | plotter h => cases h <;> exact ⟨hh, hu, hf⟩
  | client h => cases h <;> exact ⟨hh, hu, hf⟩
  | signal h =>
    cases h with
    | signal => exact absurd rfl ha
    | unblock h => exact absurd hh h

theorem Quiet.joining (hI : Quiet s) (hJ : Joining s) (h : Step settings s a t) : Joining t := by
  rcases hJ.step h with ⟨-, hJ'⟩ | ⟨⟨rfl, i, late, hpc⟩, -⟩
  · exact hJ'
  · cases h with
    | wake h =>
      cases h with
      | slept _ hrc => cases hrc
      | interrupted _ _ hu => exact absurd hu (by simp [hI.unblocked])
    | signal h => cases h

/-! ### The handshake -/

/-- In the sampling loop, or before it. -/
def PlotterPc.InLoop : PlotterPc → Prop
  | .fopen | .testExit | .testStop | .poll | .trace _ | .sleep => True
  | _ => False

/-- Past the sampling loop. -/
def PlotterPc.PastLoop : PlotterPc → Prop
  | .fopenLog | .readLine _ | .clear | .popen => True
  | _ => False

/-- The stop flag has been cleared for the setting, and not been set again. -/
def MainPc.Unstopped : MainPc → Prop
  | .clearLevel _ | .startPlotter _ | .fxn .. | .join .. | .clearClients _ | .testExit _
  | .testLevel _ | .usleep (.burst _) | .sleeping (.burst _) _ | .setFlag _ => True
  | _ => False

/-- Where the plotter is, by `main`'s place. -/
structure Handshake (s : App) : Prop where
  none : s.pc.Plotting = false → s.plotter.pc = .none
  loop : s.pc.Plotting = true → s.pc.Unstopped → s.plotter.pc.InLoop ∨ s.plotter.pc = .done
  flag : s.pc.Unstopped → s.shared.flagExitPlottingThr = false

theorem handshake_of_start (h : s.Start) : Handshake s :=
  ⟨fun _ => h.plotter, fun hp => by simp [h.pc, MainPc.Plotting] at hp,
    fun hu => by simp [h.pc, MainPc.Unstopped] at hu⟩

/-- A step of `main` that leaves the plotter and its flag alone. -/
theorem Handshake.goTo (hI : Handshake s) {pc : MainPc} (hpc : t.pc = pc)
    (hp : t.plotter = s.plotter) (hf : t.shared.flagExitPlottingThr = s.shared.flagExitPlottingThr)
    (hplot : pc.Plotting = s.pc.Plotting) (hun : pc.Unstopped → s.pc.Unstopped) : Handshake t := by
  constructor
  · rw [hpc, hplot, hp]
    exact hI.none
  · rw [hpc, hplot, hp]
    intro h hu
    exact hI.loop h (hun hu)
  · rw [hpc, hf]
    intro hu
    exact hI.flag (hun hu)

theorem Handshake.mainStep (hI : Handshake s) (h : MainStep settings s t)
    (halive : t.pc ≠ .terminated) :
    Handshake t := by
  cases h with
  | clearFlag h =>
    exact ⟨fun _ => hI.none (by rw [h]; rfl), fun hp => (nomatch hp), fun _ => rfl⟩
  | startPlotter h hj =>
      exact ⟨fun hp => (nomatch hp), fun _ _ => .inl trivial, fun _ => hI.flag (by rw [h]; trivial)⟩
  | setFlag h => exact ⟨fun hp => (nomatch hp), fun _ hu => hu.elim, fun hu => hu.elim⟩
  | joinPlotter h hd => exact ⟨fun _ => rfl, fun hp => (nomatch hp), fun hu => hu.elim⟩
  | startTerminates | clearTerminates | retTerminates => exact absurd rfl halive
  | @usleep site h =>
    refine hI.goTo rfl rfl rfl (by rw [h]; cases site <;> rfl) (fun hu => ?_)
    rw [h]
    cases site <;> exact hu
  | _ h =>
    refine hI.goTo rfl rfl rfl (by rw [h]; rfl) (fun hu => ?_)
    rw [h]
    trivial

theorem Handshake.slept (hI : Handshake s) {site : Site} {late : Bool}
    (h : s.pc = .sleeping site late) :
    Handshake { s with pc := site.next } := by
  refine hI.goTo rfl rfl rfl (by rw [h]; cases site <;> rfl) (fun hu => ?_)
  rw [h]
  cases site <;> exact hu

theorem not_afterLoop_of_unstopped {pc : MainPc} (h : pc.Unstopped) : ¬pc.AfterLoop := by
  cases pc <;> simp_all [MainPc.Unstopped, MainPc.AfterLoop]

/-- **One step of the plotter**: it leaves its loop only when it has been told to. -/
theorem Handshake.plotterStep (hI : Handshake s) (hQ : Quiet s) {b : PlotterAct}
    (h : PlotterStep b s t) :
    Handshake t := by
  have hrun : s.plotter.pc ≠ .none → s.pc.Plotting = true := by
    intro hne
    by_contra hp
    exact hne (hI.none (by simpa using hp))
  have hexit : s.pc.Unstopped → s.shared.flagExit = false := by
    intro hu
    by_contra hf
    exact not_afterLoop_of_unstopped hu (hQ.flagExit (by simpa using hf))
  cases h with
  | opened h | exitClear h | stopClear h | poll h | trace h | sleep h =>
    exact ⟨fun hp => by simp [hrun (by simp [h])] at hp, fun _ _ => .inl trivial, hI.flag⟩
  | notOpened h =>
      exact ⟨fun hp => by simp [hrun (by simp [h])] at hp, fun _ _ => .inr rfl, hI.flag⟩
  | exitSet h hf =>
    exact ⟨fun hp => by simp [hrun (by simp [h])] at hp, fun _ hu => by simp [hexit hu] at hf,
      hI.flag⟩
  | stopSet h hf =>
    exact ⟨fun hp => by simp [hrun (by simp [h])] at hp, fun _ hu => by simp [hI.flag hu] at hf,
      hI.flag⟩
  | fopenLog h | readLine h | allRead h | clear h | popen h =>
    refine ⟨fun hp => by simp [hrun (by simp [h])] at hp, fun hp hu => ?_, hI.flag⟩
    have := hI.loop hp hu
    simp [h, PlotterPc.InLoop] at this

theorem Handshake.step (hI : Handshake s) (hQ : Quiet s) (hJ : Joining t)
    (h : Step settings s a t) :
    Handshake t := by
  cases h with
  | main h => exact hI.mainStep h hJ.alive
  | wake h =>
    obtain ⟨site, late, hpc, rfl⟩ := hQ.slept h
    exact hI.slept hpc
  | plotter h => exact hI.plotterStep hQ h
  | client h => cases h <;> exact ⟨hI.none, hI.loop, hI.flag⟩
  | signal h => cases h <;> exact ⟨hI.none, hI.loop, hI.flag⟩

/-- A plotter past its loop is about to be joined. -/
theorem Handshake.joins (hI : Handshake s) (hp : s.plotter.pc.PastLoop) :
    ∃ i, s.pc = .joinPlotter i := by
  have hplot : s.pc.Plotting = true := by
    by_contra hne
    rw [hI.none (by simpa using hne)] at hp
    exact hp
  have hstop : ¬s.pc.Unstopped := by
    intro hu
    rcases hI.loop hplot hu with hl | hd
    · cases h : s.plotter.pc <;> simp_all [PlotterPc.InLoop, PlotterPc.PastLoop]
    · rw [hd] at hp
      exact hp
  cases h : s.pc with
  | joinPlotter i => exact ⟨i, rfl⟩
  | usleep site | sleeping site _ => cases site <;> simp_all [MainPc.Plotting, MainPc.Unstopped]
  | _ => simp_all [MainPc.Plotting, MainPc.Unstopped]

/-! ### The clients -/

/-- How far `main` is. -/
inductive Phase where
  /-- Before the first setting. -/
  | before
  /-- Before the setting's plotter is started. -/
  | launching (i : ℕ)
  /-- Until the plotter has been joined. -/
  | plotting (i : ℕ)
  /-- Until the next setting. -/
  | settled (i : ℕ)
  /-- After the loop. -/
  | after
deriving DecidableEq

/-- The phase that `main`'s place is in. -/
def MainPc.phase : MainPc → Phase
  | .prepare | .openOrigin | .usleep .origin | .sleeping .origin _ => .before
  | .forTest i | .openProxy i | .usleep (.proxy i) | .sleeping (.proxy i) _ | .clearFlag i
  | .clearLevel i | .startPlotter i => .launching i
  | .fxn i _ | .join i _ | .clearClients i | .testExit i | .testLevel i | .usleep (.burst i)
  | .sleeping (.burst i) _ | .setFlag i | .joinPlotter i => .plotting i
  | .usleep (.settle i) | .sleeping (.settle i) _ | .closeProxy i | .unlinkLog i => .settled i
  | .endLabel | .closeOrigin | .rmpath | .closeLogger | .ret | .returned | .terminated => .after

/-- The setting of a phase. -/
def Phase.setting : Phase → Option ℕ
  | .launching i | .plotting i | .settled i => some i
  | _ => none

/-- The setting that `main` is at. -/
def MainPc.setting (pc : MainPc) : Option ℕ := pc.phase.setting

/-- The clients are those of `main`'s setting, and are joined when they are done. -/
structure Requesting (s : App) : Prop where
  setting : ∀ c ∈ s.clients, s.pc.setting = some c.setting
  done : ∀ c ∈ s.clients, c.joined = true → c.pc = .done

theorem requesting_of_start (h : s.Start) : Requesting s := by constructor <;> simp [h.clients]

/-- There may be client threads. -/
def MainPc.Serving : MainPc → Prop
  | .fxn .. | .join .. | .clearClients _ => True
  | _ => False

theorem Joining.clients_eq_nil (hJ : Joining s) (hpc : ¬s.pc.Serving) : s.clients = [] := by
  refine List.map_eq_nil_iff.mp (show s.clients.map Client.joined = [] from ?_)
  have hj := hJ.joined
  cases h : s.pc <;> rw [h] at hj hpc <;> first | exact hj | exact absurd trivial hpc

/-- A step that leaves the clients, and the setting if there are any. -/
theorem Requesting.goTo (hI : Requesting s) (hc : t.clients = s.clients)
    (hset : s.clients = [] ∨ t.pc.setting = s.pc.setting) : Requesting t := by
  refine ⟨?_, fun c hmem => hI.done c (hc ▸ hmem)⟩
  intro c hmem
  rw [hc] at hmem
  rcases hset with hnil | hset
  · simp [hnil] at hmem
  · exact hset.trans (hI.setting c hmem)

theorem Requesting.mainStep (hI : Requesting s) (hJ : Joining s) (h : MainStep settings s t)
    (halive : t.pc ≠ .terminated) : Requesting t := by
  cases h with
  | @startClient i n calls h =>
    constructor
    · intro c hc
      rcases List.mem_append.mp hc with hc | hc
      · have := hI.setting c hc
        rwa [h] at this
      · obtain rfl := List.mem_singleton.mp hc
        rfl
    · intro c hc hj
      rcases List.mem_append.mp hc with hc | hc
      · exact hI.done c hc hj
      · obtain rfl := List.mem_singleton.mp hc
        cases hj
  | @joinClient i cli c h hc hd =>
    constructor
    · intro c' hc'
      rcases List.mem_or_eq_of_mem_set hc' with hc' | rfl
      · have := hI.setting c' hc'
        rwa [h] at this
      · have := hI.setting c (List.mem_of_getElem? hc)
        rwa [h] at this
    · intro c' hc' hj
      rcases List.mem_or_eq_of_mem_set hc' with hc' | rfl
      · exact hI.done c' hc' hj
      · exact hd
  | clearClients => exact ⟨by simp, by simp⟩
  | allCalled h | called h | allJoined h => exact hI.goTo rfl (.inr (by rw [h]; rfl))
  | startTerminates | clearTerminates | retTerminates => exact absurd rfl halive
  | _ h => exact hI.goTo rfl (.inl (hJ.clients_eq_nil (by simp [h, MainPc.Serving])))

/-- **The clients**: what they do keeps them what they are. -/
theorem Requesting.clientStep (hI : Requesting s) {k : ℕ} (h : ClientStep k s t) :
    Requesting t := by
  have hset : ∀ (c : Client) (pc : ClientPc), s.clients[k]? = some c → c.pc ≠ .done →
      (∀ c' ∈ s.clients.set k { c with pc }, s.pc.setting = some c'.setting) ∧
        ∀ c' ∈ s.clients.set k { c with pc }, c'.joined = true → c'.pc = .done := by
    intro c pc hc hpc
    constructor
    · intro c' hc'
      rcases List.mem_or_eq_of_mem_set hc' with hc' | rfl
      · exact hI.setting c' hc'
      · exact hI.setting c (List.mem_of_getElem? hc)
    · intro c' hc' hj
      rcases List.mem_or_eq_of_mem_set hc' with hc' | rfl
      · exact hI.done c' hc' hj
      · exact absurd (hI.done c (List.mem_of_getElem? hc) hj) hpc
  cases h with
  | serve hc h | respond hc h | push hc h =>
    obtain ⟨h1, h2⟩ := hset _ _ hc (by simp [h])
    exact ⟨h1, h2⟩
  | fail hc h =>
    obtain ⟨h1, h2⟩ := hset _ .done hc (by rcases h with h | h <;> simp [h])
    exact ⟨h1, h2⟩

theorem Requesting.step (hI : Requesting s) (hQ : Quiet s) (hJ : Joining s)
    (h : Step settings s a t) :
    Requesting t := by
  cases h with
  | main h => exact hI.mainStep hJ h (hJ.mainStep h).alive
  | wake h =>
    obtain ⟨site, late, hpc, rfl⟩ := hQ.slept h
    exact hI.goTo rfl (.inl (hJ.clients_eq_nil (by simp [hpc, MainPc.Serving])))
  | plotter h => cases h <;> exact hI.goTo rfl (.inr rfl)
  | client h => exact hI.clientStep h
  | signal h => cases h <;> exact hI.goTo rfl (.inr rfl)

/-! ### Together -/

/-- What holds in every run without a quit signal. -/
structure Orderly (s : App) : Prop where
  quiet : Quiet s
  joining : Joining s
  handshake : Handshake s
  requesting : Requesting s

theorem orderly_of_start (h : s.Start) : Orderly s :=
  ⟨quiet_of_start h, joining_of_start h, handshake_of_start h, requesting_of_start h⟩

theorem Orderly.step (hI : Orderly s) (ha : Uninterrupted s a) (h : Step settings s a t) :
    Orderly t := by
  obtain ⟨hQ, hJ, hH, hR⟩ := hI
  have hJ' := hQ.joining hJ h
  exact ⟨hQ.step ha h, hJ', hH.step hQ hJ' h, hR.step hQ hJ h⟩

/-- **Runs without a quit signal are orderly.** -/
theorem orderly_of_reach (hC : ∀ s a, C s a → Uninterrupted s a) (h : (app settings).Reach C s) :
    Orderly s :=
  h.invariant (fun _ h => orderly_of_start h) fun s a _ _ hc hI hs =>
    hI.step (hC s a hc) (.of_app hs)

/-- While the plotter is past its loop there is no client. -/
theorem Orderly.clients_eq_nil (hI : Orderly s) (hp : s.plotter.pc.PastLoop) : s.clients = [] := by
  obtain ⟨i, hi⟩ := hI.handshake.joins hp
  exact hI.joining.clients_eq_nil (by simp [hi, MainPc.Serving])

end NginxTools.TestRateLimiting
