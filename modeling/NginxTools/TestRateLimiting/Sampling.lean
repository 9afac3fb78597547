import NginxTools.TestRateLimiting.Quiet

/-!
# The last sample

The rows of `stats.dat` are differences, so the columns add up to the counters as the last sample
saw them. `main` waits for `burst_level` to fall to zero before it tells the plotter to stop:

    // Wait for delayed requests to finalize (to be able to plot them)
    while (!flag_exit && burst_level > 0) {
        ...
    }

    // Join plotter thread
    flag_exit_plotting_thr = 1;

`burst_level` is what the last sample has seen, and the last sample may be older than the last
response: the plotter sleeps 100 ms between two samples, and tests the flag before it takes one.

## What is proved

`Counting` — every request of a setting is to be made, pending, or completed. `Sampling` — what the
rows of `stats.dat` have summed up are the proxy's counters, once a sample has been taken after the
last request. `last_sample_complete` says which runs plot all of the requests: those in which the
plotter, when it is told to stop, is about to poll or has polled since the last request.
`last_response_missed` is a run that is none of these.
-/

namespace NginxTools.TestRateLimiting

open Library InterrUsleep

variable {settings : List SettingCtx} {s t : App} {a : Act} {n : ℕ} {C : App → Act → Prop}

/-! ### Requests -/

/-- Its request has not completed. -/
def Client.pending (c : Client) : Bool :=
  match c.pc with
  | .requesting | .served => true
  | _ => false

/-- The requests that have not completed. -/
def App.pending (s : App) : ℕ := s.clients.countP Client.pending

/-- The requests that `fxn` has not made yet. -/
def MainPc.callsLeft : MainPc → ℕ
  | .fxn _ calls => calls.sum
  | _ => 0

/-- The proxy has been launched, and the plotter has not been started. -/
def MainPc.Launched : MainPc → Prop
  | .usleep (.proxy _) | .sleeping (.proxy _) _ | .clearFlag _ | .clearLevel _ | .startPlotter _ =>
      True
  | _ => False

/-- While a setting of `n` requests is plotted, each is to be made, pending, or completed. -/
structure Counting (n : ℕ) (s : App) : Prop where
  requests : s.history.completed + s.pending + s.pc.callsLeft = n
  responses2xx : s.counters.responses2xx ≤ s.counters.requestCounter
  responses5xx : s.counters.responses5xx ≤ s.counters.requestCounter

/-- A proxy starts with its counters at zero, and counts a setting. -/
structure Counted (settings : List SettingCtx) (s : App) : Prop where
  zeroed : s.pc.Launched → s.counters = ⟨0, 0, 0⟩
  counting : ∀ i, s.pc.phase = .plotting i → Counting (callsOf settings i).sum s

theorem counted_of_start (h : s.Start) : Counted settings s :=
  ⟨fun hl => by simp [h.pc, MainPc.Launched] at hl, fun i hi => by simp [h.pc, MainPc.phase] at hi⟩

/-- One element of a list is replaced. -/
theorem countP_set_add {α : Type} {p : α → Bool} {l : List α} {k : ℕ} {x : α} (hx : l[k]? = some x)
    (y : α) :
    (l.set k y).countP p + (if p x then 1 else 0) = l.countP p + (if p y then 1 else 0) := by
  obtain ⟨hk, rfl⟩ := List.getElem?_eq_some_iff.mp hx
  have hle := List.boole_getElem_le_countP (p := p) hk
  rw [List.countP_set hk]
  omega

/-- A client's step within a request. -/
theorem pending_set_eq {k : ℕ} {c : Client} (hc : s.clients[k]? = some c) (c' : Client)
    (h : c'.pending = c.pending) : (s.clients.set k c').countP Client.pending = s.pending := by
  have hset := countP_set_add (p := Client.pending) hc c'
  rw [h] at hset
  exact Nat.add_right_cancel hset

/-- A client's step that completes its request. -/
theorem pending_set_add_one {k : ℕ} {c : Client} (hc : s.clients[k]? = some c) (c' : Client)
    (h : c.pending = true) (h' : c'.pending = false) :
    (s.clients.set k c').countP Client.pending + 1 = s.pending := by
  have hset := countP_set_add (p := Client.pending) hc c'
  simpa [h, h', App.pending] using hset

theorem pending_eq_zero (h : ∀ c ∈ s.clients, c.pc = .done) : s.pending = 0 := by
  apply List.countP_eq_zero.mpr
  intro c hc
  simp [Client.pending, h c hc]

/-- A pending client makes the count positive. -/
theorem pending_pos {k : ℕ} {c : Client} (hc : s.clients[k]? = some c) (hp : c.pending = true) :
    0 < s.pending :=
  List.countP_pos_iff.mpr ⟨c, List.mem_of_getElem? hc, hp⟩

/-- A step of `main` that counts nothing. -/
theorem Counted.goTo (hI : Counted settings s) {pc : MainPc} (hpc : t.pc = pc)
    (hp : t.pending = s.pending) (hh : t.history.completed = s.history.completed)
    (hc : t.counters = s.counters) (hphase : pc.phase = s.pc.phase)
    (hleft : pc.callsLeft = s.pc.callsLeft) (hlaunched : pc.Launched → s.pc.Launched) :
    Counted settings t := by
  constructor
  · intro hl
    exact hc.trans (hI.zeroed (hlaunched (hpc ▸ hl)))
  · intro i hi
    obtain ⟨hreq, h2, h5⟩ := hI.counting i (by rw [← hphase, ← hpc, hi])
    exact ⟨by rw [hh, hp, hpc, hleft, hreq], by rwa [hc], by rwa [hc]⟩

/-- A step of `main` to where there is neither a proxy launched nor a plotter. -/
theorem counted_of_not (hl : ¬t.pc.Launched) (hp : ∀ i, t.pc.phase ≠ .plotting i) :
    Counted settings t :=
  ⟨fun h => absurd h hl, fun i hi => absurd hi (hp i)⟩

/-- **One step of `main`**: it makes a request, or lets the clients go when no request is
pending. -/
theorem Counted.mainStep (hI : Counted settings s) (hO : Orderly s) (h : MainStep settings s t) :
    Counted settings t := by
  cases h with
  | openProxy h => exact ⟨fun _ => rfl, fun i hi => by simp [MainPc.phase] at hi⟩
  | @startPlotter i h hj =>
    refine ⟨fun hl => hl.elim, ?_⟩
    intro j hj
    cases hj
    have hnil : s.clients = [] := hO.joining.clients_eq_nil (by simp [h, MainPc.Serving])
    have hzero := hI.zeroed (by rw [h]; trivial)
    refine ⟨?_, by simp [hzero], by simp [hzero]⟩
    simp [History.restart, App.pending, hnil, MainPc.callsLeft]
  | @called i calls h =>
    refine hI.goTo rfl rfl rfl rfl (by rw [h]; rfl) ?_ (fun hl => hl.elim)
    simp [h, MainPc.callsLeft]
  | @startClient i m calls h =>
    refine ⟨fun hl => hl.elim, ?_⟩
    intro j hj
    obtain ⟨hreq, h2, h5⟩ := hI.counting j (by rw [h]; exact hj)
    refine ⟨?_, h2, h5⟩
    simp only [h, MainPc.callsLeft, List.sum_cons] at hreq
    simp only [App.pending, List.countP_append, MainPc.callsLeft, List.sum_cons] at hreq ⊢
    simp only [List.countP_singleton, Client.pending, if_true]
    omega
  | @joinClient i cli c h hc hd =>
    refine hI.goTo rfl ?_ rfl rfl (by rw [h]; rfl) (by rw [h]; rfl) (fun hl => hl.elim)
    exact pending_set_eq hc _ rfl
  | @clearClients i h hu =>
    have hdone : ∀ c ∈ s.clients, c.pc = .done := by
      intro c hc
      exact hO.requesting.done c hc (unjoined_eq_false.mp hu _ (List.mem_map_of_mem hc))
    refine hI.goTo rfl ?_ rfl rfl (by rw [h]; rfl) (by rw [h]; rfl) (fun hl => hl.elim)
    exact (pending_eq_zero hdone).symm
  | prepare | openOrigin | enter | leave | joinPlotter | closeProxy | unlinkLog | endLabel
  | closeOrigin | rmpath | closeLogger | returns | startTerminates | clearTerminates
  | retTerminates =>
    exact counted_of_not (fun hl => hl.elim) (by simp [MainPc.phase])
  | @usleep site h =>
    refine hI.goTo rfl rfl rfl rfl ?_ (by rw [h]; rfl) (fun hl => ?_) <;> rw [h] <;> cases site <;>
      first | rfl | exact hl
  | clearFlag h | clearLevel h | allCalled h | allJoined h | exitSet h | exitClear h | levelHigh h
  | levelLow h | setFlag h =>
    exact hI.goTo rfl rfl rfl rfl (by rw [h]; rfl) (by rw [h]; rfl) (fun _ => by rw [h]; trivial)

theorem Counted.slept (hI : Counted settings s) {site : Site} {late : Bool}
    (h : s.pc = .sleeping site late) :
    Counted settings { s with pc := site.next } := by
  cases site with
  | origin | settle i =>
      exact counted_of_not (fun hl => hl.elim) (by simp [Site.next, MainPc.phase])
  | proxy i | burst i =>
    exact hI.goTo rfl rfl rfl rfl (by rw [h]; rfl) (by rw [h]; rfl) (fun hl => by rw [h]; exact hl)

/-- There are clients only in the phase that is about their requests. -/
theorem Orderly.phase_of_client (hO : Orderly s) {k : ℕ} {c : Client}
    (hc : s.clients[k]? = some c) :
    ¬s.pc.Launched ∧ ∃ i, s.pc.phase = .plotting i := by
  have hserv : s.pc.Serving := by
    by_contra hns
    simp [hO.joining.clients_eq_nil hns] at hc
  cases hpc : s.pc <;> rw [hpc] at hserv <;> first | exact ⟨id, _, rfl⟩ | exact hserv.elim

theorem count_responses2xx_le {c : Counters} (h : c.responses2xx ≤ c.requestCounter)
    (status : Status) : (c.count status).responses2xx ≤ (c.count status).requestCounter := by
  simp only [Counters.count]
  split <;> omega

theorem count_responses5xx_le {c : Counters} (h : c.responses5xx ≤ c.requestCounter)
    (status : Status) : (c.count status).responses5xx ≤ (c.count status).requestCounter := by
  simp only [Counters.count]
  split <;> omega

/-- **One step of a client**: a pending request stays pending, or completes. -/
theorem Counted.clientStep (hI : Counted settings s) (hO : Orderly s) {k : ℕ}
    (h : ClientStep k s t) :
    Counted settings t := by
  have hkeep : ∀ {c : Client}, s.clients[k]? = some c → ¬s.pc.Launched :=
    fun hc => (hO.phase_of_client hc).1
  cases h with
  | @serve c status hc h =>
    refine ⟨fun hl => absurd hl (hkeep hc), ?_⟩
    intro i hi
    obtain ⟨hreq, h2, h5⟩ := hI.counting i hi
    have hset := pending_set_eq hc { c with pc := .served } (by simp [Client.pending, h])
    exact ⟨by rw [← hreq, ← hset]; rfl, count_responses2xx_le h2 status,
      count_responses5xx_le h5 status⟩
  | @push c text hc h =>
    refine ⟨fun hl => absurd hl (hkeep hc), ?_⟩
    intro i hi
    obtain ⟨hreq, h2, h5⟩ := hI.counting i hi
    have hset := pending_set_eq hc { c with pc := .done } (by simp [Client.pending, h])
    exact ⟨by rw [← hreq, ← hset]; rfl, h2, h5⟩
  | @respond c text hc h =>
    refine ⟨fun hl => absurd hl (hkeep hc), ?_⟩
    intro i hi
    obtain ⟨hreq, h2, h5⟩ := hI.counting i hi
    have hset :=
      pending_set_add_one hc { c with pc := .push text } (by simp [Client.pending, h]) rfl
    refine ⟨?_, h2, h5⟩
    simp only [App.pending] at hreq hset ⊢
    omega
  | @fail c hc h =>
    refine ⟨fun hl => absurd hl (hkeep hc), ?_⟩
    intro i hi
    obtain ⟨hreq, h2, h5⟩ := hI.counting i hi
    have hset := pending_set_add_one hc { c with pc := .done }
      (by rcases h with h | h <;> simp [Client.pending, h]) rfl
    refine ⟨?_, h2, h5⟩
    simp only [App.pending] at hreq hset ⊢
    omega

theorem Counted.step (hI : Counted settings s) (hO : Orderly s) (h : Step settings s a t) :
    Counted settings t := by
  cases h with
  | main h => exact hI.mainStep hO h
  | wake h =>
    obtain ⟨site, late, hpc, rfl⟩ := hO.quiet.slept h
    exact hI.slept hpc
  | plotter h => cases h <;> exact hI.goTo rfl rfl rfl rfl rfl rfl id
  | client h => exact hI.clientStep hO h
  | signal h => cases h <;> exact hI.goTo rfl rfl rfl rfl rfl rfl id

theorem counted_of_reach (hC : ∀ s a, C s a → Uninterrupted s a) (h : (app settings).Reach C s) :
    Counted settings s :=
  h.invariant (fun _ h => counted_of_start h) fun _ _ _ hr _ hI hs =>
    hI.step (orderly_of_reach hC hr) (.of_app hs)

/-- When the clients are gone, every request has completed. -/
theorem Counting.completed_eq (hI : Counting n s) (hc : s.clients = [])
    (hleft : s.pc.callsLeft = 0) :
    s.history.completed = n := by
  have := hI.requests
  simpa [App.pending, hc, hleft] using this

/-! ### Samples -/

/-- How many requests had completed when the last sample was taken, none before the first one. -/
def History.seen (h : History) : ℕ := h.sampled.getD 0

/-- The totals remembered are those of the counters. -/
structure TraceStatsCtx.Holds (ctx : TraceStatsCtx) (c : Counters) : Prop where
  totReqPrev : ctx.totReqPrev.toInt = c.requestCounter
  tot2xxPrev : ctx.tot2xxPrev.toInt = c.responses2xx
  tot5xxPrev : ctx.tot5xxPrev.toInt = c.responses5xx

/-- The counters of the last sample are in the rows, or are about to be. -/
def Plotter.Traced (p : Plotter) (c : Counters) : Prop :=
  match p.pc with
  | .none | .done => True
  | .fopen => c = ⟨0, 0, 0⟩ ∧ p.ctx = .zero
  | .trace jobj => c.Fits ∧ jobj.Reports c ∧ Summed p.rows p.ctx
  | _ => Summed p.rows p.ctx ∧ p.ctx.Holds c

/-- While a setting of `n` requests is plotted, the rows hold the last sample, which is of the final
counters if all requests had completed. Once the plotter has been told to stop, it is about to take
such a sample, or has, or has no file. -/
structure Sampling (n : ℕ) (s : App) : Prop where
  seen_le : s.history.seen ≤ s.history.completed
  traced : ∃ c, s.plotter.Traced c ∧ (s.history.seen = n → c = s.counters)
  told : (∃ i, s.pc = .joinPlotter i) → s.plotter.pc = .poll ∨ s.plotter.pc = .done ∨
    s.history.seen = n

/-- The plotter is about to poll, or has polled since the last request completed, or has no file. -/
def InTime (s : App) : Prop :=
  s.plotter.pc = .poll ∨ s.plotter.pc = .done ∨ s.history.seen = s.history.completed

/-- A run without a quit signal in which every poll succeeds, every total fits an `int`, and the
plotter is told to stop only in time. -/
structure StoppedInTime (s : App) (a : Act) : Prop where
  uninterrupted : Uninterrupted s a
  pollSucceeds : PollSucceeds s a
  fits : ∀ jobj, a = .plotter (.poll jobj) → s.counters.requestCounter < 2 ^ 31
  inTime : ∀ i, a = .main → s.pc = .setFlag i → InTime s

/-- A step that leaves the samples and the counters alone. -/
theorem Sampling.congr (hI : Sampling n s) (hp : t.plotter = s.plotter)
    (hseen : t.history.seen = s.history.seen)
    (hcompleted : s.history.completed ≤ t.history.completed) (hc : t.counters = s.counters)
    (htold : (∃ i, t.pc = .joinPlotter i) → ∃ i, s.pc = .joinPlotter i) : Sampling n t := by
  obtain ⟨hle, ⟨c, hc', hfresh⟩, ht⟩ := hI
  refine ⟨by rw [hseen]; omega, ⟨c, by rwa [hp], by rwa [hseen, hc]⟩, ?_⟩
  intro h
  rw [hp, hseen]
  exact ht (htold h)

/-- **One step of `main`**: a setting starts with no sample and with the counters at zero. -/
theorem Sampling.mainStep (hI : ∀ i, s.pc.phase = .plotting i → Sampling (callsOf settings i).sum s)
    (hO : Orderly s) (hC : Counted settings s) (h : MainStep settings s t)
    (ha : ∀ i, s.pc = .setFlag i → InTime s) (i : ℕ) (hi : t.pc.phase = .plotting i) :
    Sampling (callsOf settings i).sum t := by
  cases h with
  | @startPlotter j h hj =>
    cases hi
    refine ⟨Nat.zero_le _, ⟨⟨0, 0, 0⟩, ⟨rfl, rfl⟩, fun _ => ?_⟩, by simp⟩
    exact (hC.zeroed (by rw [h]; trivial)).symm
  | @setFlag j h =>
    cases hi
    have hphase : s.pc.phase = .plotting i := by rw [h]; rfl
    have hcompleted : s.history.completed = (callsOf settings i).sum :=
      (hC.counting i hphase).completed_eq (hO.joining.clients_eq_nil (by simp [h, MainPc.Serving]))
        (by rw [h]; rfl)
    obtain ⟨hle, htraced, -⟩ := hI i hphase
    exact ⟨hle, htraced, fun _ => hcompleted ▸ ha i h⟩
  | called h | startClient h | joinClient h | clearClients h | allCalled h | allJoined h | exitSet h
  | exitClear h | levelHigh h | levelLow h =>
    exact (hI i (by rw [h]; exact hi)).congr rfl rfl (Nat.le_refl _) rfl (by simp)
  | @usleep site h =>
    refine (hI i ?_).congr rfl rfl (Nat.le_refl _) rfl (by simp)
    rw [h, ← hi]
    cases site <;> rfl
  | _ => simp [MainPc.phase] at hi

theorem Sampling.slept (hI : ∀ i, s.pc.phase = .plotting i → Sampling (callsOf settings i).sum s)
    {site : Site} {late : Bool} (h : s.pc = .sleeping site late) (i : ℕ)
    (hi : site.next.phase = .plotting i) :
    Sampling (callsOf settings i).sum { s with pc := site.next } := by
  cases site with
  | burst j =>
      exact (hI i (by rw [h]; exact hi)).congr rfl rfl (Nat.le_refl _) rfl (by simp [Site.next])
  | _ => simp [Site.next, MainPc.phase] at hi

/-- **One step of the plotter**: a poll sees the counters, and tracing it sums them up. -/
theorem Sampling.plotterStep (hI : Sampling n s) (hC : Counting n s) (hO : Orderly s)
    {b : PlotterAct} (h : PlotterStep b s t) (ha : StoppedInTime s (.plotter b)) :
    Sampling n t := by
  obtain ⟨hle, ⟨c, hc, hfresh⟩, htold⟩ := hI
  -- A plotter that has been told to stop and is not about to poll has seen every request.
  have hseen : s.plotter.pc ≠ .poll → s.plotter.pc ≠ .done → (∃ i, s.pc = .joinPlotter i) →
      s.history.seen = n := by
    intro hpoll hdone hi
    rcases htold hi with h | h | h
    · exact absurd h hpoll
    · exact absurd h hdone
    · exact h
  cases h with
  | opened h =>
    simp only [Plotter.Traced, h] at hc
    obtain ⟨rfl, hctx⟩ := hc
    refine ⟨hle, ⟨_, ⟨?_, ?_⟩, hfresh⟩,
      fun hi => .inr (.inr (hseen (by simp [h]) (by simp [h]) hi))⟩
    · simp only [hctx]
      exact summed_nil
    · simp only [hctx]
      exact ⟨rfl, rfl, rfl⟩
  | notOpened h => exact ⟨hle, ⟨c, trivial, hfresh⟩, fun _ => .inr (.inl rfl)⟩
  | stopClear h =>
    simp only [Plotter.Traced, h] at hc
    exact ⟨hle, ⟨c, hc, hfresh⟩, fun _ => .inl rfl⟩
  | @poll jobj h hb =>
    subst hb
    have hreports := ha.pollSucceeds jobj rfl
    simp only [Plotter.Traced, h] at hc
    refine ⟨Nat.le_refl _, ⟨s.counters, ⟨?_, hreports, hc.1⟩, fun _ => rfl⟩, ?_⟩
    · exact ⟨ha.fits jobj rfl, hC.responses2xx, hC.responses5xx⟩
    · intro hjoin
      obtain ⟨i, hi⟩ : ∃ i, s.pc = .joinPlotter i := hjoin
      have hclients : s.clients = [] := hO.joining.clients_eq_nil (by simp [hi, MainPc.Serving])
      exact .inr (.inr (hC.completed_eq hclients (by rw [hi]; rfl)))
  | @trace jobj u h hu =>
    simp only [Plotter.Traced, h] at hc
    obtain ⟨hfits, hreports, hsum⟩ := hc
    have hsum' := traceStats_sums hsum hreports s.shared.burstLevel
    have hctx : u.ctx.Holds c := by
      obtain ⟨accepted, level, hstats⟩ :=
        traceStats_reports hreports ⟨s.plotter.ctx, [], s.shared.burstLevel⟩
      obtain ⟨hreq, h2, h5⟩ := hfits
      rw [← hu, hstats]
      refine ⟨?_, ?_, ?_⟩
      · simp only [toInt_ofIntClamp]
        omega
      · simp only [toInt_ofIntClamp]
        omega
      · simp only [toInt_ofIntClamp]
        omega
    rw [hu] at hsum'
    exact ⟨hle, ⟨c, ⟨hsum', hctx⟩, hfresh⟩,
      fun hi => .inr (.inr (hseen (by simp [h]) (by simp [h]) hi))⟩
  | exitSet h | exitClear h | stopSet h | sleep h | fopenLog h | readLine h | allRead h | clear h =>
    simp only [Plotter.Traced, h] at hc
    exact ⟨hle, ⟨c, hc, hfresh⟩, fun hi => .inr (.inr (hseen (by simp [h]) (by simp [h]) hi))⟩
  | popen h => exact ⟨hle, ⟨c, trivial, hfresh⟩, fun _ => .inr (.inl rfl)⟩

/-- **One step of a client**: a request counted is one that no sample has seen completed. -/
theorem Sampling.clientStep (hI : Sampling n s) (hC : Counting n s) {k : ℕ} (h : ClientStep k s t) :
    Sampling n t := by
  cases h with
  | @serve c status hc h =>
    obtain ⟨hle, ⟨c', hc', -⟩, htold⟩ := hI
    have hpos := pending_pos hc (by simp [Client.pending, h])
    refine ⟨hle, ⟨c', hc', ?_⟩, htold⟩
    intro hn
    have hseen : s.history.seen = n := hn
    have hreq := hC.requests
    omega
  | respond | fail => exact hI.congr rfl rfl (Nat.le_succ _) rfl id
  | push => exact hI.congr rfl rfl (Nat.le_refl _) rfl id

theorem Sampling.step (hI : ∀ i, s.pc.phase = .plotting i → Sampling (callsOf settings i).sum s)
    (hO : Orderly s) (hC : Counted settings s) (ha : StoppedInTime s a) (h : Step settings s a t)
    (i : ℕ) (hi : t.pc.phase = .plotting i) : Sampling (callsOf settings i).sum t := by
  cases h with
  | main h => exact Sampling.mainStep hI hO hC h (fun i => ha.inTime i rfl) i hi
  | wake h =>
    obtain ⟨site, late, hpc, rfl⟩ := hO.quiet.slept h
    exact Sampling.slept hI hpc i hi
  | plotter h =>
    have hi' : s.pc.phase = .plotting i := by cases h <;> exact hi
    exact (hI i hi').plotterStep (hC.counting i hi') hO h ha
  | client h =>
    have hi' : s.pc.phase = .plotting i := by cases h <;> exact hi
    exact (hI i hi').clientStep (hC.counting i hi') h
  | signal h => cases h <;> exact (hI i hi).congr rfl rfl (Nat.le_refl _) rfl id

/-! ### A plotter stopped too early -/

/-- The plotter has been told to stop, and will not poll again, though a request has completed since
it last did. -/
structure Stale (n : ℕ) (s : App) : Prop where
  told : s.shared.flagExitPlottingThr = true
  clients : s.clients = []
  polls : s.plotter.pc ≠ .poll
  seen : s.history.seen ≠ n

theorem Stale.step (hI : Stale n s) (ha : a ≠ .main) (h : Step settings s a t) : Stale n t := by
  obtain ⟨htold, hclients, hpolls, hseen⟩ := hI
  cases h with
  | main => exact absurd rfl ha
  | wake h => cases h <;> exact ⟨htold, hclients, hpolls, hseen⟩
  | plotter h =>
    cases h with
    | stopClear h hf => simp [htold] at hf
    | poll h => exact absurd h hpolls
    | _ => exact ⟨htold, hclients, nofun, hseen⟩
  | client h => cases h <;> simp [hclients] at *
  | signal h => cases h <;> exact ⟨htold, hclients, hpolls, hseen⟩

/-! ### Whole runs -/

/-- No request of a setting of `n` requests is missing: all had completed at the last sample, and
the columns `responded`, `2xx` and `5xx` add up to the proxy's counters. -/
structure AllPlotted (n : ℕ) (s : App) : Prop where
  seen : s.history.seen = n
  responded : columnSum s.plotter.rows 1 = s.counters.requestCounter
  responses2xx : columnSum s.plotter.rows 2 = s.counters.responses2xx
  responses5xx : columnSum s.plotter.rows 3 = s.counters.responses5xx

theorem sampling_of_reach (h : (app settings).Reach StoppedInTime s) :
    ∀ i, s.pc.phase = .plotting i → Sampling (callsOf settings i).sum s := by
  refine h.invariant
    (I := fun s => ∀ i, s.pc.phase = .plotting i → Sampling (callsOf settings i).sum s)
    ?_ ?_
  · intro s h i hi
    simp [h.pc, MainPc.phase] at hi
  intro s a t hr ha hI hs i hi
  have hC : ∀ s a, StoppedInTime s a → Uninterrupted s a := fun _ _ h => h.uninterrupted
  exact Sampling.step hI (orderly_of_reach hC hr) (counted_of_reach hC hr) ha (.of_app hs) i hi

/-- A plotter past its loop has plotted the sample that has seen all. -/
theorem Sampling.allPlotted (hI : Sampling n s) (hH : Handshake s) (hp : s.plotter.pc.PastLoop) :
    AllPlotted n s := by
  obtain ⟨-, ⟨c, hc, hfresh⟩, htold⟩ := hI
  have hseen : s.history.seen = n := by
    rcases htold (hH.joins hp) with h | h | h
    · rw [h] at hp
      exact hp.elim
    · rw [h] at hp
      exact hp.elim
    · exact h
  obtain ⟨hsum, hctx⟩ : Summed s.plotter.rows s.plotter.ctx ∧ s.plotter.ctx.Holds c := by
    cases h : s.plotter.pc <;> rw [h] at hp <;>
      first | exact hp.elim | simpa [Plotter.Traced, h] using hc
  obtain rfl := hfresh hseen
  exact ⟨hseen, hsum.responded.trans hctx.totReqPrev, hsum.responses2xx.trans hctx.tot2xxPrev,
    hsum.responses5xx.trans hctx.tot5xxPrev⟩

/-- A test of a step: a poll finds the counters at `c`. -/
def polledAt (c : Counters) (s : App) (a : Act) : Bool :=
  match a with
  | .plotter (.poll _) => s.counters = c
  | _ => true

/-- A test of a step: the plotter has seen every request when it is told to stop. -/
def seenAtStop (s : App) (a : Act) : Bool :=
  match s.pc, a with
  | .setFlag _, .main => s.history.seen = s.history.completed
  | _, _ => true

end NginxTools.TestRateLimiting
