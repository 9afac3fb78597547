import NginxTools.TestRateLimiting.App

/-!
# The processes that are started are stopped

Every nginx that `main` launches is stopped through its pid file. `main` does so for the origin
after the label `end`, but for the proxy of a setting only inside of the loop.

## What is proved

`Tidy` — a pid file names a process that runs, every process that runs is named by its own
file, and the others were stopped by it. While no sleep inside of the loop is interrupted, the
files are those that `main`'s place says (`Paired`); an interrupted one leaves a proxy that
nothing stops any more (`Left`). So a run stops everything exactly if none is
(`stopped_iff_not_interrupted`).
-/

namespace NginxTools.TestRateLimiting

open Library InterrUsleep

variable {settings : List SettingCtx} {s t : App} {n : Nginx} {f : PidFile}

/-! ### Opening and closing -/

/-- The pid files name the processes that run, and the others were stopped by their own. -/
structure Tidy (n : Nginx) : Prop where
  running : ∀ k p, n.procs[k]? = some p → p.running = true → n.pidFile p.pidFile = some k
  stopped : ∀ p ∈ n.procs, p.running = false → p.closedBy = some p.pidFile
  named : ∀ f k, n.pidFile f = some k → n.procs[k]? = some ⟨f, true, none⟩

theorem Tidy.wrapperOpen (h : Tidy n) (hf : n.pidFile f = none) : Tidy (n.wrapperOpen f) where
  running k p hp hr := by
    simp only [Nginx.wrapperOpen] at hp ⊢
    rcases Nat.lt_or_ge k n.procs.length with hk | hk
    · rw [List.getElem?_append_left hk] at hp
      have hfile := h.running k p hp hr
      rw [Function.update_of_ne (fun he => by simp [he, hf] at hfile), hfile]
    · rw [List.getElem?_append_right hk] at hp
      rw [List.getElem?_singleton] at hp
      split at hp <;> cases hp
      rw [Function.update_self, show k = n.procs.length by omega]
  stopped p hp hr := by
    rcases List.mem_append.mp hp with hp | hp
    · exact h.stopped p hp hr
    · obtain rfl := List.mem_singleton.mp hp
      cases hr
  named g k hg := by
    simp only [Nginx.wrapperOpen] at hg ⊢
    by_cases he : g = f
    · subst he
      rw [Function.update_self] at hg
      cases hg
      simp
    · rw [Function.update_of_ne he] at hg
      have hk := h.named g k hg
      rw [List.getElem?_append_left (List.getElem?_eq_some_iff.mp hk).1, hk]

theorem wrapperClose_eq {k : ℕ} (hk : n.pidFile f = some k) : n.wrapperClose f =
    { procs := n.procs.modify k fun p => { p with running := false, closedBy := some f }
      pidFile := Function.update n.pidFile f none } := by simp [Nginx.wrapperClose, hk]

theorem pidFile_wrapperClose (n : Nginx) (f : PidFile) :
    (n.wrapperClose f).pidFile = Function.update n.pidFile f none := by
  cases hk : n.pidFile f with
  | none =>
    have hself : Function.update n.pidFile f none = n.pidFile := by
      rw [← hk, Function.update_eq_self]
    simp [Nginx.wrapperClose, hk, hself]
  | some k => rw [wrapperClose_eq hk]

theorem Tidy.wrapperClose (h : Tidy n) (f : PidFile) : Tidy (n.wrapperClose f) := by
  cases hk : n.pidFile f with
  | none => simpa [Nginx.wrapperClose, hk] using h
  | some k =>
    have hproc := h.named f k hk
    -- the process `k` is the one stopped, and the other file does not name it
    have hother : ∀ j, j ≠ k →
        (n.procs.modify k fun p => { p with running := false, closedBy := some f })[j]? =
        n.procs[j]? := by
      intro j hj
      exact List.getElem?_modify_ne _ _ hj.symm
    have hself : (n.procs.modify k fun p => { p with running := false, closedBy := some f })[k]? =
        some ⟨f, false, some f⟩ := by rw [List.getElem?_modify_eq, hproc]; rfl
    rw [wrapperClose_eq hk]
    refine ⟨?_, ?_, ?_⟩
    · intro j p hp hr
      have hj : j ≠ k := by
        intro he
        rw [he, hself] at hp
        cases hp
        cases hr
      have hfile := h.running j p (hother j hj ▸ hp) hr
      have hne : p.pidFile ≠ f := by
        intro he
        exact hj (Option.some.inj (hfile.symm.trans (he ▸ hk)))
      simpa [Function.update_of_ne hne] using hfile
    · intro p hp hr
      obtain ⟨j, hj⟩ := List.mem_iff_getElem?.mp hp
      by_cases he : j = k
      · rw [he, hself] at hj
        cases hj
        rfl
      · exact h.stopped p (List.mem_of_getElem? (hother j he ▸ hj)) hr
    · intro g j hg
      by_cases he : g = f
      · simp [he] at hg
      · simp only [Function.update_of_ne he] at hg
        have hg' := h.named g j hg
        have hj : j ≠ k := by
          intro hjk
          rw [hjk, hproc] at hg'
          cases hg'
          exact he rfl
        exact (hother j hj).trans hg'

/-- With no file left, every process has been stopped by its own. -/
theorem Tidy.all_stopped (h : Tidy n) (hnone : ∀ f, n.pidFile f = none) :
    ∀ p ∈ n.procs, p.running = false ∧ p.closedBy = some p.pidFile := by
  intro p hp
  obtain ⟨k, hk⟩ := List.mem_iff_getElem?.mp hp
  have hstop : p.running = false := by
    by_contra hr
    have := h.running k p hk (by simpa using hr)
    simp [hnone] at this
  exact ⟨hstop, h.stopped p hp hstop⟩

/-! ### The files while nothing is interrupted -/

/-- The files that are there where `main` is. -/
def MainPc.up : MainPc → PidFile → Bool
  | .prepare, _ | .openOrigin, _ | .rmpath, _ | .closeLogger, _ | .ret, _ | .returned, _
  | .terminated, _ => false
  | .usleep .origin, f | .sleeping .origin _, f | .forTest _, f | .openProxy _, f | .unlinkLog _, f
  | .endLabel, f | .closeOrigin, f => f = .origin
  | _, _ => true

/-- The files are those that `main`'s place says. -/
def Paired (s : App) : Prop :=
  s.pc = .terminated ∨ (s.pc = .prepare ∧ s.nginx.procs = []) ∨
    (s.pc ≠ .prepare ∧ Tidy s.nginx ∧ ∀ f, (s.nginx.pidFile f).isSome = s.pc.up f)

theorem paired_of_start (h : s.Start) : Paired s := .inr (.inl ⟨h.pc, h.procs⟩)

theorem Paired.files (h : Paired s) (ht : s.pc ≠ .terminated) (hp : s.pc ≠ .prepare) :
    Tidy s.nginx ∧ ∀ f, (s.nginx.pidFile f).isSome = s.pc.up f := by
  rcases h with h | ⟨h, -⟩ | ⟨-, h⟩
  · exact absurd h ht
  · exact absurd h hp
  · exact h

/-- A step that opens and closes nothing, to a place with the same files. -/
theorem Paired.goTo (h : Paired s) {pc : MainPc} (ht : s.pc ≠ .terminated) (hp : s.pc ≠ .prepare)
    (hpc : t.pc = pc) (hp' : pc ≠ .prepare) (hn : t.nginx = s.nginx) (hup : pc.up = s.pc.up) :
    Paired t := by
  obtain ⟨htidy, hfiles⟩ := h.files ht hp
  refine .inr (.inr ⟨hpc ▸ hp', hn ▸ htidy, fun f => ?_⟩)
  rw [hn, hpc, hup]
  exact hfiles f

/-- **One step of `main`**: it opens and closes what its place says. -/
theorem Paired.mainStep (hI : Paired s) (h : MainStep settings s t) : Paired t := by
  cases h with
  | prepare h =>
    rcases hI with h' | ⟨-, hprocs⟩ | ⟨h', -⟩
    · rw [h] at h'; cases h'
    · refine .inr (.inr ⟨by simp, ⟨?_, ?_, ?_⟩, fun _ => rfl⟩)
      · intro k p hp
        simp [Nginx.rmpath, hprocs] at hp
      · intro p hp
        simp [Nginx.rmpath, hprocs] at hp
      · intro f k hk
        cases hk
    · exact absurd h h'
  | openOrigin h =>
    obtain ⟨htidy, hfiles⟩ := hI.files (by simp [h]) (by simp [h])
    have hnone : s.nginx.pidFile .origin = none := by simpa [h, MainPc.up] using hfiles .origin
    refine .inr (.inr ⟨by simp, htidy.wrapperOpen hnone, fun f => ?_⟩)
    have := hfiles f
    cases f <;> simp_all [Nginx.wrapperOpen, MainPc.up]
  | openProxy h =>
    obtain ⟨htidy, hfiles⟩ := hI.files (by simp [h]) (by simp [h])
    have hnone : s.nginx.pidFile .proxy = none := by simpa [h, MainPc.up] using hfiles .proxy
    refine .inr (.inr ⟨by simp, htidy.wrapperOpen hnone, fun f => ?_⟩)
    have := hfiles f
    cases f <;> simp_all [Nginx.wrapperOpen, MainPc.up]
  | closeProxy h =>
    obtain ⟨htidy, hfiles⟩ := hI.files (by simp [h]) (by simp [h])
    refine .inr (.inr ⟨by simp, htidy.wrapperClose _, fun f => ?_⟩)
    have := hfiles f
    cases f <;> simp_all [pidFile_wrapperClose, MainPc.up]
  | closeOrigin h =>
    obtain ⟨htidy, hfiles⟩ := hI.files (by simp [h]) (by simp [h])
    refine .inr (.inr ⟨by simp, htidy.wrapperClose _, fun f => ?_⟩)
    have := hfiles f
    cases f <;> simp_all [pidFile_wrapperClose, MainPc.up]
  | rmpath h =>
    obtain ⟨htidy, hfiles⟩ := hI.files (by simp [h]) (by simp [h])
    have hnone : s.nginx.rmpath = s.nginx := by
      have hfile : s.nginx.pidFile = fun _ => none := by
        funext f
        simpa [h, MainPc.up] using hfiles f
      rw [Nginx.rmpath, ← hfile]
    exact .inr (.inr ⟨by simp, by rw [hnone]; exact htidy, fun _ => rfl⟩)
  | usleep h =>
    refine hI.goTo (by simp [h]) (by simp [h]) rfl (by simp) rfl ?_
    rename_i site
    cases site <;> simp [h] <;> rfl
  | startTerminates | clearTerminates | retTerminates => exact .inl rfl
  | _ h => exact hI.goTo (by simp [h]) (by simp [h]) rfl (by simp) rfl (by rw [h]; rfl)

/-- An uninterrupted sleep changes no files. -/
theorem Paired.slept (hI : Paired s) {site : Site} {late : Bool} (h : s.pc = .sleeping site late) :
    Paired { s with pc := site.next } := by
  refine hI.goTo (by simp [h]) (by simp [h]) rfl (by cases site <;> simp [Site.next]) rfl ?_
  cases site <;> rw [h] <;> rfl

/-! ### A sleep that is interrupted inside of the loop -/

/-- `interr_usleep` returns `EINTR` while the proxy of a setting runs. -/
def InterruptedInLoop (s : App) (a : Act) : Prop :=
  a = .wake EINTR ∧ ∃ site late, s.pc = .sleeping site late ∧ site ≠ .origin

/-- A proxy runs that nothing will stop any more. -/
structure Left (s : App) : Prop where
  pc : s.pc.AfterLoop
  proxy : ∃ k, s.nginx.procs[k]? = some ⟨.proxy, true, none⟩ ∧ s.nginx.pidFile .origin ≠ some k

/-- After the loop only the origin is stopped. -/
theorem Left.mainStep (hI : Left s) (h : MainStep settings s t) : Left t := by
  obtain ⟨hpc, k, hk, hne⟩ := hI
  cases h with
  | endLabel h | closeLogger h | returns h | retTerminates h => exact ⟨trivial, k, hk, hne⟩
  | rmpath h => exact ⟨trivial, k, hk, by simp [Nginx.rmpath]⟩
  | closeOrigin h =>
    refine ⟨trivial, k, ?_, by simp [pidFile_wrapperClose]⟩
    cases ho : s.nginx.pidFile .origin with
    | none => simpa [Nginx.wrapperClose, ho] using hk
    | some j =>
      have hj : j ≠ k := fun he => hne (he ▸ ho)
      rw [wrapperClose_eq ho]
      exact (List.getElem?_modify_ne _ _ hj).trans hk
  | _ h => simp [h, MainPc.AfterLoop] at hpc

theorem left_of_interrupted {site : Site} {late : Bool} (hI : Paired s)
    (h : s.pc = .sleeping site late)
    (hsite : site ≠ .origin) : Left { s with pc := .endLabel } := by
  obtain ⟨htidy, hfiles⟩ := hI.files (by simp [h]) (by simp [h])
  have hup : s.pc.up .proxy = true := by
    rw [h]
    cases site with
    | origin => exact absurd rfl hsite
    | _ => rfl
  obtain ⟨k, hk⟩ := Option.isSome_iff_exists.mp ((hfiles .proxy).trans hup)
  refine ⟨trivial, k, htidy.named _ _ hk, fun ho => ?_⟩
  have := htidy.named _ _ ho
  rw [htidy.named _ _ hk] at this
  cases this

theorem Paired.congr (hI : Paired s) (h : SameMain s t) : Paired t := by
  unfold Paired
  rw [h.pc, h.nginx]
  exact hI

theorem Left.congr (hI : Left s) (h : SameMain s t) : Left t := ⟨h.pc ▸ hI.pc, h.nginx ▸ hI.proxy⟩

/-- **One step**: the files stay those that `main`'s place says, unless it is interrupted inside of
the loop, when a proxy is left. -/
theorem Paired.step (hI : Paired s) {a : Act} (hs : Step settings s a t) :
    ¬InterruptedInLoop s a ∧ Paired t ∨ InterruptedInLoop s a ∧ Left t := by
  rcases hs.main_cases with ⟨rfl, hm⟩ | ⟨rc, rfl, hw⟩ | ⟨⟨-, hwake⟩, hsame⟩
  · refine .inl ⟨fun hi => ?_, hI.mainStep hm⟩
    cases hi.1
  · cases hw with
    | slept h hrc =>
      refine .inl ⟨fun hi => ?_, hI.slept h⟩
      rw [hrc] at hi
      exact absurd hi.1 (by simp [EINTR])
    | @interrupted site late h hrc hu =>
      by_cases hsite : site = .origin
      · refine .inl ⟨fun hi => ?_, ?_⟩
        · obtain ⟨-, site', late', h', hne⟩ := hi
          rw [h] at h'
          cases h'
          exact hne hsite
        · exact hI.goTo (by simp [h]) (by simp [h]) rfl (by simp) rfl (by rw [h, hsite]; rfl)
      · exact .inr ⟨⟨by rw [hrc], site, late, h, hsite⟩, left_of_interrupted hI h hsite⟩
  · exact .inl ⟨fun hi => hwake _ hi.1, hI.congr hsame⟩

theorem Left.step (hI : Left s) {a : Act} (hs : Step settings s a t) : Left t := by
  rcases hs.main_cases with ⟨rfl, hm⟩ | ⟨rc, rfl, hw⟩ | ⟨-, hsame⟩
  · exact hI.mainStep hm
  · have hpc := hI.pc
    cases hw with
    | slept h | interrupted h => simp [h, MainPc.AfterLoop] at hpc
  · exact hI.congr hsame

/-! ### Whole runs -/

/-- A run has no sleep that is interrupted inside of the loop, and the files are as they should be,
or a proxy is left. -/
theorem paired_or_left {s₀ : App} {as : List Act} (h₀ : s₀.Start)
    (h : (app settings).Run Any s₀ as s) :
    (app settings).Run (fun s a => ¬InterruptedInLoop s a) s₀ as s ∧ Paired s ∨
      ¬(app settings).Run (fun s a => ¬InterruptedInLoop s a) s₀ as s ∧ Left s := by
  refine h.good_or_bad (fun s a t hI hs => ?_)
    (fun s a t hI hs => hI.step (.of_app hs)) (paired_of_start h₀)
  simpa using hI.step (.of_app hs)

/-- Every process that was started has been stopped, by its own pid file. -/
def AllStopped (s : App) : Prop :=
  ∀ p ∈ s.nginx.procs, p.running = false ∧ p.closedBy = some p.pidFile

/-- **The processes that are started are stopped**: in a run that returns, they all are exactly if
no sleep is interrupted inside of the loop; and in every run no proxy runs when another is
started. -/
theorem stopped_iff_not_interrupted (settings : List SettingCtx) :
    (∀ (s₀ s : App) (as : List Act), s₀.Start → (app settings).Run Any s₀ as s → s.pc = .returned →
      (AllStopped s ↔ (app settings).Run (fun s a => ¬InterruptedInLoop s a) s₀ as s)) ∧
    (∀ (s : App) (i : ℕ), (app settings).Reach Any s → s.pc = .openProxy i →
      ∀ p ∈ s.nginx.procs, p.pidFile = .proxy → p.running = false) := by
  constructor
  · intro s₀ s as h₀ h hret
    rcases paired_or_left h₀ h with ⟨hrun, hI⟩ | ⟨hrun, -, k, hk, -⟩
    · obtain ⟨htidy, hfiles⟩ := hI.files (by simp [hret]) (by simp [hret])
      have hnone : ∀ f, s.nginx.pidFile f = none := by
        intro f
        simpa [hret, MainPc.up] using hfiles f
      exact iff_of_true (htidy.all_stopped hnone) hrun
    · exact iff_of_false (fun hall => nomatch (hall _ (List.mem_of_getElem? hk)).1) hrun
  · intro s i hreach hpc p hp hf
    obtain ⟨s₀, as, h₀, h⟩ := hreach
    rcases paired_or_left h₀ h with ⟨-, hI⟩ | ⟨-, hI, -⟩
    · obtain ⟨htidy, hfiles⟩ := hI.files (by simp [hpc]) (by simp [hpc])
      have hnone : s.nginx.pidFile .proxy = none := by simpa [hpc, MainPc.up] using hfiles .proxy
      obtain ⟨k, hk⟩ := List.mem_iff_getElem?.mp hp
      by_contra hr
      have := htidy.running k p hk (by simpa using hr)
      rw [hf, hnone] at this
      cases this
    · rw [hpc] at hI
      exact hI.elim

/-- A quit signal while `main` waits for the first proxy: `main` returns, and the proxy runs on. -/
theorem proxy_left_running :
    ¬∀ (s₀ s : App) (as : List Act), s₀.Start → (app [⟨[1]⟩]).Run Any s₀ as s →
    s.pc = .returned → AllStopped s := by
  intro h
  let as : List Act := [.main, .main, .main, .wake 0, .main, .main, .main, .signal, .unblock,
    .wake EINTR, .main, .main, .main, .main, .main]
  obtain ⟨s, hs, hpc, hprocs⟩ : ∃ s, (app [⟨[1]⟩]).exec .fresh as = some s ∧ s.pc = .returned ∧
      s.nginx.procs = [⟨.origin, false, some .origin⟩, ⟨.proxy, true, none⟩] := ⟨_, rfl, rfl, rfl⟩
  have := (h _ s as start_fresh (Sys.run_of_exec hs) hpc ⟨.proxy, true, none⟩ (by simp [hprocs])).1
  cases this

end NginxTools.TestRateLimiting
