import NginxTools.Library.LazyInit
import NginxTools.TestRateLimiting.App

/-!
# The global initialisation of libcurl

`libcurl_wrap.h` has an application call `libcurl_wrap_init_global` once, at its beginning. `main`
does not; every request begins with `curl_easy_init`, which makes up for it:

    if(!initialized) {
      result = curl_global_init(CURL_GLOBAL_DEFAULT);

where `curl_global_init` begins with `if(initialized++) return CURLE_OK;` and goes on to
initialise what all handles share. There is no lock, and the requests are made by `plottingThr` and
by the client threads.

## The model

`Curled` is the application together with libcurl's counter (`Library.LazyInit`). The plotter and
the clients are its threads: one that is about to request may read the counter, and what the
application sees of the request comes once the thread is past `curl_easy_init`. The initialisation
itself is taken to succeed.

## What is proved

`init_safe_iff` — as long as a thread reads the counter only while no other thread is at work on the
initialisation, it is executed at most once, and nobody gets past `curl_easy_init` meanwhile; and
from any state in which a thread reads it otherwise the run can at once go wrong.
`init_safe_of_ready` — a completed `libcurl_wrap_init_global` before the threads start would exclude
this.
-/

namespace NginxTools.TestRateLimiting

open Library

/-- The threads that make requests. -/
inductive Requester where
  /-- `plottingThr`. -/
  | plotter
  /-- The client thread of an index. -/
  | client (k : ℕ)
deriving DecidableEq

/-- The application, and libcurl's `initialized` with the threads in `curl_easy_init`. -/
structure Curled where
  app : App
  curl : LazyInit Requester

/-- A thread is in `libcurl_wrap_cli_request`, with nothing sent yet. -/
def App.requesting (s : App) : Requester → Bool
  | .plotter => match s.plotter.pc with | .poll => true | _ => false
  | .client k => (s.clients[k]?).any fun c => c.pc = .requesting

/-- The thread whose request takes its course by an action. -/
def App.requester? (s : App) : Act → Option Requester
  | .plotter (.poll _) => some .plotter
  | .client k _ => if s.requesting (.client k) then some (.client k) else none
  | _ => none

/-- The steps of the application, and of `curl_easy_init`. -/
inductive CurledAct where
  | app (a : Act)
  | curl (a : LazyInit.Act Requester)

/-- A step of the application: a request takes its course only past `curl_easy_init`. -/
def Curled.appStep (settings : List SettingCtx) (s : Curled) (a : Act) : Option Curled :=
  match s.app.requester? a with
  | none => (step settings s.app a).map fun app => { s with app }
  | some t => (step settings s.app a).bind fun app =>
      (LazyInit.step s.curl (.leave t)).map fun curl => ⟨app, curl⟩

/-- A step of `curl_easy_init`: a thread enters it when it is about to request. -/
def Curled.curlStep (s : Curled) (a : LazyInit.Act Requester) : Option Curled :=
  match a with
  | .test t =>
    if s.app.requesting t then
      (LazyInit.step s.curl (.test t)).map fun curl => { s with curl }
    else none
  | .leave _ => none
  | a => (LazyInit.step s.curl a).map fun curl => { s with curl }

/-- The application with the initialisation made by its requests. -/
def curled (settings : List SettingCtx) : Sys Curled CurledAct where
  init s := s.app.Start ∧ s.curl = .fresh
  step s
    | .app a => s.appStep settings a
    | .curl a => s.curlStep a

variable {settings : List SettingCtx}

/-- A step of the application leaves the counter alone; a request that takes its course leaves
libcurl. -/
theorem curl_of_appStep {s s' : Curled} {a : Act} (h : s.appStep settings a = some s') :
    s'.curl = s.curl ∨ ∃ t, LazyInit.Step s.curl (.leave t) s'.curl := by
  simp only [Curled.appStep] at h
  split at h
  · obtain ⟨app, -, rfl⟩ := Option.map_eq_some_iff.mp h
    exact .inl rfl
  · next t _ =>
    obtain ⟨app, -, h⟩ := Option.bind_eq_some_iff.mp h
    obtain ⟨curl, hc, rfl⟩ := Option.map_eq_some_iff.mp h
    exact .inr ⟨t, .of_step hc⟩

theorem curl_of_curlStep {s s' : Curled} {b : LazyInit.Act Requester} (h : s.curlStep b = some s') :
    LazyInit.Step s.curl b s'.curl := by
  cases b with
  | test t =>
    simp only [Curled.curlStep] at h
    split_ifs at h
    obtain ⟨curl, hc, rfl⟩ := Option.map_eq_some_iff.mp h
    exact .of_step hc
  | leave t => simp [Curled.curlStep] at h
  | load t | store t | finish t =>
    obtain ⟨curl, hc, rfl⟩ := Option.map_eq_some_iff.mp h
    exact .of_step hc

/-- A thread reads the counter only while no other is at work on the initialisation. -/
def ReadsAlone (s : Curled) (a : CurledAct) : Prop := ∀ b, a = .curl b → LazyInit.Alone s.curl b

/-- Every step of `curl_easy_init` from `test` on is one of the application with it. -/
theorem curled_of_inner {s : Curled} {c : LazyInit Requester}
    {bs : List (LazyInit.Act Requester)} (h : (LazyInit.sys Requester).Run Any s.curl bs c)
    (hbs : ∀ b ∈ bs, b.Inner) : (curled settings).Run Any s (bs.map .curl) ⟨s.app, c⟩ := by
  induction h with
  | nil => exact .nil
  | @snoc c d bs b _ _ hs ih =>
    rw [List.map_append]
    refine (ih fun x hx => hbs x (List.mem_append_left _ hx)).snoc trivial ?_
    have hb : b.Inner := hbs b (by simp)
    have hs : LazyInit.step c b = some d := hs
    show Curled.curlStep ⟨s.app, c⟩ b = _
    cases b with
    | load t | store t => simp [Curled.curlStep, hs]
    | test t | finish t | leave t => exact hb.elim

/-! ### When the initialisation is safe -/

/-- What every allowed step of `curl_easy_init` keeps, and leaving keeps, holds of the counter in
every reachable state. -/
theorem curl_invariant {C : Curled → CurledAct → Prop} {I : LazyInit Requester → Prop}
    (hfresh : I .fresh) (hleave : ∀ c c' t, I c → LazyInit.Step c (.leave t) c' → I c')
    (hstep : ∀ s b c', C s (.curl b) → I s.curl → LazyInit.Step s.curl b c' → I c') {s : Curled}
    (h : (curled settings).Reach C s) : I s.curl := by
  refine h.invariant (I := fun s => I s.curl) ?_ ?_
  · rintro s ⟨-, hs⟩
    rwa [hs]
  · intro s a s' _ hC hI hs
    cases a with
    | app a =>
      rcases curl_of_appStep hs with heq | ⟨t, hl⟩
      · rwa [heq]
      · exact hleave _ _ t hI hl
    | curl b => exact hstep s b _ hC hI (curl_of_curlStep hs)

theorem inv_of_reads_alone {s : Curled} (h : (curled settings).Reach ReadsAlone s) :
    LazyInit.Inv s.curl := by
  refine curl_invariant .fresh ?_ ?_ h
  · intro c c' t hI hl
    exact hI.step (fun u hu => by simp [LazyInit.Act.reader?] at hu) hl
  · intro s b c' hC hI hb
    exact hI.step (hC b rfl) hb

theorem curl_counted_of_reach {s : Curled} (h : (curled settings).Reach Any s) :
    LazyInit.Counted s.curl := by
  refine curl_invariant ?_ ?_ ?_ h
  · intro t ht
    simp [LazyInit.fresh] at ht
  · exact fun c c' t hI hl => hI.step hl
  · exact fun s b c' _ hI hb => hI.step hb

/-- **When the lazy initialisation is safe**: in every run in which a thread reads the counter only
while no other is at work, it is executed at most once and nobody gets past it meanwhile; and after
a step that reads the counter otherwise, the run can at once go wrong. -/
theorem init_safe_iff (settings : List SettingCtx) :
    (∀ s, (curled settings).Reach ReadsAlone s → s.curl.Safe) ∧
    (∀ s s₁ a, (curled settings).Reach Any s → (curled settings).step s a = some s₁ →
      ¬ ReadsAlone s a → ∃ as s', (curled settings).Run Any s₁ as s' ∧ ¬ s'.curl.Safe) := by
  constructor
  · intro s h
    exact (inv_of_reads_alone h).safe
  · intro s s₁ a h hs ha
    obtain ⟨b, rfl, hb⟩ : ∃ b, a = .curl b ∧ ¬ LazyInit.Alone s.curl b := by
      simpa [ReadsAlone] using ha
    obtain ⟨bs, c, hbs, hrun, hc⟩ :=
      LazyInit.doomed_of_not_alone (curl_counted_of_reach h) (curl_of_curlStep hs) hb
    exact ⟨_, _, curled_of_inner hrun hbs, hc⟩

/-- **What the header asks for would do**: when `libcurl_wrap_init_global` has been executed before
any thread requests, every state is safe. -/
theorem init_safe_of_ready {C : Curled → CurledAct → Prop} {s s' : Curled} {as : List CurledAct}
    (hr : LazyInit.Ready s.curl) (h : (curled settings).Run C s as s') : s'.curl.Safe := by
  have hready : LazyInit.Ready s'.curl := by
    refine h.invariant (I := fun s => LazyInit.Ready s.curl) ?_ hr
    intro s a s' _ hI hs
    cases a with
    | app a =>
      rcases curl_of_appStep hs with heq | ⟨t, hl⟩
      · rwa [heq]
      · exact hI.step hl
    | curl b => exact hI.step (curl_of_curlStep hs)
  exact hready.safe

/-- One setting with one request: the client gets past `curl_easy_init` while the plotter is in the
initialisation. -/
theorem client_passes_during_init : ¬ ∀ s, (curled [⟨[1]⟩]).Reach Any s → s.curl.Safe := by
  intro h
  let as : List CurledAct := [.app .main, .app .main, .app .main, .app (.wake 0), .app .main,
    .app .main, .app .main, .app (.wake 0), .app .main, .app .main, .app .main, .app .main,
    .app (.plotter (.fopen true)), .app (.plotter .next), .app (.plotter .next),
    .curl (.test .plotter), .curl (.load .plotter), .curl (.store .plotter),
    .curl (.test (.client 0))]
  obtain ⟨s, hs, hpast, hbody⟩ : ∃ s, (curled [⟨[1]⟩]).exec ⟨.fresh, .fresh⟩ as = some s ∧
      s.curl.pc (.client 0) = .past ∧ s.curl.pc .plotter = .body := ⟨_, rfl, rfl, rfl⟩
  exact (h s ⟨_, as, ⟨start_fresh, rfl⟩, Sys.run_of_exec hs⟩).2 _ _ hpast hbody

end NginxTools.TestRateLimiting
