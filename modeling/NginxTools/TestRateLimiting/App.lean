import NginxTools.InterrUsleep.Protocol
import NginxTools.TestRateLimiting.TraceStats

/-!
# test-rate-limiting

`main` goes through the settings. For each it launches a proxy, starts `plottingThr`, which
samples the proxy's status, and client threads, one for each request; joins the clients,
waits for the delayed requests, stops and joins `plottingThr`, and closes the proxy. A
quit signal makes every `interr_usleep` from then on return `EINTR`, on which `main` jumps to
its end:

    while (!flag_exit && burst_level > 0) {
        if (interr_usleep(interr_usleep_uptr.get(), 100 * 1000) == EINTR)
            goto end;
    }

    // Join plotter thread
    flag_exit_plotting_thr = 1;
    plottingThread.join();
    if (interr_usleep(interr_usleep_uptr.get(), 2 * 1000 * 1000) == EINTR)
        goto end;

    // Kill nginx-proxy
    nginx_wrapper_close(NGINX_PIDFILE, LOG_CTX_GET());

## The model

The state is split by who writes it: `main`'s variables, the threads, what they share, and the
world outside. `main`, `plottingThr` and each client have their own program counters, a step being
one access to what is shared, one thread started or joined, or one process opened or closed.
What `interr_usleep` returns is constrained by the contract its protocol is proved to meet
(`InterrUsleep.Outcome`). The function of a setting is given by the sizes of its calls of
`http_get_nginx`; the pauses between them only take time. Of the status documents, the responses
and the failures of requests, anything may come.

`History` is no part of the program: it counts and collects what the properties speak about.

## What is proved

The steps are inverted once, by who makes them (`MainStep`, `PlotterStep`, `ClientStep`,
`SignalStep`); each property is then a case analysis on the steps that touch what it is about.
-/

namespace NginxTools.TestRateLimiting

open Library InterrUsleep

/-! ### Processes -/

/-- The two pid files. -/
inductive PidFile where
  /-- `ORIGIN_PIDFILE`. -/
  | origin
  /-- `NGINX_PIDFILE`. -/
  | proxy
deriving DecidableEq

/-- An nginx process that was started. -/
structure Proc where
  /-- The pid file its configuration names. -/
  pidFile : PidFile
  /-- Whether it runs. -/
  running : Bool
  /-- The pid file by which `nginx_wrapper_close` has stopped it. -/
  closedBy : Option PidFile
deriving DecidableEq

/-- The processes, and the pid files in `TEST_DIR` with the number of the process each holds. -/
structure Nginx where
  procs : List Proc
  pidFile : PidFile → Option ℕ

/-- `nginx_wrapper_open`, the pid file having been written when it is needed. -/
def Nginx.wrapperOpen (n : Nginx) (f : PidFile) : Nginx where
  procs := n.procs ++ [⟨f, true, none⟩]
  pidFile := Function.update n.pidFile f (some n.procs.length)

/-- `nginx_wrapper_close`: without the file it does nothing; nginx removes its file when it
stops. -/
def Nginx.wrapperClose (n : Nginx) (f : PidFile) : Nginx :=
  match n.pidFile f with
  | none => n
  | some k =>
    { procs := n.procs.modify k fun p => { p with running := false, closedBy := some f }
      pidFile := Function.update n.pidFile f none }

/-- `utils_rmpath(TEST_DIR)`, as far as the pid files go. -/
def Nginx.rmpath (n : Nginx) : Nginx := { n with pidFile := fun _ => none }

/-! ### Threads -/

/-- A setting: the sizes of the calls of `http_get_nginx` that its `fxn` makes. -/
structure SettingCtx where
  fxn : List ℕ

/-- Where `main` calls `interr_usleep`. -/
inductive Site where
  /-- After launching the origin. -/
  | origin
  /-- After launching a setting's proxy. -/
  | proxy (i : ℕ)
  /-- Waiting for a setting's delayed requests. -/
  | burst (i : ℕ)
  /-- After a setting's plotter has been joined. -/
  | settle (i : ℕ)
deriving DecidableEq

/-- Where `main` is. -/
inductive MainPc where
  | prepare
  | openOrigin
  | usleep (site : Site)
  /-- In `interr_usleep`; `late` when its flag was set at the call. -/
  | sleeping (site : Site) (late : Bool)
  | forTest (i : ℕ)
  | openProxy (i : ℕ)
  | clearFlag (i : ℕ)
  | clearLevel (i : ℕ)
  | startPlotter (i : ℕ)
  /-- In `setting_ctx->fxn`, with the calls that are left and the threads left of the first. -/
  | fxn (i : ℕ) (calls : List ℕ)
  | join (i cli : ℕ)
  | clearClients (i : ℕ)
  | testExit (i : ℕ)
  | testLevel (i : ℕ)
  | setFlag (i : ℕ)
  | joinPlotter (i : ℕ)
  | closeProxy (i : ℕ)
  | unlinkLog (i : ℕ)
  | endLabel
  | closeOrigin
  | rmpath
  | closeLogger
  /-- About to return, and to destroy the threads. -/
  | ret
  | returned
  /-- `std::terminate`: a joinable thread was destroyed or assigned to. -/
  | terminated
deriving DecidableEq

/-- `main` has left the loop. -/
def MainPc.AfterLoop : MainPc → Prop
  | .endLabel | .closeOrigin | .rmpath | .closeLogger | .ret | .returned | .terminated => True
  | _ => False

/-- Where `main` goes on after a sleep that was not interrupted. -/
def Site.next : Site → MainPc
  | .origin => .forTest 0
  | .proxy i => .clearFlag i
  | .burst i => .testExit i
  | .settle i => .closeProxy i

/-- A line of the clients' statistics, with the setting it was measured for. -/
structure Line where
  text : String
  setting : ℕ
deriving DecidableEq

/-- Where a client thread is, in `curl_req`. -/
inductive ClientPc where
  /-- The request is on its way. -/
  | requesting
  /-- The proxy has counted it. -/
  | served
  /-- The request has succeeded, and the line is to be pushed. -/
  | push (text : String)
  | done
deriving DecidableEq

/-- A client thread. -/
structure Client where
  pc : ClientPc
  /-- It has been joined. -/
  joined : Bool
  /-- The setting it requests for. -/
  setting : ℕ
deriving DecidableEq

/-- Where `plottingThr` is. -/
inductive PlotterPc where
  /-- There is no such thread. -/
  | none
  | fopen
  | testExit
  | testStop
  | poll
  | trace (jobj : Json)
  | sleep
  | fopenLog
  /-- About to read the line `k` of `clients_stats`, if there is one. -/
  | readLine (k : ℕ)
  | clear
  | popen
  | done

/-- `plottingThr`, with its file. -/
structure Plotter where
  pc : PlotterPc
  /-- `trace_stats_ctx`. -/
  ctx : TraceStatsCtx
  /-- The rows of `stats.dat`. -/
  rows : List (List Int32)

/-- The variables that the threads share. -/
structure Shared where
  /-- `flag_exit`. -/
  flagExit : Bool
  /-- `flag_exit_plotting_thr`. -/
  flagExitPlottingThr : Bool
  /-- `burst_level`. -/
  burstLevel : Int32
  /-- `clients_stats`. -/
  clientsStats : List Line

/-- What has happened, as far as a property speaks of it; the counts are of the current setting. -/
structure History where
  /-- Every line ever pushed. -/
  pushed : List Line
  /-- The requests that have completed. -/
  completed : ℕ
  /-- How many had when the last sample was taken. -/
  sampled : Option ℕ

/-- The application and the world around it. -/
structure App where
  /-- Where `main` is. -/
  pc : MainPc
  /-- `plottingThread.joinable()`. -/
  joinable : Bool
  /-- `clients_threads`. -/
  clients : List Client
  plotter : Plotter
  shared : Shared
  /-- The flag of `interr_usleep`'s context. -/
  unblocked : Bool
  /-- The signal handlers that have set `flag_exit` and not called `interr_usleep_unblock` yet. -/
  handlers : ℕ
  nginx : Nginx
  /-- `CLIENT_STATSLOG`, if there is one. -/
  clientLog : Option (List Line)
  /-- The counters of the proxy. -/
  counters : Counters
  history : History

/-- `main` and the world before it starts: `TEST_DIR` may hold anything. -/
structure App.Start (s : App) : Prop where
  pc : s.pc = .prepare
  joinable : s.joinable = false
  clients : s.clients = []
  plotter : s.plotter.pc = .none
  flagExit : s.shared.flagExit = false
  clientsStats : s.shared.clientsStats = []
  unblocked : s.unblocked = false
  handlers : s.handlers = 0
  procs : s.nginx.procs = []
  pushed : s.history.pushed = []

/-- `main` and the world before it starts, `TEST_DIR` holding nothing. -/
def App.fresh : App where
  pc := .prepare
  joinable := false
  clients := []
  plotter := ⟨.none, .zero, []⟩
  shared := ⟨false, false, 0, []⟩
  unblocked := false
  handlers := 0
  nginx := ⟨[], fun _ => none⟩
  clientLog := none
  counters := ⟨0, 0, 0⟩
  history := ⟨[], 0, none⟩

theorem start_fresh : App.fresh.Start := by constructor <;> rfl

/-! ### `main` -/

/-- The threads are started with nothing counted yet. -/
def History.restart (h : History) : History := { h with completed := 0, sampled := none }

/-- `std::thread(plottingThr, ..)`. -/
def Plotter.start (p : Plotter) : Plotter := { p with pc := .fopen, ctx := .zero }

/-- The calls of a setting's `fxn`. -/
def callsOf (settings : List SettingCtx) (i : ℕ) : List ℕ :=
  ((settings[i]?).map SettingCtx.fxn).getD []

/-- Some thread of `clients_threads` has not been joined. -/
def App.unjoined (s : App) : Bool := s.clients.any fun c => !c.joined

/-- The next step of `main`, outside of `interr_usleep`. -/
def mainStep (settings : List SettingCtx) (s : App) : Option App :=
  match s.pc with
  | .prepare => some { s with pc := .openOrigin, nginx := s.nginx.rmpath, clientLog := none }
  | .openOrigin => some { s with pc := .usleep .origin, nginx := s.nginx.wrapperOpen .origin }
  | .usleep site => some { s with pc := .sleeping site s.unblocked }
  | .sleeping .. => none
  | .forTest i => some { s with pc := if i < settings.length then .openProxy i else .endLabel }
  | .openProxy i =>
    some { s with
      pc := .usleep (.proxy i), nginx := s.nginx.wrapperOpen .proxy, counters := ⟨0, 0, 0⟩ }
  | .clearFlag i =>
      some { s with pc := .clearLevel i, shared := { s.shared with flagExitPlottingThr := false } }
  | .clearLevel i =>
      some { s with pc := .startPlotter i, shared := { s.shared with burstLevel := 0 } }
  | .startPlotter i =>
    if s.joinable then some { s with pc := .terminated }
    else some { s with
      pc := .fxn i (callsOf settings i)
      joinable := true
      plotter := s.plotter.start
      history := s.history.restart }
  | .fxn i [] => some { s with pc := .join i 0 }
  | .fxn i (0 :: calls) => some { s with pc := .fxn i calls }
  | .fxn i ((n + 1) :: calls) =>
    some { s with pc := .fxn i (n :: calls), clients := s.clients ++ [⟨.requesting, false, i⟩] }
  | .join i cli =>
    match s.clients[cli]? with
    | none => some { s with pc := .clearClients i }
    | some c =>
      if c.pc = .done then
        some { s with
          pc := .join i (cli + 1), clients := s.clients.set cli { c with joined := true } }
      else none
  | .clearClients i =>
    if s.unjoined then some { s with pc := .terminated }
    else some { s with pc := .testExit i, clients := [] }
  | .testExit i => some { s with pc := if s.shared.flagExit then .setFlag i else .testLevel i }
  | .testLevel i =>
      some { s with pc := if s.shared.burstLevel > 0 then .usleep (.burst i) else .setFlag i }
  | .setFlag i =>
      some { s with pc := .joinPlotter i, shared := { s.shared with flagExitPlottingThr := true } }
  | .joinPlotter i =>
    match s.plotter.pc with
    | .done =>
        some { s with
          pc := .usleep (.settle i), joinable := false, plotter := { s.plotter with pc := .none } }
    | _ => none
  | .closeProxy i => some { s with pc := .unlinkLog i, nginx := s.nginx.wrapperClose .proxy }
  | .unlinkLog i => some { s with pc := .forTest (i + 1), clientLog := none }
  | .endLabel => some { s with pc := .closeOrigin, shared := { s.shared with flagExit := true } }
  | .closeOrigin => some { s with pc := .rmpath, nginx := s.nginx.wrapperClose .origin }
  | .rmpath => some { s with pc := .closeLogger, nginx := s.nginx.rmpath, clientLog := none }
  | .closeLogger => some { s with pc := .ret }
  | .ret => some { s with pc := if s.joinable ∨ s.unjoined then .terminated else .returned }
  | .returned => none
  | .terminated => none

/-- `interr_usleep` returns to `main`. -/
def wakeStep (rc : ℤ) (s : App) : Option App :=
  match s.pc with
  | .sleeping site late =>
    if Outcome late s.unblocked rc then
      some { s with pc := if rc = EINTR then .endLabel else site.next }
    else none
  | _ => none

/-! ### `plottingThr` -/

/-- What the world answers to `plottingThr`. -/
inductive PlotterAct where
  /-- `fopen` of `stats.dat`. -/
  | fopen (ok : Bool)
  /-- A poll, with what `json_tokener_parse` makes of the response. -/
  | poll (jobj : Json)
  /-- `popen`. -/
  | popen (ok : Bool)
  /-- A step that asks nothing. -/
  | next

/-- A step of `plottingThr`. Without the file of the log, it would write to `NULL`. -/
def plotterStep (a : PlotterAct) (s : App) : Option App :=
  match s.plotter.pc, a with
  | .fopen, .fopen ok =>
    some { s with plotter := { s.plotter with
      pc := if ok then .testExit else .done
      rows := if ok then [] else s.plotter.rows } }
  | .testExit, .next =>
      some { s with plotter := { s.plotter with pc := if s.shared.flagExit then .fopenLog
        else .testStop } }
  | .testStop, .next =>
    some { s with plotter := { s.plotter with pc := if s.shared.flagExitPlottingThr then .fopenLog
        else .poll } }
  | .poll, .poll jobj =>
    some { s with
      plotter := { s.plotter with pc := .trace jobj }
      history := { s.history with sampled := some s.history.completed } }
  | .trace jobj, .next =>
    let t := traceStats jobj ⟨s.plotter.ctx, [], s.shared.burstLevel⟩
    some { s with
      plotter := ⟨.sleep, t.ctx, s.plotter.rows ++ [t.row]⟩
      shared := { s.shared with burstLevel := t.burstLevel } }
  | .sleep, .next => some { s with plotter := { s.plotter with pc := .testExit } }
  | .fopenLog, .next =>
      some { s with plotter := { s.plotter with pc := .readLine 0 }, clientLog := some [] }
  | .readLine k, .next =>
    match s.shared.clientsStats[k]? with
    | some line =>
      some { s with
        plotter := { s.plotter with pc := .readLine (k + 1) }
        clientLog := s.clientLog.map (· ++ [line]) }
    | none => some { s with plotter := { s.plotter with pc := .clear } }
  | .clear, .next =>
    some { s with
      plotter := { s.plotter with pc := .popen }, shared := { s.shared with clientsStats := [] } }
  | .popen, .popen _ => some { s with plotter := { s.plotter with pc := .done } }
  | _, _ => none

/-! ### Clients and signals -/

/-- The class of a response. -/
inductive Status where
  | s2xx
  | s5xx
  | other
deriving DecidableEq

/-- The proxy counts a request. -/
def Counters.count (c : Counters) (status : Status) : Counters where
  requestCounter := c.requestCounter + 1
  responses2xx := c.responses2xx + if status = .s2xx then 1 else 0
  responses5xx := c.responses5xx + if status = .s5xx then 1 else 0

/-- What may happen to a client. -/
inductive ClientAct where
  /-- The proxy counts its request. -/
  | serve (status : Status)
  /-- It sees the response, and prints a line about it. -/
  | respond (text : String)
  /-- Its request fails. -/
  | fail
  /-- It pushes the line, in one locked section. -/
  | push

/-- A step of the client `k`. A request is counted no later than its client sees the response, and
not at all once the client has given it up. -/
def clientStep (k : ℕ) (a : ClientAct) (s : App) : Option App :=
  match s.clients[k]? with
  | none => none
  | some c =>
    match c.pc, a with
    | .requesting, .serve status =>
      some { s with
        clients := s.clients.set k { c with pc := .served }, counters := s.counters.count status }
    | .served, .respond text =>
      some { s with
        clients := s.clients.set k { c with pc := .push text }
        history := { s.history with completed := s.history.completed + 1 } }
    | .requesting, .fail | .served, .fail =>
      some { s with
        clients := s.clients.set k { c with pc := .done }
        history := { s.history with completed := s.history.completed + 1 } }
    | .push text, .push =>
      some { s with
        clients := s.clients.set k { c with pc := .done }
        shared := { s.shared with clientsStats := s.shared.clientsStats ++ [⟨text, c.setting⟩] }
        history := { s.history with pushed := s.history.pushed ++ [⟨text, c.setting⟩] } }
    | _, _ => none

/-- A step of the application or of the world around it. -/
inductive Act where
  | main
  /-- `interr_usleep` returns `rc`. -/
  | wake (rc : ℤ)
  | plotter (a : PlotterAct)
  | client (k : ℕ) (a : ClientAct)
  /-- A quit signal: its handler sets `flag_exit`. -/
  | signal
  /-- A handler calls `interr_usleep_unblock`. -/
  | unblock

/-- One step. -/
def step (settings : List SettingCtx) (s : App) : Act → Option App
  | .main => mainStep settings s
  | .wake rc => wakeStep rc s
  | .plotter a => plotterStep a s
  | .client k a => clientStep k a s
  | .signal =>
      some { s with shared := { s.shared with flagExit := true }, handlers := s.handlers + 1 }
  | .unblock =>
      if s.handlers = 0 then none else some { s with unblocked := true, handlers := s.handlers - 1 }

/-- The application as a system. -/
def app (settings : List SettingCtx) : Sys App Act := ⟨App.Start, step settings⟩

/-! ### What a step can do -/

variable {settings : List SettingCtx} {s t : App}

/-- The steps of `main`, but for the returns of `interr_usleep`. -/
inductive MainStep (settings : List SettingCtx) (s : App) : App → Prop where
  | prepare (h : s.pc = .prepare) :
    MainStep settings s { s with pc := .openOrigin, nginx := s.nginx.rmpath, clientLog := none }
  | openOrigin (h : s.pc = .openOrigin) :
    MainStep settings s { s with pc := .usleep .origin, nginx := s.nginx.wrapperOpen .origin }
  | usleep {site : Site} (h : s.pc = .usleep site) :
    MainStep settings s { s with pc := .sleeping site s.unblocked }
  | enter {i : ℕ} (h : s.pc = .forTest i) (hi : i < settings.length) :
    MainStep settings s { s with pc := .openProxy i }
  | leave {i : ℕ} (h : s.pc = .forTest i) (hi : ¬i < settings.length) :
    MainStep settings s { s with pc := .endLabel }
  | openProxy {i : ℕ} (h : s.pc = .openProxy i) :
    MainStep settings s { s with
      pc := .usleep (.proxy i), nginx := s.nginx.wrapperOpen .proxy, counters := ⟨0, 0, 0⟩ }
  | clearFlag {i : ℕ} (h : s.pc = .clearFlag i) :
    MainStep settings s { s with
      pc := .clearLevel i, shared := { s.shared with flagExitPlottingThr := false } }
  | clearLevel {i : ℕ} (h : s.pc = .clearLevel i) :
    MainStep settings s { s with
      pc := .startPlotter i, shared := { s.shared with burstLevel := 0 } }
  | startPlotter {i : ℕ} (h : s.pc = .startPlotter i) (hj : s.joinable = false) :
    MainStep settings s { s with
      pc := .fxn i (callsOf settings i)
      joinable := true
      plotter := s.plotter.start
      history := s.history.restart }
  | startTerminates {i : ℕ} (h : s.pc = .startPlotter i) (hj : s.joinable = true) :
    MainStep settings s { s with pc := .terminated }
  | allCalled {i : ℕ} (h : s.pc = .fxn i []) : MainStep settings s { s with pc := .join i 0 }
  | called {i : ℕ} {calls : List ℕ} (h : s.pc = .fxn i (0 :: calls)) :
    MainStep settings s { s with pc := .fxn i calls }
  | startClient {i n : ℕ} {calls : List ℕ} (h : s.pc = .fxn i ((n + 1) :: calls)) :
    MainStep settings s { s with
      pc := .fxn i (n :: calls), clients := s.clients ++ [⟨.requesting, false, i⟩] }
  | joinClient {i cli : ℕ} {c : Client} (h : s.pc = .join i cli) (hc : s.clients[cli]? = some c)
      (hd : c.pc = .done) :
    MainStep settings s { s with
      pc := .join i (cli + 1), clients := s.clients.set cli { c with joined := true } }
  | allJoined {i cli : ℕ} (h : s.pc = .join i cli) (hc : s.clients[cli]? = none) :
    MainStep settings s { s with pc := .clearClients i }
  | clearClients {i : ℕ} (h : s.pc = .clearClients i) (hu : s.unjoined = false) :
    MainStep settings s { s with pc := .testExit i, clients := [] }
  | clearTerminates {i : ℕ} (h : s.pc = .clearClients i) (hu : s.unjoined = true) :
    MainStep settings s { s with pc := .terminated }
  | exitSet {i : ℕ} (h : s.pc = .testExit i) (hf : s.shared.flagExit = true) :
    MainStep settings s { s with pc := .setFlag i }
  | exitClear {i : ℕ} (h : s.pc = .testExit i) (hf : s.shared.flagExit = false) :
    MainStep settings s { s with pc := .testLevel i }
  | levelHigh {i : ℕ} (h : s.pc = .testLevel i) (hl : s.shared.burstLevel > 0) :
    MainStep settings s { s with pc := .usleep (.burst i) }
  | levelLow {i : ℕ} (h : s.pc = .testLevel i) (hl : ¬s.shared.burstLevel > 0) :
    MainStep settings s { s with pc := .setFlag i }
  | setFlag {i : ℕ} (h : s.pc = .setFlag i) :
    MainStep settings s { s with
      pc := .joinPlotter i, shared := { s.shared with flagExitPlottingThr := true } }
  | joinPlotter {i : ℕ} (h : s.pc = .joinPlotter i) (hd : s.plotter.pc = .done) :
    MainStep settings s { s with
      pc := .usleep (.settle i), joinable := false, plotter := { s.plotter with pc := .none } }
  | closeProxy {i : ℕ} (h : s.pc = .closeProxy i) :
    MainStep settings s { s with pc := .unlinkLog i, nginx := s.nginx.wrapperClose .proxy }
  | unlinkLog {i : ℕ} (h : s.pc = .unlinkLog i) :
    MainStep settings s { s with pc := .forTest (i + 1), clientLog := none }
  | endLabel (h : s.pc = .endLabel) :
    MainStep settings s { s with pc := .closeOrigin, shared := { s.shared with flagExit := true } }
  | closeOrigin (h : s.pc = .closeOrigin) :
    MainStep settings s { s with pc := .rmpath, nginx := s.nginx.wrapperClose .origin }
  | rmpath (h : s.pc = .rmpath) :
    MainStep settings s { s with pc := .closeLogger, nginx := s.nginx.rmpath, clientLog := none }
  | closeLogger (h : s.pc = .closeLogger) : MainStep settings s { s with pc := .ret }
  | returns (h : s.pc = .ret) (hj : s.joinable = false) (hu : s.unjoined = false) :
    MainStep settings s { s with pc := .returned }
  | retTerminates (h : s.pc = .ret) (hj : s.joinable = true ∨ s.unjoined = true) :
    MainStep settings s { s with pc := .terminated }

theorem MainStep.of_step (h : mainStep settings s = some t) : MainStep settings s t := by
  cases hpc : s.pc <;> simp only [mainStep, hpc, reduceCtorEq] at h
  case prepare => cases h; exact .prepare hpc
  case openOrigin => cases h; exact .openOrigin hpc
  case usleep site => cases h; exact .usleep hpc
  case openProxy i => cases h; exact .openProxy hpc
  case clearFlag i => cases h; exact .clearFlag hpc
  case clearLevel i => cases h; exact .clearLevel hpc
  case setFlag i => cases h; exact .setFlag hpc
  case closeProxy i => cases h; exact .closeProxy hpc
  case unlinkLog i => cases h; exact .unlinkLog hpc
  case endLabel => cases h; exact .endLabel hpc
  case closeOrigin => cases h; exact .closeOrigin hpc
  case rmpath => cases h; exact .rmpath hpc
  case closeLogger => cases h; exact .closeLogger hpc
  case forTest i =>
    cases h
    split
    · next hi => exact .enter hpc hi
    · next hi => exact .leave hpc hi
  case startPlotter i =>
    split at h <;> cases h
    · next hj => exact .startTerminates hpc hj
    · next hj => exact .startPlotter hpc (by simpa using hj)
  case fxn i calls =>
    match calls, hpc, h with
    | [], hpc, h => cases h; exact .allCalled hpc
    | 0 :: calls, hpc, h => cases h; exact .called hpc
    | (n + 1) :: calls, hpc, h => cases h; exact .startClient hpc
  case join i cli =>
    split at h
    · next hc => cases h; exact .allJoined hpc hc
    · next c hc =>
      split at h <;> cases h
      exact .joinClient hpc hc ‹_›
  case clearClients i =>
    split at h <;> cases h
    · next hu => exact .clearTerminates hpc hu
    · next hu => exact .clearClients hpc (by simpa using hu)
  case testExit i =>
    cases h
    split
    · next hf => exact .exitSet hpc hf
    · next hf => exact .exitClear hpc (by simpa using hf)
  case testLevel i =>
    cases h
    split
    · next hl => exact .levelHigh hpc hl
    · next hl => exact .levelLow hpc hl
  case joinPlotter i =>
    split at h <;> cases h
    exact .joinPlotter hpc ‹_›
  case ret =>
    cases h
    split
    · next hj => exact .retTerminates hpc hj
    · next hj =>
      simp only [not_or, Bool.not_eq_true] at hj
      exact .returns hpc hj.1 hj.2

/-- A return of `interr_usleep`. -/
inductive WakeStep (rc : ℤ) (s : App) : App → Prop where
  | interrupted {site : Site} {late : Bool} (h : s.pc = .sleeping site late) (hrc : rc = EINTR)
      (hu : s.unblocked = true) : WakeStep rc s { s with pc := .endLabel }
  | slept {site : Site} {late : Bool} (h : s.pc = .sleeping site late) (hrc : rc = 0) :
    WakeStep rc s { s with pc := site.next }

theorem WakeStep.of_step {rc : ℤ} (h : wakeStep rc s = some t) : WakeStep rc s t := by
  unfold wakeStep at h
  split at h <;> try cases h
  next site late hpc =>
    split at h <;> cases h
    next hout =>
      rcases hout with ⟨rfl, -⟩ | ⟨rfl, hu⟩
      · exact .slept hpc rfl
      · exact .interrupted hpc rfl hu

/-- The steps of `plottingThr`. -/
inductive PlotterStep (a : PlotterAct) (s : App) : App → Prop where
  | opened (h : s.plotter.pc = .fopen) (ha : a = .fopen true) :
    PlotterStep a s { s with plotter := { s.plotter with pc := .testExit, rows := [] } }
  | notOpened (h : s.plotter.pc = .fopen) (ha : a = .fopen false) :
    PlotterStep a s { s with plotter := { s.plotter with pc := .done } }
  | exitSet (h : s.plotter.pc = .testExit) (hf : s.shared.flagExit = true) :
    PlotterStep a s { s with plotter := { s.plotter with pc := .fopenLog } }
  | exitClear (h : s.plotter.pc = .testExit) (hf : s.shared.flagExit = false) :
    PlotterStep a s { s with plotter := { s.plotter with pc := .testStop } }
  | stopSet (h : s.plotter.pc = .testStop) (hf : s.shared.flagExitPlottingThr = true) :
    PlotterStep a s { s with plotter := { s.plotter with pc := .fopenLog } }
  | stopClear (h : s.plotter.pc = .testStop) (hf : s.shared.flagExitPlottingThr = false) :
    PlotterStep a s { s with plotter := { s.plotter with pc := .poll } }
  | poll {jobj : Json} (h : s.plotter.pc = .poll) (ha : a = .poll jobj) :
    PlotterStep a s { s with
      plotter := { s.plotter with pc := .trace jobj }
      history := { s.history with sampled := some s.history.completed } }
  | trace {jobj : Json} {u : Tracing} (h : s.plotter.pc = .trace jobj)
      (hu : traceStats jobj ⟨s.plotter.ctx, [], s.shared.burstLevel⟩ = u) :
    PlotterStep a s { s with
      plotter := ⟨.sleep, u.ctx, s.plotter.rows ++ [u.row]⟩
      shared := { s.shared with burstLevel := u.burstLevel } }
  | sleep (h : s.plotter.pc = .sleep) :
    PlotterStep a s { s with plotter := { s.plotter with pc := .testExit } }
  | fopenLog (h : s.plotter.pc = .fopenLog) :
    PlotterStep a s { s with plotter := { s.plotter with pc := .readLine 0 }, clientLog := some [] }
  | readLine {k : ℕ} {line : Line} (h : s.plotter.pc = .readLine k)
      (hk : s.shared.clientsStats[k]? = some line) :
    PlotterStep a s { s with
      plotter := { s.plotter with pc := .readLine (k + 1) },
      clientLog := s.clientLog.map (· ++ [line]) }
  | allRead {k : ℕ} (h : s.plotter.pc = .readLine k) (hk : s.shared.clientsStats[k]? = none) :
    PlotterStep a s { s with plotter := { s.plotter with pc := .clear } }
  | clear (h : s.plotter.pc = .clear) :
    PlotterStep a s { s with
      plotter := { s.plotter with pc := .popen }, shared := { s.shared with clientsStats := [] } }
  | popen {ok : Bool} (h : s.plotter.pc = .popen) (ha : a = .popen ok) :
    PlotterStep a s { s with plotter := { s.plotter with pc := .done } }

theorem PlotterStep.of_step {a : PlotterAct} (h : plotterStep a s = some t) :
    PlotterStep a s t := by
  unfold plotterStep at h
  split at h <;> try cases h
  case h_1 ok hpc =>
    cases ok with
    | true => exact .opened hpc rfl
    | false => exact .notOpened hpc rfl
  case h_2 hpc =>
    split
    · next hf => exact .exitSet hpc hf
    · next hf => exact .exitClear hpc (by simpa using hf)
  case h_3 hpc =>
    split
    · next hf => exact .stopSet hpc hf
    · next hf => exact .stopClear hpc (by simpa using hf)
  case h_4 jobj hpc => exact .poll hpc rfl
  case h_5 jobj hpc => exact .trace hpc rfl
  case h_6 hpc => exact .sleep hpc
  case h_7 hpc => exact .fopenLog hpc
  case h_8 k hpc =>
    split at h <;> cases h
    · next hk => exact .readLine hpc hk
    · next hk => exact .allRead hpc hk
  case h_9 hpc => exact .clear hpc
  case h_10 ok hpc => exact .popen hpc rfl

/-- The steps of the client `k`. -/
inductive ClientStep (k : ℕ) (s : App) : App → Prop where
  | serve {c : Client} {status : Status} (hc : s.clients[k]? = some c) (h : c.pc = .requesting) :
    ClientStep k s { s with
      clients := s.clients.set k { c with pc := .served }, counters := s.counters.count status }
  | respond {c : Client} {text : String} (hc : s.clients[k]? = some c) (h : c.pc = .served) :
    ClientStep k s { s with
      clients := s.clients.set k { c with pc := .push text }
      history := { s.history with completed := s.history.completed + 1 } }
  | fail {c : Client} (hc : s.clients[k]? = some c) (h : c.pc = .requesting ∨ c.pc = .served) :
    ClientStep k s { s with
      clients := s.clients.set k { c with pc := .done }
      history := { s.history with completed := s.history.completed + 1 } }
  | push {c : Client} {text : String} (hc : s.clients[k]? = some c) (h : c.pc = .push text) :
    ClientStep k s { s with
      clients := s.clients.set k { c with pc := .done }
      shared := { s.shared with clientsStats := s.shared.clientsStats ++ [⟨text, c.setting⟩] }
      history := { s.history with pushed := s.history.pushed ++ [⟨text, c.setting⟩] } }

theorem ClientStep.of_step {k : ℕ} {a : ClientAct} (h : clientStep k a s = some t) :
    ClientStep k s t := by
  unfold clientStep at h
  split at h
  · cases h
  · next c hc =>
    split at h <;> cases h
    · next hpc => exact .serve hc hpc
    · next hpc => exact .respond hc hpc
    · next hpc => exact .fail hc (.inl hpc)
    · next hpc => exact .fail hc (.inr hpc)
    · next hpc => exact .push hc hpc

/-- The steps of a signal handler. -/
inductive SignalStep (s : App) : Act → App → Prop where
  | signal :
    SignalStep s .signal { s with
      shared := { s.shared with flagExit := true }, handlers := s.handlers + 1 }
  | unblock (h : s.handlers ≠ 0) :
    SignalStep s .unblock { s with unblocked := true, handlers := s.handlers - 1 }

/-- What a step can do, by who makes it. -/
inductive Step (settings : List SettingCtx) (s : App) : Act → App → Prop where
  | main {t : App} (h : MainStep settings s t) : Step settings s .main t
  | wake {rc : ℤ} {t : App} (h : WakeStep rc s t) : Step settings s (.wake rc) t
  | plotter {a : PlotterAct} {t : App} (h : PlotterStep a s t) : Step settings s (.plotter a) t
  | client {k : ℕ} {a : ClientAct} {t : App} (h : ClientStep k s t) :
    Step settings s (.client k a) t
  | signal {a : Act} {t : App} (h : SignalStep s a t) : Step settings s a t

theorem Step.of_app {a : Act} (h : (app settings).step s a = some t) : Step settings s a t := by
  cases a with
  | main => exact .main (.of_step h)
  | wake rc => exact .wake (.of_step h)
  | plotter a => exact .plotter (.of_step h)
  | client k a => exact .client (.of_step h)
  | signal => cases h; exact .signal .signal
  | unblock =>
    simp only [app, step] at h
    split at h <;> cases h
    exact .signal (.unblock ‹_›)

/-- What only `main` changes. -/
structure SameMain (s t : App) : Prop where
  pc : t.pc = s.pc
  joinable : t.joinable = s.joinable
  nginx : t.nginx = s.nginx
  joined : t.clients.map Client.joined = s.clients.map Client.joined

/-- The other threads and the signals leave to `main` what is `main`'s. -/
theorem Step.sameMain {a : Act} (h : Step settings s a t) (hmain : a ≠ .main)
    (hwake : ∀ rc, a ≠ .wake rc) :
    SameMain s t := by
  cases h with
  | main h => exact absurd rfl hmain
  | wake h => exact absurd rfl (hwake _)
  | plotter h => cases h <;> exact ⟨rfl, rfl, rfl, rfl⟩
  | signal h => cases h <;> exact ⟨rfl, rfl, rfl, rfl⟩
  | client h =>
    have hset : ∀ (k : ℕ) (c : Client) (pc : ClientPc), s.clients[k]? = some c →
        (s.clients.set k { c with pc }).map Client.joined = s.clients.map Client.joined := by
      intro k c pc hc
      obtain ⟨hk, rfl⟩ := List.getElem?_eq_some_iff.mp hc
      have hk' : k < (s.clients.map Client.joined).length := by simpa using hk
      have hjoined : s.clients[k].joined = (s.clients.map Client.joined)[k] := by simp
      rw [List.map_set]
      change (s.clients.map Client.joined).set k s.clients[k].joined = _
      rw [hjoined, List.set_getElem_self hk']
    cases h with
    | serve hc _ => exact ⟨rfl, rfl, rfl, hset _ _ _ hc⟩
    | respond hc _ => exact ⟨rfl, rfl, rfl, hset _ _ _ hc⟩
    | fail hc _ => exact ⟨rfl, rfl, rfl, hset _ _ _ hc⟩
    | push hc _ => exact ⟨rfl, rfl, rfl, hset _ _ _ hc⟩

/-- A step is `main`'s, a return of `interr_usleep` to it, or leaves to it what is its own. -/
theorem Step.main_cases {a : Act} (h : Step settings s a t) :
    (a = .main ∧ MainStep settings s t) ∨ (∃ rc, a = .wake rc ∧ WakeStep rc s t) ∨
      ((a ≠ .main ∧ ∀ rc, a ≠ .wake rc) ∧ SameMain s t) := by
  have hother := h.sameMain
  cases h with
  | main h => exact .inl ⟨rfl, h⟩
  | wake h => exact .inr (.inl ⟨_, rfl, h⟩)
  | plotter | client => exact .inr (.inr ⟨⟨by simp, by simp⟩, hother (by simp) (by simp)⟩)
  | signal h => cases h <;> exact .inr (.inr ⟨⟨by simp, by simp⟩, hother (by simp) (by simp)⟩)

end NginxTools.TestRateLimiting
