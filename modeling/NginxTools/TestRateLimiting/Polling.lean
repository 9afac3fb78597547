import NginxTools.LibcurlWrap.Contract
import NginxTools.TestRateLimiting.Samples

/-!
# Polling the status document

`plottingThr` has a response from `libcurl_wrap_cli_request`, and hands it on to `trace_stats`,
which parses it:

    char *response = nullptr;
    int ret_code = libcurl_wrap_cli_request(&libcurl_wrap_req_ctx, nullptr, &response, &http_ret_code, nullptr, nullptr);
    CHECK(ret_code == 0 && response != nullptr);
    ...
    trace_stats(response, &trace_stats_ctx, LOG_CTX_GET());

`CHECK` writes a line to the log, and no more: what has failed the check is handed on all the same.
`json_tokener_parse` takes the `strlen` of what it is given.

## The model

A poll is a run of `libcurlWrapCliRequest` in an environment. `cString` is the string that a pointer
leads to, and reading one where there is none has no meaning: `plotOnce` is then `none`. What the
parser makes of a string is left open.

## What is proved

`polls_safe_iff` — the parser is given a string in every poll exactly if every poll gets through
`curl_easy_perform` and receives a byte at least.
-/

namespace NginxTools.TestRateLimiting

open Library LibcurlWrap

/-- `libcurl_wrap_req_ctx`, of `plottingThr`. -/
def statusReqCtx : ReqCtx where
  method := libcurlWrapMethodGet
  headers := none
  host := some (ascii "127.0.0.1")
  port := some (ascii "8887")
  location := some (ascii "/status/format/json")
  qstring := none
  body := none
  tout := 5
  flagLibcurlVerbose := 0

/-- The request of a poll; `http_ret_code` is not initialised, and the request does not read it. -/
def pollStatus (env : Env) : ℤ × Option Call :=
  libcurlWrapCliRequest env (some statusReqCtx) (some 0) (some 0) none none

/-- The string that a pointer leads to; `NULL` leads to none, nor does memory without a NUL. -/
def cString (t : Call) : Ptr → Option CStr
  | .caller _ => none
  | .block n => (t.store.cell (blk n)).bind fun mem =>
      if 0 ∈ mem then some (mem.takeWhile (· ≠ 0)) else none

/-- What `trace_stats` is given the address of after a poll. -/
def responseString (env : Env) : Option CStr :=
  (pollStatus env).2.bind fun t => cString t t.out.responseStr

/-- The response is still `NULL` after the request. -/
def NoResponse (env : Env) : Prop := (pollStatus env).2.map (·.out.responseStr) = some (.caller 0)

/-- One pass of the loop of `plottingThr`, `parse` being what `json_tokener_parse` makes of a
string. -/
def plotOnce (parse : CStr → Json) (t : Tracing) (env : Env) : Option Tracing :=
  (responseString env).map fun stats => traceStats (parse stats) t.newRow

/-- The loop, as long as the flags let it go on. -/
def plot (parse : CStr → Json) (envs : List Env) (t : Tracing) : Option Tracing :=
  envs.foldlM (plotOnce parse) t

/-! ### The response of a poll -/

/-- The request of the poll gets through, and there is something to return. -/
structure Responds (env : Env) : Prop where
  performed : Performed env statusReqCtx
  received : received .body env.events ≠ []

/-- Memory that begins with some bytes and a NUL. -/
theorem takeWhile_of_prefix {bs mem : List UInt8} (h : bs ++ [0] <+: mem) :
    0 ∈ mem ∧ mem.takeWhile (· ≠ 0) = bs.takeWhile (· ≠ 0) := by
  obtain ⟨rest, rfl⟩ := h
  refine ⟨by simp, ?_⟩
  induction bs with
  | nil => simp
  | cons b bs ih =>
    by_cases hb : b = 0
    · simp [hb]
    · simpa [List.takeWhile_cons, hb] using ih

/-- **What a poll hands on**: the bytes received, up to a NUL among them; or `NULL`. -/
theorem responseString_spec (env : Env) :
    Responds env ∧ responseString env = some ((received .body env.events).takeWhile (· ≠ 0)) ∧
      ¬NoResponse env ∨ ¬Responds env ∧ responseString env = none ∧ NoResponse env := by
  obtain ⟨r, t, hrun, -, hcase⟩ := libcurlWrapCliRequest_spec env statusReqCtx 0 0 none none
  have hrun : pollStatus env = (r, some t) := hrun
  simp only [responseString, NoResponse, hrun, Option.bind_some, Option.map_some, Option.some.injEq]
  rcases hcase with ⟨hnot, -, hout⟩ | ⟨hdone, hans⟩
  · have hnull : t.out.responseStr = .caller 0 := by rw [hout]; rfl
    exact .inr ⟨fun h => hnot h.performed, by rw [hnull]; rfl, hnull⟩
  · rcases hans.handed .body with ⟨hn | hn, hsame⟩ | ⟨⟨-, hne⟩, n, mem, hn, hmem, hpre⟩
    · cases hn
    · have hnull : t.out.responseStr = .caller 0 := Option.some.inj hsame
      exact .inr ⟨fun h => h.received hn, by rw [hnull]; rfl, hnull⟩
    · have hblock : t.out.responseStr = .block n := Option.some.inj hn
      obtain ⟨hzero, htake⟩ := takeWhile_of_prefix hpre
      refine .inl ⟨⟨hdone, hne⟩, ?_, by rw [hblock]; exact fun h => Ptr.noConfusion h⟩
      rw [hblock, cString, hmem, Option.bind_some, if_pos hzero, htake]

theorem isSome_responseString (env : Env) : (responseString env).isSome ↔ Responds env := by
  rcases responseString_spec env with ⟨hr, hs, -⟩ | ⟨hr, hs, -⟩ <;> simp [hr, hs]

theorem noResponse_iff (env : Env) : NoResponse env ↔ ¬Responds env := by
  rcases responseString_spec env with ⟨hr, -, hn⟩ | ⟨hr, -, hn⟩ <;> simp [hr, hn]

/-! ### The loop -/

variable {parse : CStr → Json}

theorem isSome_plot_iff (envs : List Env) (t : Tracing) :
    (plot parse envs t).isSome ↔ ∀ env ∈ envs, Responds env := by
  induction envs generalizing t with
  | nil => simp [plot]
  | cons env envs ih =>
    rw [List.forall_mem_cons, ← isSome_responseString env]
    have hcons : plot parse (env :: envs) t = (plotOnce parse t env).bind (plot parse envs) := rfl
    rw [hcons, plotOnce]
    cases responseString env with
    | none => simp
    | some stats => simp [ih]

/-- A failed poll does no harm. -/
structure PollsSafe (parse : CStr → Json) (envs : List Env) (t : Tracing) : Prop where
  /-- What is handed to the parser is always a string. -/
  passed : ∀ front env after, envs = front ++ env :: after → (plot parse front t).isSome →
    (responseString env).isSome
  /-- A poll without a response changes nothing but the row. -/
  kept : ∀ front env after u, envs = front ++ env :: after → plot parse front t = some u →
    NoResponse env → ∃ u', plotOnce parse u env = some u' ∧ u'.ctx = u.ctx ∧
    u'.burstLevel = u.burstLevel
  /-- The loop goes on to its end. -/
  goesOn : (plot parse envs t).isSome

/-- **A failed poll never reaches the parser as `NULL`**, exactly if no poll fails: each gets
through `curl_easy_perform` and has received something. -/
theorem polls_safe_iff (parse : CStr → Json) (envs : List Env) (t : Tracing) :
    PollsSafe parse envs t ↔ ∀ env ∈ envs, Responds env := by
  constructor
  · intro h
    exact (isSome_plot_iff envs t).mp h.goesOn
  · intro h
    refine ⟨?_, ?_, (isSome_plot_iff envs t).mpr h⟩
    · intro front env after hsplit _
      exact (isSome_responseString env).mpr (h env (by simp [hsplit]))
    · intro front env after u hsplit _ hno
      exact absurd (h env (by simp [hsplit])) ((noResponse_iff env).mp hno)

theorem length_received_nil_lt (w : Part) : (received w []).length + 1 < 2 ^ 64 := by
  rw [received, List.flatMap_nil, List.length_nil]
  omega

/-- The proxy does not accept the connection. -/
def connectionRefused : Env where
  easyInit := true
  setopt _ := true
  callocUrl := true
  calloc _ := true
  slistAppend _ := true
  events := []
  performCode := 7
  connectTime := none
  starttransferTime := none
  totalTime := none
  contentLengthDownload := none
  responseCode := none
  fits := length_received_nil_lt

/-- Then the parser is given `NULL`. -/
theorem null_handed_on : (pollStatus connectionRefused).1 = 7 ∧
    (pollStatus connectionRefused).2.map (·.out.responseStr) = some (.caller 0) ∧
    ¬∀ parse envs t, PollsSafe parse envs t := by
  refine ⟨by decide, by decide, ?_⟩
  intro h
  have hpassed :=
    (h (fun _ => .null) [connectionRefused] ⟨.zero, [], 0⟩).passed [] connectionRefused [] rfl rfl
  revert hpassed
  decide

end NginxTools.TestRateLimiting
