import Mathlib.Algebra.Order.Ring.Int
import Mathlib.Tactic.Common
import Mathlib.Tactic.SplitIfs

/-!
# Tracing a status document

`plottingThr` polls the proxy's status document and `trace_stats` appends to the current row of
`stats.dat` what has changed since the sample before:

    tot_req = json_object_get_int(requestCounter);
    ...
    burst_level = level = json_object_get_int(jobj_level);
    fprintf(ctx->statsfile, " %d %d %d %d", tot_req - ctx->tot_req_prev, ...);
    ctx->tot_req_prev = tot_req;

## The model

`Json` is what json-c makes of a document: a `null` and what cannot be parsed are both the
pointer `NULL`. A field that is missing ends the function that looks for it, as `CHECK_DO`
does. The patched status module reports the burst level as `nowMsec`. Totals and columns are of the
type `int`, and a difference that it has no room for wraps around.

`Json.find` follows a path of keys; `AcceptedFound` and `ResponsesFound` say which fields a part
needs, the proxy's zone being optional. `Json.Reports` says of a document that it has the proxy's
counters where they are looked up; what else is in it makes no difference.

## What is proved

`traceStats_reports` — what a sample of such a document appends; and as each column is a difference
of totals, the columns of a file add up to the totals of the last sample (`traceStats_sums`).
-/

namespace NginxTools.TestRateLimiting

/-! ### json-c -/

/-- A `json_object`. -/
inductive Json where
  /-- `NULL`. -/
  | null
  | boolean (b : Bool)
  /-- A floating point number, by the `int` it is converted to. -/
  | double (toInt : Int32)
  | int (n : ℤ)
  | string (s : String)
  | array (elems : List Json)
  | object (fields : List (String × Json))

/-- `json_object_object_get_ex`. -/
def jsonObjectObjectGetEx (jso : Json) (key : String) : Option Json :=
  match jso with
  | .object fields => fields.lookup key
  | _ => none

/-- `isspace`. -/
def isspace (c : Char) : Bool := c = ' ' || ('\t'.toNat ≤ c.toNat && c.toNat ≤ '\r'.toNat)

/-- The number a list of decimal digits stands for. -/
def digitsValue (ds : List Char) : ℕ := ds.foldl (fun n c => 10 * n + (c.toNat - '0'.toNat)) 0

/-- `strtoll` to base 10, `none` when nothing is converted. -/
def strtoll (s : List Char) : Option ℤ :=
  let s := s.dropWhile isspace
  let neg := s.head? = some '-'
  let s := if s.head? = some '-' ∨ s.head? = some '+' then s.tail else s
  let ds := s.takeWhile Char.isDigit
  if ds = [] then none
  else
    let n : ℤ := digitsValue ds
    some (max (-2 ^ 63) (min (if neg then -n else n) (2 ^ 63 - 1)))

/-- `json_object_get_int`. -/
def jsonObjectGetInt : Json → Int32
  | .string s => ((strtoll s.toList).map Int32.ofIntClamp).getD 0
  | .int n => Int32.ofIntClamp n
  | .double toInt => toInt
  | .boolean b => if b then 1 else 0
  | _ => 0

/-! ### The functions -/

/-- The totals of a `trace_stats_ctx_t`. -/
structure TraceStatsCtx where
  totAcceptedPrev : Int32
  totReqPrev : Int32
  tot2xxPrev : Int32
  tot5xxPrev : Int32

/-- The totals at first. -/
def TraceStatsCtx.zero : TraceStatsCtx := ⟨0, 0, 0, 0⟩

/-- What tracing works on. -/
structure Tracing where
  /-- `*ctx`. -/
  ctx : TraceStatsCtx
  /-- The columns of the current row, after the time. -/
  row : List Int32
  /-- `burst_level`. -/
  burstLevel : Int32

/-- `trace_stats_irequests`. -/
def traceStatsIrequests (jobj : Json) (t : Tracing) : Tracing :=
  match jsonObjectObjectGetEx jobj "connections" with
  | none => t
  | some conn =>
    match jsonObjectObjectGetEx conn "accepted" with
    | none => t
    | some accepted =>
      let totAccepted := jsonObjectGetInt accepted
      { t with
        row := t.row ++ [totAccepted - t.ctx.totAcceptedPrev - 1]
        ctx := { t.ctx with totAcceptedPrev := totAccepted } }

/-- The totals of a zone: requests, `2xx` and `5xx`. -/
def zoneTotals (serv : Json) : Option (Int32 × Int32 × Int32) := do
  let requestCounter ← jsonObjectObjectGetEx serv "requestCounter"
  let resp ← jsonObjectObjectGetEx serv "responses"
  let resp2xx ← jsonObjectObjectGetEx resp "2xx"
  let resp5xx ← jsonObjectObjectGetEx resp "5xx"
  some (jsonObjectGetInt requestCounter, jsonObjectGetInt resp2xx, jsonObjectGetInt resp5xx)

/-- The totals of the proxy's zone, which need not be there yet, and the burst level. -/
def proxyTotals (jobj : Json) : Option ((Int32 × Int32 × Int32) × Int32) := do
  let servZone ← jsonObjectObjectGetEx jobj "serverZones"
  let totals ← match jsonObjectObjectGetEx servZone "nginx-proxy" with
    | none => some (0, 0, 0)
    | some serv => zoneTotals serv
  let jobjLevel ← jsonObjectObjectGetEx jobj "nowMsec"
  some (totals, jsonObjectGetInt jobjLevel)

/-- `trace_stats_responses`. -/
def traceStatsResponses (jobj : Json) (t : Tracing) : Tracing :=
  match proxyTotals jobj with
  | none => t
  | some ((totReq, tot2xx, tot5xx), level) =>
    { burstLevel := level
      row := t.row ++ [totReq - t.ctx.totReqPrev, tot2xx - t.ctx.tot2xxPrev,
        tot5xx - t.ctx.tot5xxPrev, level]
      ctx := { t.ctx with totReqPrev := totReq, tot2xxPrev := tot2xx, tot5xxPrev := tot5xx } }

/-- `trace_stats`, `jobj` being what `json_tokener_parse` makes of the document. -/
def traceStats (jobj : Json) (t : Tracing) : Tracing :=
  match jobj with
  | .null => t
  | jobj => traceStatsResponses jobj (traceStatsIrequests jobj t)

/-! ### Fields -/

/-- The value that a path of keys leads to. -/
def Json.find (jobj : Json) (path : List String) : Option Json :=
  path.foldlM jsonObjectObjectGetEx jobj

/-- All fields on the path are found. -/
def Json.has (jobj : Json) (path : List String) : Bool := (jobj.find path).isSome

/-- What a path leads to, as an `int`, and zero if it leads nowhere. -/
def Json.intAt (jobj : Json) (path : List String) : Int32 :=
  ((jobj.find path).map jsonObjectGetInt).getD 0

/-- The fields that `trace_stats_irequests` looks up. -/
def AcceptedFound (jobj : Json) : Prop := jobj.has ["connections", "accepted"]

/-- The fields that `trace_stats_responses` looks up; the zone need not be there. -/
structure ResponsesFound (jobj : Json) : Prop where
  serverZones : jobj.has ["serverZones"]
  requestCounter : jobj.has ["serverZones", "nginx-proxy"] →
    jobj.has ["serverZones", "nginx-proxy", "requestCounter"]
  responses : jobj.has ["serverZones", "nginx-proxy"] →
    jobj.has ["serverZones", "nginx-proxy", "responses"]
  responses2xx : jobj.has ["serverZones", "nginx-proxy"] →
    jobj.has ["serverZones", "nginx-proxy", "responses", "2xx"]
  responses5xx : jobj.has ["serverZones", "nginx-proxy"] →
    jobj.has ["serverZones", "nginx-proxy", "responses", "5xx"]
  nowMsec : jobj.has ["nowMsec"]

/-- The total of the connections, if it is found. -/
def acceptedTotal (jobj : Json) : Option Int32 :=
  (jobj.find ["connections", "accepted"]).map jsonObjectGetInt

theorem find_cons (jobj : Json) (key : String) (path : List String) :
    jobj.find (key :: path) = (jsonObjectObjectGetEx jobj key).bind (·.find path) := rfl

theorem find_nil (jobj : Json) : jobj.find [] = some jobj := rfl

theorem isSome_acceptedTotal {jobj : Json} : (acceptedTotal jobj).isSome ↔ AcceptedFound jobj := by
  simp [acceptedTotal, AcceptedFound, Json.has]

/-- **The totals of the proxy's zone**, whatever the document. -/
theorem proxyTotals_of_found {jobj : Json} (h : ResponsesFound jobj) : proxyTotals jobj =
    some ((jobj.intAt ["serverZones", "nginx-proxy", "requestCounter"],
      jobj.intAt ["serverZones", "nginx-proxy", "responses", "2xx"],
      jobj.intAt ["serverZones", "nginx-proxy", "responses", "5xx"]), jobj.intAt ["nowMsec"]) := by
  obtain ⟨h1, h2, -, h3, h4, h5⟩ := h
  simp only [Json.has, Json.intAt, find_cons, find_nil, Option.bind_fun_some] at *
  obtain ⟨zones, hz⟩ := Option.isSome_iff_exists.mp h1
  obtain ⟨level, hl⟩ := Option.isSome_iff_exists.mp h5
  simp only [proxyTotals, hz, hl, Option.bind_eq_bind, Option.bind_some, Option.map_some,
    Option.getD_some] at *
  cases hserv : jsonObjectObjectGetEx zones "nginx-proxy" with
  | none => simp
  | some serv =>
    simp only [hserv, Option.isSome_some, true_implies, Option.bind_some] at *
    obtain ⟨req, hreq⟩ := Option.isSome_iff_exists.mp h2
    obtain ⟨resp2xx, hresp2⟩ := Option.isSome_iff_exists.mp h3
    obtain ⟨resp5xx, hresp5⟩ := Option.isSome_iff_exists.mp h4
    obtain ⟨resp, hresp, h2xx⟩ := Option.bind_eq_some_iff.mp hresp2
    obtain ⟨resp', hresp', h5xx⟩ := Option.bind_eq_some_iff.mp hresp5
    obtain rfl := Option.some.inj (hresp.symm.trans hresp')
    simp [zoneTotals, hreq, hresp, h2xx, h5xx]

/-- A missing field ends the part. -/
theorem proxyTotals_of_not_found {jobj : Json} (h : ¬ResponsesFound jobj) :
    proxyTotals jobj = none := by
  cases ht : proxyTotals jobj with
  | none => rfl
  | some totals =>
    refine absurd ?_ h
    simp only [proxyTotals, Option.bind_eq_bind] at ht
    obtain ⟨zones, hz, ht⟩ := Option.bind_eq_some_iff.mp ht
    cases hserv : jsonObjectObjectGetEx zones "nginx-proxy" with
    | none =>
      simp only [hserv, Option.bind_some, Option.bind_eq_some_iff] at ht
      obtain ⟨level, hl, -⟩ := ht
      constructor <;> simp [Json.has, find_cons, find_nil, hz, hserv, hl]
    | some serv =>
      simp only [hserv, zoneTotals, Option.bind_eq_bind, Option.bind_eq_some_iff] at ht
      obtain ⟨_, ⟨req, hreq, resp, hresp, resp2xx, h2xx, resp5xx, h5xx, -⟩, level, hl, -⟩ := ht
      constructor <;> simp [Json.has, find_cons, find_nil, hz, hserv, hl, hreq, hresp, h2xx, h5xx]

theorem isSome_proxyTotals {jobj : Json} : (proxyTotals jobj).isSome ↔ ResponsesFound jobj := by
  constructor
  · intro h
    by_contra hnot
    simp [proxyTotals_of_not_found hnot] at h
  · intro h
    rw [proxyTotals_of_found h]
    rfl

/-! ### The two parts -/

variable {jobj : Json} {t : Tracing}

theorem traceStatsIrequests_of_none (h : acceptedTotal jobj = none) :
    traceStatsIrequests jobj t = t := by
  simp only [acceptedTotal, Option.map_eq_none_iff, find_cons, find_nil, Option.bind_fun_some] at h
  unfold traceStatsIrequests
  cases hconn : jsonObjectObjectGetEx jobj "connections" with
  | none => rfl
  | some conn =>
    rw [hconn, Option.bind_some] at h
    simp only [h]

theorem traceStatsIrequests_of_some {n : Int32} (h : acceptedTotal jobj = some n) :
    traceStatsIrequests jobj t = { t with
      row := t.row ++ [n - t.ctx.totAcceptedPrev - 1]
      ctx := { t.ctx with totAcceptedPrev := n } } := by
  obtain ⟨accepted, hfind, rfl⟩ := Option.map_eq_some_iff.mp h
  simp only [find_cons, find_nil, Option.bind_fun_some, Option.bind_eq_some_iff] at hfind
  obtain ⟨conn, hconn, hacc⟩ := hfind
  simp only [traceStatsIrequests, hconn, hacc]

theorem traceStatsResponses_of_none (h : proxyTotals jobj = none) :
    traceStatsResponses jobj t = t := by
  simp only [traceStatsResponses, h]

theorem traceStatsResponses_of_some {req resp2xx resp5xx level : Int32}
    (h : proxyTotals jobj = some ((req, resp2xx, resp5xx), level)) : traceStatsResponses jobj t =
    { burstLevel := level
      row := t.row ++ [req - t.ctx.totReqPrev, resp2xx - t.ctx.tot2xxPrev,
        resp5xx - t.ctx.tot5xxPrev, level]
      ctx := { t.ctx with totReqPrev := req, tot2xxPrev := resp2xx, tot5xxPrev := resp5xx } } := by
  simp only [traceStatsResponses, h]

/-- A document that cannot be parsed has no fields, so the check for it makes no difference. -/
theorem traceStats_eq (jobj : Json) (t : Tracing) :
    traceStats jobj t = traceStatsResponses jobj (traceStatsIrequests jobj t) := by
  cases jobj with
  | null => rfl
  | _ => rfl

/-- A total that is too small: one less than the smallest `int` is the largest. -/
example : (traceStatsIrequests (.object [("connections", .object [("accepted", .int (-2 ^ 31))])])
    ⟨.zero, [], 0⟩).row = [2147483647] := by
  decide

/-! ### Complete documents -/

/-- The counters of the proxy's zone. -/
structure Counters where
  requestCounter : ℕ
  responses2xx : ℕ
  responses5xx : ℕ
deriving DecidableEq

/-- A status document with the counters: those of the zone, or none if the zone is not there yet. -/
structure Json.Reports (jobj : Json) (c : Counters) : Prop where
  accepted : AcceptedFound jobj
  serverZones : jobj.has ["serverZones"]
  zone : jobj.has ["serverZones", "nginx-proxy"] = false ∧ c = ⟨0, 0, 0⟩ ∨
    jobj.find ["serverZones", "nginx-proxy", "requestCounter"] = some (.int c.requestCounter) ∧
    jobj.find ["serverZones", "nginx-proxy", "responses", "2xx"] = some (.int c.responses2xx) ∧
    jobj.find ["serverZones", "nginx-proxy", "responses", "5xx"] = some (.int c.responses5xx)
  nowMsec : jobj.has ["nowMsec"]

/-- What is read of a status document: the zone is there from the first request on. -/
def statusDoc (c : Counters) (accepted level : ℕ) : Json :=
  .object [("nowMsec", .int level), ("connections", .object [("accepted", .int accepted)]),
    ("serverZones", .object (if c.requestCounter = 0 then [] else
      [("nginx-proxy", .object [("requestCounter", .int c.requestCounter),
        ("responses", .object [("2xx", .int c.responses2xx), ("5xx", .int c.responses5xx)])])]))]

/-- The counters are those of requests counted, and fit an `int`. -/
structure Counters.Fits (c : Counters) : Prop where
  requestCounter : c.requestCounter < 2 ^ 31
  responses2xx : c.responses2xx ≤ c.requestCounter
  responses5xx : c.responses5xx ≤ c.requestCounter

/-- A value moved into the range of the type `int`. -/
theorem toInt_ofIntClamp (n : ℤ) :
    (Int32.ofIntClamp n).toInt = max (-2 ^ 31) (min n (2 ^ 31 - 1)) := by
  have hmin : Int32.minValue.toInt = -2 ^ 31 := rfl
  have hmax : Int32.maxValue.toInt = 2 ^ 31 - 1 := rfl
  unfold Int32.ofIntClamp
  split_ifs with hin hneg
  · rw [Int32.toInt_ofIntLE]
    omega
  · omega
  · omega

theorem ofIntClamp_nonneg (n : ℕ) : 0 ≤ (Int32.ofIntClamp n).toInt := by
  rw [toInt_ofIntClamp]
  omega

/-- No difference of totals overflows, nor one less. -/
theorem toInt_sub_of_nonneg {n prev : Int32} (hn : 0 ≤ n.toInt) (hprev : 0 ≤ prev.toInt) :
    (n - prev).toInt = n.toInt - prev.toInt ∧
      (n - prev - 1).toInt = n.toInt - prev.toInt - 1 := by
  have hlt := n.toInt_lt
  have hlt' := prev.toInt_lt
  have hone : (1 : Int32).toInt = 1 := rfl
  have hsub : (n - prev).toInt = n.toInt - prev.toInt := by
    rw [Int32.toInt_sub]
    exact Int.bmod_eq_of_le (by omega) (by omega)
  refine ⟨hsub, ?_⟩
  rw [Int32.toInt_sub, hsub, hone]
  exact Int.bmod_eq_of_le (by omega) (by omega)

/-- A path that leads somewhere has its beginning. -/
theorem has_of_find {jobj v : Json} {path more : List String}
    (h : jobj.find (path ++ more) = some v) : jobj.has path := by
  rw [Json.find, List.foldlM_append, Option.bind_eq_bind, Option.bind_eq_some_iff] at h
  obtain ⟨w, hw, -⟩ := h
  exact Option.isSome_iff_exists.mpr ⟨w, hw⟩

theorem Json.Reports.found {c : Counters} (h : jobj.Reports c) : ResponsesFound jobj := by
  rcases h.zone with ⟨hnone, -⟩ | ⟨hreq, h2, h5⟩
  · have hnot : ¬jobj.has ["serverZones", "nginx-proxy"] := by simp [hnone]
    exact ⟨h.serverZones, fun hz => absurd hz hnot, fun hz => absurd hz hnot,
      fun hz => absurd hz hnot, fun hz => absurd hz hnot, h.nowMsec⟩
  · refine ⟨h.serverZones, fun _ => ?_, fun _ => ?_, fun _ => ?_, fun _ => ?_, h.nowMsec⟩
    · exact Option.isSome_iff_exists.mpr ⟨_, hreq⟩
    · have hfind : jobj.find (["serverZones", "nginx-proxy", "responses"] ++ ["2xx"]) = _ := h2
      exact has_of_find hfind
    · exact Option.isSome_iff_exists.mpr ⟨_, h2⟩
    · exact Option.isSome_iff_exists.mpr ⟨_, h5⟩

/-- The totals that are read are the counters. -/
theorem Json.Reports.proxyTotals {c : Counters} (h : jobj.Reports c) : ∃ level,
    TestRateLimiting.proxyTotals jobj = some ((Int32.ofIntClamp c.requestCounter,
      Int32.ofIntClamp c.responses2xx, Int32.ofIntClamp c.responses5xx), level) := by
  refine ⟨jobj.intAt ["nowMsec"], ?_⟩
  rw [proxyTotals_of_found h.found]
  rcases h.zone with ⟨hnone, rfl⟩ | ⟨hreq, h2, h5⟩
  · have hlost : ∀ more, jobj.find (["serverZones", "nginx-proxy"] ++ more) = none := fun more => by
      by_contra hne
      obtain ⟨v, hv⟩ := Option.ne_none_iff_exists'.mp hne
      simp [has_of_find hv] at hnone
    have hzero : ∀ more, jobj.intAt (["serverZones", "nginx-proxy"] ++ more) = 0 := fun more => by
      rw [Json.intAt, hlost, Option.map_none, Option.getD_none]
    have hreq := hzero ["requestCounter"]
    have h2 := hzero ["responses", "2xx"]
    have h5 := hzero ["responses", "5xx"]
    simp only [List.cons_append, List.nil_append] at hreq h2 h5
    rw [hreq, h2, h5]
    rfl
  · simp only [Json.intAt, hreq, h2, h5, Option.map_some, Option.getD_some, jsonObjectGetInt]

/-- **A sample of a complete document**: it appends five columns, and remembers the totals. -/
theorem traceStats_reports {c : Counters} (h : jobj.Reports c) (t : Tracing) :
    ∃ accepted level, traceStats jobj t =
      { ctx := ⟨accepted, Int32.ofIntClamp c.requestCounter, Int32.ofIntClamp c.responses2xx,
          Int32.ofIntClamp c.responses5xx⟩
        row := t.row ++ [accepted - t.ctx.totAcceptedPrev - 1,
          Int32.ofIntClamp c.requestCounter - t.ctx.totReqPrev,
          Int32.ofIntClamp c.responses2xx - t.ctx.tot2xxPrev,
          Int32.ofIntClamp c.responses5xx - t.ctx.tot5xxPrev, level]
        burstLevel := level } := by
  obtain ⟨accepted, hacc⟩ := Option.isSome_iff_exists.mp (isSome_acceptedTotal.mpr h.accepted)
  obtain ⟨level, htotals⟩ := h.proxyTotals
  refine ⟨accepted, level, ?_⟩
  rw [traceStats_eq, traceStatsIrequests_of_some hacc, traceStatsResponses_of_some htotals]
  simp

/-- A complete document. -/
theorem reports_statusDoc {c : Counters} (h : c.Fits) (accepted level : ℕ) :
    (statusDoc c accepted level).Reports c := by
  by_cases h0 : c.requestCounter = 0
  · have hc : c = ⟨0, 0, 0⟩ := by
      obtain ⟨req, resp2xx, resp5xx⟩ := c
      obtain ⟨-, h2, h5⟩ := h
      simp only at h0 h2 h5
      simp only [Counters.mk.injEq]
      omega
    subst hc
    constructor <;> simp [AcceptedFound, Json.has, Json.find, statusDoc, jsonObjectObjectGetEx,
      List.lookup_cons]
  · constructor <;> simp [AcceptedFound, Json.has, Json.find, statusDoc, jsonObjectObjectGetEx, h0,
      List.lookup_cons]

/-! ### Columns -/

/-- The sum of a column of the file; the time is not counted. -/
def columnSum (rows : List (List Int32)) (k : ℕ) : ℤ :=
  (rows.map fun row => (row.getD k 0).toInt).sum

theorem columnSum_append (rows : List (List Int32)) (row : List Int32) (k : ℕ) :
    columnSum (rows ++ [row]) k = columnSum rows k + (row.getD k 0).toInt := by simp [columnSum]

/-- The totals remembered are none that an `int` has wrapped around. -/
structure TraceStatsCtx.Nonneg (ctx : TraceStatsCtx) : Prop where
  totReqPrev : 0 ≤ ctx.totReqPrev.toInt
  tot2xxPrev : 0 ≤ ctx.tot2xxPrev.toInt
  tot5xxPrev : 0 ≤ ctx.tot5xxPrev.toInt

/-- The columns `responded`, `2xx` and `5xx` add up to the totals remembered. -/
structure Summed (rows : List (List Int32)) (ctx : TraceStatsCtx) : Prop where
  responded : columnSum rows 1 = ctx.totReqPrev.toInt
  responses2xx : columnSum rows 2 = ctx.tot2xxPrev.toInt
  responses5xx : columnSum rows 3 = ctx.tot5xxPrev.toInt
  nonneg : ctx.Nonneg

theorem summed_nil : Summed [] .zero := ⟨rfl, rfl, rfl, by decide, by decide, by decide⟩

/-- Every complete sample keeps the sums. -/
theorem traceStats_sums {rows : List (List Int32)} {ctx : TraceStatsCtx} (hs : Summed rows ctx)
    {c : Counters} (h : jobj.Reports c) (burstLevel : Int32) :
    Summed (rows ++ [(traceStats jobj ⟨ctx, [], burstLevel⟩).row])
      (traceStats jobj ⟨ctx, [], burstLevel⟩).ctx := by
  obtain ⟨h1, h2, h3, hreq, h2xx, h5xx⟩ := hs
  obtain ⟨accepted, level, hstats⟩ := traceStats_reports h ⟨ctx, [], burstLevel⟩
  rw [hstats]
  refine ⟨?_, ?_, ?_, ofIntClamp_nonneg _, ofIntClamp_nonneg _, ofIntClamp_nonneg _⟩
  · simp only [columnSum_append, h1, List.nil_append, List.getD_cons_succ, List.getD_cons_zero,
      (toInt_sub_of_nonneg (ofIntClamp_nonneg _) hreq).1]
    omega
  · simp only [columnSum_append, h2, List.nil_append, List.getD_cons_succ, List.getD_cons_zero,
      (toInt_sub_of_nonneg (ofIntClamp_nonneg _) h2xx).1]
    omega
  · simp only [columnSum_append, h3, List.nil_append, List.getD_cons_succ, List.getD_cons_zero,
      (toInt_sub_of_nonneg (ofIntClamp_nonneg _) h5xx).1]
    omega

end NginxTools.TestRateLimiting
