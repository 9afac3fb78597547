import NginxTools.Library.Deltas
import NginxTools.TestRateLimiting.TraceStats

/-!
# A sequence of samples

`trace_stats` is given one document after the other, and any of them may be incomplete, or no
document at all. It works in two parts, each of which looks up its own fields, prints its own
columns, and remembers its own totals:

    trace_stats_irequests(jobj, ctx, LOG_CTX_GET());
    trace_stats_responses(jobj, ctx, LOG_CTX_GET());

## The model

A `Row` is what the two parts print of a document, and
`tracedRows` are the rows of a sequence.

## What is proved

* `traceStats_conserves` — over every sequence of documents the columns add up to the totals last
  printed, and no difference overflows: what a document lacks shows at the next one that has it.
* `recorded_iff` — a sample is recorded all or nothing exactly if its document has the fields of
  both parts, or lacks some of each; only then has each row of the file all of the columns, or none.
-/

namespace NginxTools.TestRateLimiting

open Library

variable {jobj : Json} {t : Tracing}

/-! ### Rows -/

/-- What the two parts print of a document. -/
structure Row where
  /-- The column `accepted`, or nothing. -/
  accepted : List Int32
  /-- The columns `responded`, `2xx`, `5xx` and `level`, or nothing. -/
  responses : List Int32
deriving DecidableEq

/-- The columns of the file, after the time. -/
def Row.columns (r : Row) : List Int32 := r.accepted ++ r.responses

/-- What has been printed since the row was `t.row`. -/
def printedSince (t u : Tracing) : List Int32 := u.row.drop t.row.length

/-- What is printed of a document. -/
def rowOf (jobj : Json) (t : Tracing) : Row :=
  ⟨printedSince t (traceStatsIrequests jobj t),
    printedSince (traceStatsIrequests jobj t)
      (traceStatsResponses jobj (traceStatsIrequests jobj t))⟩

/-- A new row is begun. -/
def Tracing.newRow (t : Tracing) : Tracing := { t with row := [] }

/-- The documents are traced one after the other, each in a row of its own. -/
def traceAll (docs : List Json) (t : Tracing) : Tracing :=
  docs.foldl (fun t jobj => traceStats jobj t.newRow) t

/-- The rows that tracing the documents leaves. -/
def tracedRows : List Json → Tracing → List Row
  | [], _ => []
  | jobj :: docs, t => rowOf jobj t.newRow :: tracedRows docs (traceStats jobj t.newRow)

theorem accepted_rowOf (jobj : Json) (t : Tracing) :
    (rowOf jobj t).accepted = (acceptedTotal jobj).toList.map (· - t.ctx.totAcceptedPrev - 1) := by
  cases h : acceptedTotal jobj with
  | none => simp [rowOf, printedSince, traceStatsIrequests_of_none h]
  | some n => simp [rowOf, printedSince, traceStatsIrequests_of_some h]

theorem responses_rowOf (jobj : Json) (t : Tracing) :
    (rowOf jobj t).responses = ((proxyTotals jobj).map fun r =>
      [r.1.1 - t.ctx.totReqPrev, r.1.2.1 - t.ctx.tot2xxPrev, r.1.2.2 - t.ctx.tot5xxPrev,
        r.2]).getD [] := by
  have hctx : (traceStatsIrequests jobj t).ctx.totReqPrev = t.ctx.totReqPrev ∧
      (traceStatsIrequests jobj t).ctx.tot2xxPrev = t.ctx.tot2xxPrev ∧
      (traceStatsIrequests jobj t).ctx.tot5xxPrev = t.ctx.tot5xxPrev := by
    cases h : acceptedTotal jobj with
    | none => simp [traceStatsIrequests_of_none h]
    | some n => simp [traceStatsIrequests_of_some h]
  obtain ⟨hreq, h2, h5⟩ := hctx
  cases h : proxyTotals jobj with
  | none => simp [rowOf, printedSince, traceStatsResponses_of_none h]
  | some r =>
    obtain ⟨⟨req, resp2xx, resp5xx⟩, level⟩ := r
    simp [rowOf, printedSince, traceStatsResponses_of_some h, hreq, h2, h5]

/-- **What a sample leaves**: its row is what the two parts have printed, and each part that prints
remembers its totals. -/
theorem traceStats_spec (jobj : Json) (t : Tracing) : traceStats jobj t =
    { row := t.row ++ (rowOf jobj t).columns
      burstLevel := ((proxyTotals jobj).map (·.2)).getD t.burstLevel
      ctx := {
        totAcceptedPrev := (acceptedTotal jobj).getD t.ctx.totAcceptedPrev
        totReqPrev := ((proxyTotals jobj).map (·.1.1)).getD t.ctx.totReqPrev
        tot2xxPrev := ((proxyTotals jobj).map (·.1.2.1)).getD t.ctx.tot2xxPrev
        tot5xxPrev := ((proxyTotals jobj).map (·.1.2.2)).getD t.ctx.tot5xxPrev } } := by
  rw [traceStats_eq, Row.columns, accepted_rowOf, responses_rowOf]
  cases hacc : acceptedTotal jobj with
  | none =>
    rw [traceStatsIrequests_of_none hacc]
    cases h : proxyTotals jobj with
    | none => simp [traceStatsResponses_of_none h]
    | some r =>
      obtain ⟨⟨req, resp2xx, resp5xx⟩, level⟩ := r
      simp [traceStatsResponses_of_some h]
  | some n =>
    rw [traceStatsIrequests_of_some hacc]
    cases h : proxyTotals jobj with
    | none => simp [traceStatsResponses_of_none h]
    | some r =>
      obtain ⟨⟨req, resp2xx, resp5xx⟩, level⟩ := r
      simp [traceStatsResponses_of_some h]

/-! ### All or nothing -/

/-- What a sample of a document with all fields leaves. -/
def recorded (jobj : Json) (t : Tracing) : Tracing :=
  let accepted := jobj.intAt ["connections", "accepted"]
  let req := jobj.intAt ["serverZones", "nginx-proxy", "requestCounter"]
  let resp2xx := jobj.intAt ["serverZones", "nginx-proxy", "responses", "2xx"]
  let resp5xx := jobj.intAt ["serverZones", "nginx-proxy", "responses", "5xx"]
  let level := jobj.intAt ["nowMsec"]
  { row := t.row ++ [accepted - t.ctx.totAcceptedPrev - 1, req - t.ctx.totReqPrev,
    resp2xx - t.ctx.tot2xxPrev, resp5xx - t.ctx.tot5xxPrev, level]
    burstLevel := level
    ctx := ⟨accepted, req, resp2xx, resp5xx⟩ }

/-- A sample with all fields is recorded, or it leaves everything as it was. -/
def AllOrNothing (jobj : Json) (t : Tracing) : Prop :=
  (AcceptedFound jobj ∧ ResponsesFound jobj) ∧ traceStats jobj t = recorded jobj t ∨
    traceStats jobj t = t

theorem acceptedTotal_of_found (h : AcceptedFound jobj) :
    acceptedTotal jobj = some (jobj.intAt ["connections", "accepted"]) := by
  obtain ⟨n, hn⟩ := Option.isSome_iff_exists.mp (isSome_acceptedTotal.mpr h)
  rw [Json.intAt, ← acceptedTotal, hn, Option.getD_some]

theorem acceptedTotal_of_not_found (h : ¬AcceptedFound jobj) : acceptedTotal jobj = none := by
  rw [← Option.not_isSome_iff_eq_none, isSome_acceptedTotal]
  exact h

theorem traceStats_of_found (ha : AcceptedFound jobj) (hr : ResponsesFound jobj) :
    traceStats jobj t = recorded jobj t := by
  rw [traceStats_spec, Row.columns, accepted_rowOf, responses_rowOf, acceptedTotal_of_found ha,
    proxyTotals_of_found hr]
  rfl

theorem traceStats_of_not_found (ha : ¬AcceptedFound jobj) (hr : ¬ResponsesFound jobj) :
    traceStats jobj t = t := by
  rw [traceStats_eq, traceStatsIrequests_of_none (acceptedTotal_of_not_found ha),
    traceStatsResponses_of_none (proxyTotals_of_not_found hr)]

theorem length_accepted_rowOf (jobj : Json) (t : Tracing) :
    (rowOf jobj t).accepted.length = if (acceptedTotal jobj).isSome then 1 else 0 := by
  rw [accepted_rowOf]
  cases acceptedTotal jobj <;> simp

theorem length_responses_rowOf (jobj : Json) (t : Tracing) :
    (rowOf jobj t).responses.length = if (proxyTotals jobj).isSome then 4 else 0 := by
  rw [responses_rowOf]
  cases proxyTotals jobj <;> simp

/-- **The columns of a row**: all of them or none, exactly if the fields of the two parts are there
or missing together. -/
theorem columns_rowOf_iff (jobj : Json) (t : Tracing) :
    ((rowOf jobj t).columns.length = 0 ∨ (rowOf jobj t).columns.length = 5) ↔
      (AcceptedFound jobj ↔ ResponsesFound jobj) := by
  rw [Row.columns, List.length_append, length_accepted_rowOf, length_responses_rowOf,
    ← isSome_acceptedTotal, ← isSome_proxyTotals]
  cases (acceptedTotal jobj).isSome <;> cases (proxyTotals jobj).isSome <;> simp

/-- The same of a sequence: each row is that of one of the documents. -/
theorem columns_tracedRows_iff (docs : List Json) (t : Tracing) :
    (∀ row ∈ tracedRows docs t, row.columns.length = 0 ∨ row.columns.length = 5) ↔
      ∀ jobj ∈ docs, (AcceptedFound jobj ↔ ResponsesFound jobj) := by
  induction docs generalizing t with
  | nil => simp [tracedRows]
  | cons jobj docs ih =>
    simp only [tracedRows, List.forall_mem_cons]
    rw [columns_rowOf_iff, ih]

/-- **A sample is recorded all or nothing** exactly if its document has the fields of both parts, or
lacks fields of both. Exactly then each row of the file has all of the columns after the time, or
none. -/
theorem recorded_iff (jobj : Json) (docs : List Json) (t : Tracing) :
    (AllOrNothing jobj t ↔ (AcceptedFound jobj ↔ ResponsesFound jobj)) ∧
    ((∀ row ∈ tracedRows docs t, row.columns.length = 0 ∨ row.columns.length = 5) ↔
      ∀ jobj ∈ docs, (AcceptedFound jobj ↔ ResponsesFound jobj)) := by
  refine ⟨?_, columns_tracedRows_iff docs t⟩
  constructor
  · rintro (⟨⟨ha, hr⟩, -⟩ | hsame)
    · exact iff_of_true ha hr
    · -- Nothing is printed, so that neither part has found its fields.
      rw [← columns_rowOf_iff jobj t]
      left
      have hrow := congrArg (fun u => u.row.length) hsame
      simp only [traceStats_spec, List.length_append] at hrow
      omega
  · intro h
    by_cases ha : AcceptedFound jobj
    · exact .inl ⟨⟨ha, h.mp ha⟩, traceStats_of_found ha (h.mp ha)⟩
    · exact .inr (traceStats_of_not_found ha fun hr => ha (h.mpr hr))

/-- A document that has the connections only. -/
def connectionsOnly : Json := .object [("connections", .object [("accepted", .int 5)])]

/-- Half of its sample is recorded: a row of one column, and one total remembered. -/
theorem half_recorded : ¬AllOrNothing connectionsOnly ⟨.zero, [], 0⟩ ∧
    (traceStats connectionsOnly ⟨.zero, [], 0⟩).row = [4] := by
  have hrow : (traceStats connectionsOnly ⟨.zero, [], 0⟩).row = [4] := by decide
  refine ⟨?_, hrow⟩
  rintro (⟨⟨-, hr⟩, -⟩ | hsame)
  · exact absurd hr.serverZones (by decide)
  · rw [hsame] at hrow
    cases hrow

/-! ### Conservation -/

/-- A non-negative JSON integer below `2 ^ 31 - 1`. -/
def Json.IsCounter (v : Json) : Prop := ∃ n : ℤ, v = .int n ∧ 0 ≤ n ∧ n < 2 ^ 31 - 1

/-- Where the counters are. -/
def counterPaths : List (List String) :=
  [["connections", "accepted"], ["serverZones", "nginx-proxy", "requestCounter"],
    ["serverZones", "nginx-proxy", "responses", "2xx"],
    ["serverZones", "nginx-proxy", "responses", "5xx"]]

/-- What is found where a counter is to be is one. -/
def CountersFit (jobj : Json) : Prop :=
  ∀ path ∈ counterPaths, ∀ v, jobj.find path = some v → v.IsCounter

/-- The integer at a path of a document, and zero if there is none. -/
def Json.numberAt (jobj : Json) (path : List String) : ℤ :=
  match jobj.find path with
  | some (.int n) => n
  | _ => 0

instance (jobj : Json) : Decidable (AcceptedFound jobj) := inferInstanceAs (Decidable (_ = true))

instance (jobj : Json) : Decidable (ResponsesFound jobj) := decidable_of_iff _ isSome_proxyTotals

/-- The number at a path in the last document whose response part is printed, zero if there is
none. -/
def lastResponded (docs : List Json) (path : List String) : ℤ :=
  ((docs.filter (ResponsesFound ·)).getLast?.map
    (·.numberAt (["serverZones", "nginx-proxy"] ++ path))).getD 0

/-- The number of connections in the last document that has one. -/
def lastAccepted (docs : List Json) : ℤ :=
  ((docs.filter (AcceptedFound ·)).getLast?.map (·.numberAt ["connections", "accepted"])).getD 0

/-- A number that an `int` can hold. -/
def IsInt (n : ℤ) : Prop := -2 ^ 31 ≤ n ∧ n ≤ 2 ^ 31 - 1

/-- No difference that is computed for a document overflows. -/
structure NoOverflow (jobj : Json) (ctx : TraceStatsCtx) : Prop where
  accepted : ∀ n, acceptedTotal jobj = some n →
    IsInt (n.toInt - ctx.totAcceptedPrev.toInt) ∧ IsInt (n.toInt - ctx.totAcceptedPrev.toInt - 1)
  responses : ∀ req resp2xx resp5xx level,
    proxyTotals jobj = some ((req, resp2xx, resp5xx), level) →
    IsInt (req.toInt - ctx.totReqPrev.toInt) ∧ IsInt (resp2xx.toInt - ctx.tot2xxPrev.toInt) ∧
    IsInt (resp5xx.toInt - ctx.tot5xxPrev.toInt)

/-- The columns of the file say what the documents say. -/
structure Conserved (docs : List Json) (t : Tracing) : Prop where
  noOverflow : ∀ before jobj after, docs = before ++ jobj :: after →
    NoOverflow jobj (traceAll before t).ctx
  responded : columnSum ((tracedRows docs t).map Row.responses) 0 =
    lastResponded docs ["requestCounter"]
  responses2xx : columnSum ((tracedRows docs t).map Row.responses) 1 =
    lastResponded docs ["responses", "2xx"]
  responses5xx : columnSum ((tracedRows docs t).map Row.responses) 2 =
    lastResponded docs ["responses", "5xx"]
  accepted : (((tracedRows docs t).flatMap Row.accepted).map Int32.toInt).sum =
    lastAccepted docs - (docs.filter (AcceptedFound ·)).length

/-- A total that is remembered when it is found, and else kept. -/
def Remembered (total : Json → Option Int32) (prev : TraceStatsCtx → Int32) : Prop :=
  ∀ jobj t, prev (traceStats jobj t).ctx = (total jobj).getD (prev t.ctx)

theorem remembered_accepted : Remembered acceptedTotal (·.totAcceptedPrev) :=
  fun jobj t => by rw [traceStats_spec]

theorem remembered_req : Remembered (fun jobj => (proxyTotals jobj).map (·.1.1)) (·.totReqPrev) :=
  fun jobj t => by rw [traceStats_spec]

theorem remembered_2xx : Remembered (fun jobj => (proxyTotals jobj).map (·.1.2.1)) (·.tot2xxPrev) :=
  fun jobj t => by rw [traceStats_spec]

theorem remembered_5xx : Remembered (fun jobj => (proxyTotals jobj).map (·.1.2.2)) (·.tot5xxPrev) :=
  fun jobj t => by rw [traceStats_spec]

/-- The total that a document has, as a number. -/
def intTotal (total : Json → Option Int32) (jobj : Json) : Option ℤ :=
  (total jobj).map Int32.toInt

/-- No total of the documents is negative. -/
def Totals (total : Json → Option Int32) (docs : List Json) : Prop :=
  ∀ jobj ∈ docs, ∀ n, total jobj = some n → 0 ≤ n.toInt

section Remembered

variable {total : Json → Option Int32} {prev : TraceStatsCtx → Int32}

/-- What is remembered is the total found last. -/
theorem Remembered.eq_lastTotal (hrem : Remembered total prev) (docs : List Json) (t : Tracing) :
    (prev (traceAll docs t).ctx).toInt = lastTotal (intTotal total) (prev t.ctx).toInt docs := by
  induction docs generalizing t with
  | nil => rfl
  | cons jobj docs ih =>
    have hstep := hrem jobj t.newRow
    have ih : (prev (traceAll (jobj :: docs) t).ctx).toInt = _ := ih (traceStats jobj t.newRow)
    rw [ih, hstep]
    cases h : total jobj with
    | none => rw [lastTotal_cons_none (by simp [intTotal, h]), Option.getD_none, Tracing.newRow]
    | some n => rw [lastTotal_cons_some (n := n.toInt) (by simp [intTotal, h]), Option.getD_some]

/-- What is remembered next is not negative. -/
theorem Remembered.nonneg (hrem : Remembered total prev) {jobj : Json} {docs : List Json}
    (hdocs : Totals total (jobj :: docs)) {t : Tracing} (ht : 0 ≤ (prev t.ctx).toInt) :
    0 ≤ (prev (traceStats jobj t.newRow).ctx).toInt := by
  rw [hrem jobj t.newRow]
  cases h : total jobj with
  | none => exact ht
  | some n => exact hdocs jobj List.mem_cons_self n h

/-- A column of differences of such a total, none of which overflows. -/
theorem Remembered.column {k : ℕ} (hrem : Remembered total prev)
    (hcol : ∀ jobj t,
      (rowOf jobj t).responses.getD k 0 = ((total jobj).map (· - prev t.ctx)).getD 0)
    (docs : List Json) (hdocs : Totals total docs) (t : Tracing) (ht : 0 ≤ (prev t.ctx).toInt) :
    columnSum ((tracedRows docs t).map Row.responses) k =
      (deltas (intTotal total) (prev t.ctx).toInt docs).sum := by
  induction docs generalizing t with
  | nil => rfl
  | cons jobj docs ih =>
    have hstep := hrem jobj t.newRow
    have hhead := hcol jobj t.newRow
    have hrest : Totals total docs := fun x hx => hdocs x (List.mem_cons_of_mem _ hx)
    have ih := ih hrest (traceStats jobj t.newRow) (hrem.nonneg hdocs ht)
    rw [hstep] at ih
    simp only [columnSum, tracedRows, List.map_cons, List.sum_cons] at ih ⊢
    rw [hhead, ih]
    cases h : total jobj with
    | none => rw [deltas_cons_none (by simp [intTotal, h])]; simp [Tracing.newRow]
    | some n =>
      have hsub := (toInt_sub_of_nonneg (hdocs jobj List.mem_cons_self n h) ht).1
      rw [deltas_cons_some (n := n.toInt) (by simp [intTotal, h])]
      simp [Tracing.newRow, hsub]

end Remembered

/-- The column `accepted` is one less than the differences. -/
theorem flatMap_accepted (docs : List Json) (hdocs : Totals acceptedTotal docs) (t : Tracing)
    (ht : 0 ≤ t.ctx.totAcceptedPrev.toInt) :
    ((tracedRows docs t).flatMap Row.accepted).map Int32.toInt =
      (deltas (intTotal acceptedTotal) t.ctx.totAcceptedPrev.toInt docs).map (· - 1) := by
  induction docs generalizing t with
  | nil => rfl
  | cons jobj docs ih =>
    have hstep : (traceStats jobj t.newRow).ctx.totAcceptedPrev = _ :=
      remembered_accepted jobj t.newRow
    have hrest : Totals acceptedTotal docs := fun x hx => hdocs x (List.mem_cons_of_mem _ hx)
    have ih := ih hrest (traceStats jobj t.newRow) (remembered_accepted.nonneg hdocs ht)
    rw [tracedRows, List.flatMap_cons, List.map_append, accepted_rowOf, ih, hstep]
    cases h : acceptedTotal jobj with
    | none => rw [deltas_cons_none (by simp [intTotal, h])]; simp [Tracing.newRow]
    | some n =>
      have hsub := (toInt_sub_of_nonneg (hdocs jobj List.mem_cons_self n h) ht).2
      rw [deltas_cons_some (n := n.toInt) (by simp [intTotal, h])]
      simp [Tracing.newRow, hsub]

section Counters

/-- A counter is read as it is written. -/
theorem numberAt_of_counter (hfit : CountersFit jobj) {path : List String}
    (hpath : path ∈ counterPaths) :
    (jobj.intAt path).toInt = jobj.numberAt path ∧ 0 ≤ jobj.numberAt path ∧
      jobj.numberAt path ≤ 2 ^ 31 - 2 := by
  cases hfind : jobj.find path with
  | none => simp [Json.intAt, Json.numberAt, hfind]
  | some v =>
    obtain ⟨n, rfl, hn0, hn⟩ := hfit path hpath v hfind
    have hclamp : (Int32.ofIntClamp n).toInt = n := by rw [toInt_ofIntClamp]; omega
    simp only [Json.intAt, Json.numberAt, hfind, Option.map_some, Option.getD_some,
      jsonObjectGetInt, hclamp, true_and]
    omega

theorem acceptedTotal_eq (hfit : CountersFit jobj) : intTotal acceptedTotal jobj =
    if decide (AcceptedFound jobj) then some (jobj.numberAt ["connections", "accepted"])
      else none := by
  by_cases h : AcceptedFound jobj
  · have hnum := (numberAt_of_counter hfit
      (show ["connections", "accepted"] ∈ counterPaths by simp [counterPaths])).1
    rw [intTotal, acceptedTotal_of_found h, Option.map_some, hnum]
    simp [h]
  · rw [intTotal, acceptedTotal_of_not_found h]
    simp [h]

/-- A total of the response part, which is the number at its path. -/
theorem map_proxyTotals_eq (field : Int32 × Int32 × Int32 → Int32) (hfit : CountersFit jobj)
    {path : List String} (hpath : path ∈ counterPaths)
    (hfield : field (jobj.intAt ["serverZones", "nginx-proxy", "requestCounter"],
      jobj.intAt ["serverZones", "nginx-proxy", "responses", "2xx"],
      jobj.intAt ["serverZones", "nginx-proxy", "responses", "5xx"]) = jobj.intAt path) :
    intTotal (fun jobj => (proxyTotals jobj).map fun r => field r.1) jobj =
      if decide (ResponsesFound jobj) then some (jobj.numberAt path) else none := by
  by_cases h : ResponsesFound jobj
  · rw [intTotal, proxyTotals_of_found h, Option.map_some, Option.map_some, hfield,
      (numberAt_of_counter hfit hpath).1]
    simp [h]
  · rw [intTotal, proxyTotals_of_not_found h]
    simp [h]

end Counters

section Bounds

variable {total : Json → Option Int32} {found : Json → Bool} {value : Json → ℤ}
  {docs before after : List Json}

/-- Totals that are read as written are not negative. -/
theorem totals_of_test
    (h : ∀ jobj ∈ docs, intTotal total jobj = if found jobj then some (value jobj) else none)
    (hv : ∀ jobj ∈ docs, 0 ≤ value jobj ∧ value jobj ≤ 2 ^ 31 - 2) : Totals total docs := by
  intro jobj hjobj n hn
  have htotal := h jobj hjobj
  rw [intTotal, hn, Option.map_some] at htotal
  split at htotal
  · exact Option.some.inj htotal ▸ (hv jobj hjobj).1
  · cases htotal

/-- A column of the response part adds up to the last number at its path. -/
theorem Remembered.sum_column {prev : TraceStatsCtx → Int32} {k : ℕ} {path : List String}
    (hrem : Remembered total prev)
    (hcol : ∀ jobj t,
      (rowOf jobj t).responses.getD k 0 = ((total jobj).map (· - prev t.ctx)).getD 0)
    (hzero : prev .zero = 0)
    (h : ∀ jobj ∈ docs, intTotal total jobj = if decide (ResponsesFound jobj) then
      some (jobj.numberAt (["serverZones", "nginx-proxy"] ++ path)) else none)
    (hv : ∀ jobj ∈ docs, 0 ≤ jobj.numberAt (["serverZones", "nginx-proxy"] ++ path) ∧
      jobj.numberAt (["serverZones", "nginx-proxy"] ++ path) ≤ 2 ^ 31 - 2) (level : Int32) :
    columnSum ((tracedRows docs ⟨.zero, [], level⟩).map Row.responses) k =
      lastResponded docs path := by
  have hnone : (prev .zero).toInt = 0 := by rw [hzero]; rfl
  have hsum := hrem.column hcol docs (totals_of_test h hv) ⟨.zero, [], level⟩ hnone.ge
  rw [hsum, sum_deltas, lastTotal_of_test h, hnone, Int.sub_zero]
  rfl

/-- Differences of counters that are read as written. -/
theorem isInt_sub
    (h : ∀ jobj ∈ docs, intTotal total jobj = if found jobj then some (value jobj) else none)
    (hv : ∀ jobj ∈ docs, 0 ≤ value jobj ∧ value jobj ≤ 2 ^ 31 - 2)
    (hdocs : docs = before ++ jobj :: after) {n : Int32} (hn : total jobj = some n) :
    IsInt (n.toInt - lastTotal (intTotal total) 0 before) ∧
      IsInt (n.toInt - lastTotal (intTotal total) 0 before - 1) := by
  have hbound : ∀ x ∈ docs, ∀ m, intTotal total x = some m → 0 ≤ m ∧ m ≤ 2 ^ 31 - 2 := by
    intro x hx m hm
    rw [h x hx] at hm
    split at hm
    · cases hm
      exact hv x hx
    · cases hm
  have hprev : 0 ≤ lastTotal (intTotal total) 0 before ∧
      lastTotal (intTotal total) 0 before ≤ 2 ^ 31 - 2 :=
    lastTotal_bounds (by omega) fun x hx => hbound x (by simp [hdocs, hx])
  have hnew := hbound jobj (by simp [hdocs]) n.toInt (by simp [intTotal, hn])
  unfold IsInt
  omega

end Bounds

/-- **The columns of the file say what the documents say**: whatever documents are given one after
the other, each of which may lack the zone or any field, or not be one at all. No difference
overflows. -/
theorem traceStats_conserves (docs : List Json) (hfit : ∀ jobj ∈ docs, CountersFit jobj)
    (level : Int32) :
    Conserved docs ⟨.zero, [], level⟩ := by
  have hacc := fun jobj hj => acceptedTotal_eq (hfit jobj hj)
  have hreq := fun jobj hj => map_proxyTotals_eq (·.1) (hfit jobj hj)
    (show ["serverZones", "nginx-proxy", "requestCounter"] ∈ counterPaths by simp [counterPaths])
    rfl
  have h2xx := fun jobj hj => map_proxyTotals_eq (·.2.1) (hfit jobj hj)
    (show ["serverZones", "nginx-proxy", "responses", "2xx"] ∈ counterPaths by simp [counterPaths])
    rfl
  have h5xx := fun jobj hj => map_proxyTotals_eq (·.2.2) (hfit jobj hj)
    (show ["serverZones", "nginx-proxy", "responses", "5xx"] ∈ counterPaths by simp [counterPaths])
    rfl
  have hnum : ∀ path ∈ counterPaths, ∀ jobj ∈ docs, 0 ≤ jobj.numberAt path ∧
      jobj.numberAt path ≤ 2 ^ 31 - 2 :=
    fun path hpath jobj hj => (numberAt_of_counter (hfit jobj hj) hpath).2
  refine ⟨fun before jobj after hdocs => ⟨?_, ?_⟩, ?_, ?_, ?_, ?_⟩
  · intro n hn
    have hprev : (traceAll before ⟨.zero, [], level⟩).ctx.totAcceptedPrev.toInt = _ :=
      remembered_accepted.eq_lastTotal before _
    rw [hprev]
    exact isInt_sub hacc (hnum _ (by simp [counterPaths])) hdocs hn
  · intro req resp2xx resp5xx lvl h
    have hreq' : (traceAll before ⟨.zero, [], level⟩).ctx.totReqPrev.toInt = _ :=
      remembered_req.eq_lastTotal before _
    have h2 : (traceAll before ⟨.zero, [], level⟩).ctx.tot2xxPrev.toInt = _ :=
      remembered_2xx.eq_lastTotal before _
    have h5 : (traceAll before ⟨.zero, [], level⟩).ctx.tot5xxPrev.toInt = _ :=
      remembered_5xx.eq_lastTotal before _
    rw [hreq', h2, h5]
    exact ⟨(isInt_sub hreq (hnum _ (by simp [counterPaths])) hdocs (by rw [h]; rfl)).1,
      (isInt_sub h2xx (hnum _ (by simp [counterPaths])) hdocs (by rw [h]; rfl)).1,
      (isInt_sub h5xx (hnum _ (by simp [counterPaths])) hdocs (by rw [h]; rfl)).1⟩
  · exact remembered_req.sum_column
      (fun jobj t => by rw [responses_rowOf]; cases proxyTotals jobj <;> rfl) rfl hreq
      (hnum _ (by simp [counterPaths])) level
  · exact remembered_2xx.sum_column
      (fun jobj t => by rw [responses_rowOf]; cases proxyTotals jobj <;> rfl) rfl h2xx
      (hnum _ (by simp [counterPaths])) level
  · exact remembered_5xx.sum_column
      (fun jobj t => by rw [responses_rowOf]; cases proxyTotals jobj <;> rfl) rfl h5xx
      (hnum _ (by simp [counterPaths])) level
  · rw [flatMap_accepted docs (totals_of_test hacc (hnum _ (by simp [counterPaths]))) _
      (Int.le_refl _), sum_map_sub, sum_deltas, length_deltas, filterMap_of_test hacc,
      lastTotal_of_test hacc, List.length_map, Int.one_mul]
    simp [lastAccepted, TraceStatsCtx.zero]

/-- A document with an unused zone, one that cannot be parsed, one without connections, and a
complete one. -/
def mixedDocs : List Json :=
  [.object [("connections", .object [("accepted", .int 3)]), ("serverZones", .object []),
    ("nowMsec", .int 0)], .null,
    .object [("serverZones", .object [("nginx-proxy", .object [("requestCounter", .int 2),
      ("responses", .object [("2xx", .int 2), ("5xx", .int 0)])])]), ("nowMsec", .int 7)],
    .object [("connections", .object [("accepted", .int 9)]),
      ("serverZones", .object [("nginx-proxy", .object [("requestCounter", .int 5),
        ("responses", .object [("2xx", .int 4), ("5xx", .int 1)])])]), ("nowMsec", .int 1)]]

/-- Its columns add up to the totals of the last document, two of which have shown connections. -/
theorem traceStats_conserves_mixedDocs : Conserved mixedDocs ⟨.zero, [], 0⟩ ∧
    lastResponded mixedDocs ["requestCounter"] = 5 ∧
    (((tracedRows mixedDocs ⟨.zero, [], 0⟩).flatMap Row.accepted).map Int32.toInt).sum = 7 := by
  refine ⟨traceStats_conserves mixedDocs ?_ 0, by decide, by decide⟩
  intro jobj hj path hpath v hv
  simp only [mixedDocs, counterPaths, List.mem_cons, List.not_mem_nil, or_false] at hj hpath
  rcases hj with rfl | rfl | rfl | rfl <;> rcases hpath with rfl | rfl | rfl | rfl <;>
    simp only [find_cons, find_nil, jsonObjectObjectGetEx] at hv <;>
    cases hv <;> exact ⟨_, rfl, by decide, by decide⟩

end NginxTools.TestRateLimiting
