import Mathlib.Data.List.DropRight
import NginxTools.TestRateLimiting.Samples

/-!
# The sampler's own polls

Every poll is a connection to the proxy, which the proxy accepts, and counts, like those of the
clients. The column `accepted` is to show the clients only:

    fprintf(ctx->statsfile, " %d", tot_accepted - ctx->tot_accepted_prev - 1);

One connection is taken off for each value printed, while one is made for each poll.

## The model

A `Poll` is the number of clients that have connected since the poll before, and what has come of
it. `sample` makes the polls one after the other, and `printedAccepted` is what the next one prints
in the column. `answered` are the polls up to the last that has printed a value, `missed` those
after it. A poll without a response ends the thread, as `trace_stats` is then given `NULL`.

## What is proved

`accepted_counts_clients_iff` — a value in the column is the number of clients exactly if the polls
missed before it are as many as the connections that an `int` has no room for: none, while the
counter fits one.
-/

namespace NginxTools.TestRateLimiting

open Library

/-- A poll of the status document. -/
structure Poll where
  /-- The clients that have connected since the poll before, by the time the document is made. -/
  clients : ℕ
  /-- What `json_tokener_parse` makes of the response, if there is one. -/
  response : Option Json

/-- The document has the counter, so that a value is printed. -/
def Poll.prints (p : Poll) : Bool := p.response.any fun jobj => AcceptedFound jobj

/-- The clients that have connected. -/
def clientsOf (polls : List Poll) : ℕ := (polls.map Poll.clients).sum

/-- All connections: every poll makes one itself. -/
def connections (polls : List Poll) : ℕ := (polls.map fun p => p.clients + 1).sum

/-- The proxy counts all connections, that of the poll included, before it makes the document. -/
def CountsAll (polls : List Poll) : Prop :=
  ∀ front p after jobj v, polls = front ++ p :: after → p.response = some jobj →
    jobj.find ["connections", "accepted"] = some v → v = .int (connections (front ++ [p]))

/-- The polls are made one after the other. -/
def sample (polls : List Poll) (t : Tracing) : Option Tracing :=
  polls.foldlM (fun t p => p.response.map fun jobj => traceStats jobj t.newRow) t

/-- What the next poll prints in the column `accepted`. -/
def printedAccepted (front : List Poll) (p : Poll) (t : Tracing) : Option Int32 := do
  let t ← sample front t
  let jobj ← p.response
  (rowOf jobj t.newRow).accepted.head?

/-- The polls up to the last that has printed a value. -/
def answered (front : List Poll) : List Poll := front.rdropWhile (!·.prints)

/-- The polls since then. -/
def missed (front : List Poll) : List Poll := front.rtakeWhile (!·.prints)

/-- How many of the connections an `int` has no room for. -/
def overflowing (n : ℕ) : ℕ := n - (2 ^ 31 - 1)

/-! ### What is remembered -/

theorem connections_append (xs ys : List Poll) :
    connections (xs ++ ys) = connections xs + connections ys := by
  simp [connections]

theorem connections_eq (polls : List Poll) :
    connections polls = clientsOf polls + polls.length := by
  simp [connections, clientsOf, List.sum_map_add]

theorem answered_append_missed (front : List Poll) : answered front ++ missed front = front :=
  List.rdropWhile_append_rtakeWhile ..

/-- What is read of a number of connections. -/
theorem toInt_ofIntClamp_natCast (n : ℕ) : (Int32.ofIntClamp n).toInt = n - overflowing n := by
  rw [toInt_ofIntClamp]
  unfold overflowing
  omega

theorem sample_append (front : List Poll) (p : Poll) (t : Tracing) :
    sample (front ++ [p]) t = (sample front t).bind fun u =>
      p.response.map fun jobj => traceStats jobj u.newRow := by
  simp only [sample, List.foldlM_append, List.foldlM_cons, List.foldlM_nil]
  cases List.foldlM (fun t p => p.response.map fun jobj => traceStats jobj t.newRow) t front with
  | none => rfl
  | some u => simp

/-- The history up to a poll is counted as well. -/
theorem CountsAll.of_append {xs ys : List Poll} (h : CountsAll (xs ++ ys)) : CountsAll xs := by
  intro front p after jobj v hsplit
  exact h front p (after ++ ys) jobj v (by simp [hsplit])

/-- What a document says of the connections. -/
theorem CountsAll.acceptedTotal {front : List Poll} {p : Poll} (h : CountsAll (front ++ [p]))
    {jobj : Json} (hp : p.response = some jobj) (hfound : AcceptedFound jobj) :
    acceptedTotal jobj = some (Int32.ofIntClamp (connections (front ++ [p]))) := by
  obtain ⟨v, hv⟩ := Option.isSome_iff_exists.mp hfound
  obtain rfl := h front p [] jobj v rfl hp hv
  simp [TestRateLimiting.acceptedTotal, hv, jsonObjectGetInt]

/-- **What is remembered**: the connections there were at the last poll that has printed a value. -/
theorem totAcceptedPrev_of_sample {front : List Poll} (h : CountsAll front) {level : Int32}
    {t : Tracing} (ht : sample front ⟨.zero, [], level⟩ = some t) :
    t.ctx.totAcceptedPrev = Int32.ofIntClamp (connections (answered front)) := by
  induction front using List.reverseRecOn generalizing t with
  | nil => cases ht; rfl
  | append_singleton front p ih =>
    rw [sample_append] at ht
    obtain ⟨u, hu, ht⟩ := Option.bind_eq_some_iff.mp ht
    obtain ⟨jobj, hp, rfl⟩ := Option.map_eq_some_iff.mp ht
    have ih := ih h.of_append hu
    have hstep : (traceStats jobj u.newRow).ctx.totAcceptedPrev = _ :=
      remembered_accepted jobj u.newRow
    by_cases hfound : AcceptedFound jobj
    · rw [hstep, h.acceptedTotal hp hfound, answered, List.rdropWhile_concat_neg]
      · rfl
      · simp [Poll.prints, hp, hfound]
    · rw [hstep, acceptedTotal_of_not_found hfound, answered, List.rdropWhile_concat_pos]
      · exact ih
      · simp [Poll.prints, hp, hfound]

/-- **A value in the column**: the clients since the last one and the polls missed, less the
connections that an `int` has no room for. -/
theorem printedAccepted_eq {front : List Poll} {p : Poll} (h : CountsAll (front ++ [p]))
    {level v : Int32} (hv : printedAccepted front p ⟨.zero, [], level⟩ = some v) :
    v.toInt = clientsOf (missed front ++ [p]) + (missed front).length -
      (overflowing (connections (front ++ [p])) - overflowing (connections (answered front))) := by
  obtain ⟨t, ht, hv⟩ := Option.bind_eq_some_iff.mp hv
  obtain ⟨jobj, hp, hv⟩ := Option.bind_eq_some_iff.mp hv
  rw [accepted_rowOf] at hv
  cases hacc : TestRateLimiting.acceptedTotal jobj with
  | none => simp [hacc] at hv
  | some n =>
    have hfound : AcceptedFound jobj := isSome_acceptedTotal.mp (by simp [hacc])
    obtain rfl := Option.some.inj (hacc.symm.trans (h.acceptedTotal hp hfound))
    have hprev := totAcceptedPrev_of_sample h.of_append ht
    simp only [hacc, Option.toList_some, List.map_cons, List.head?_cons, Option.some.injEq,
      Tracing.newRow, hprev] at hv
    have hsplit : connections (front ++ [p]) =
        connections (answered front) + connections (missed front ++ [p]) := by
      rw [← connections_append, ← List.append_assoc, answered_append_missed]
    have hsince := connections_eq (missed front ++ [p])
    rw [List.length_append, List.length_singleton] at hsince
    have hnow := toInt_ofIntClamp_natCast (connections (front ++ [p]))
    have hthen := toInt_ofIntClamp_natCast (connections (answered front))
    have hsub := (toInt_sub_of_nonneg (ofIntClamp_nonneg (connections (front ++ [p])))
      (ofIntClamp_nonneg (connections (answered front)))).2
    rw [hv, hnow, hthen] at hsub
    omega

/-- **The column `accepted` never counts the sampler's own polls**: every value in it is the number
of clients since the last one, exactly if no poll has been missed since but as many as the counter
has run over. -/
theorem accepted_counts_clients_iff (polls : List Poll) (hcount : CountsAll polls) (level : Int32) :
    ∀ front p after v, polls = front ++ p :: after →
      printedAccepted front p ⟨.zero, [], level⟩ = some v →
      (v.toInt = clientsOf (missed front ++ [p]) ↔
        (missed front).length + overflowing (connections (answered front)) =
          overflowing (connections (front ++ [p]))) := by
  intro front p after v hsplit hv
  have hcount : CountsAll ((front ++ [p]) ++ after) := by
    rw [List.append_assoc]
    exact hsplit ▸ hcount
  have hv := printedAccepted_eq hcount.of_append hv
  omega

/-- A document with a number of connections. -/
def connectionsDoc (n : ℕ) : Json := .object [("connections", .object [("accepted", .int n)])]

/-- Two clients, and a poll that is answered by a page that is not a document; one client, and a
poll that succeeds. -/
def errorPageThenDocument : List Poll := [⟨2, some .null⟩, ⟨1, some (connectionsDoc 5)⟩]

/-- Two polls, each of which is counted. -/
theorem countsAll_pair {p q : Poll}
    (hp : ∀ jobj v, p.response = some jobj → jobj.find ["connections", "accepted"] = some v →
      v = .int (connections [p]))
    (hq : ∀ jobj v, q.response = some jobj → jobj.find ["connections", "accepted"] = some v →
      v = .int (connections [p, q])) :
    CountsAll [p, q] := by
  intro front r after jobj v hsplit hr hv
  cases front with
  | nil =>
    obtain ⟨rfl, -⟩ := List.cons.inj hsplit
    exact hp jobj v hr hv
  | cons p' front =>
    obtain ⟨rfl, htail⟩ := List.cons.inj hsplit
    cases front with
    | nil =>
      obtain ⟨rfl, -⟩ := List.cons.inj htail
      exact hq jobj v hr hv
    | cons q' front =>
      have hlen := congrArg List.length htail
      simp at hlen

theorem countsAll_errorPageThenDocument : CountsAll errorPageThenDocument := by
  apply countsAll_pair
  · intro jobj v hp hv
    cases hp
    cases hv
  · intro jobj v hp hv
    cases hp
    cases hv
    rfl

/-- The poll missed is counted as a client. -/
theorem missed_poll_counted :
    ¬∀ polls, CountsAll polls → ∀ level front p after v, polls = front ++ p :: after →
    printedAccepted front p ⟨.zero, [], level⟩ = some v →
      v.toInt = clientsOf (missed front ++ [p]) := by
  intro h
  have hv := h errorPageThenDocument countsAll_errorPageThenDocument 0 [⟨2, some .null⟩]
    ⟨1, some (connectionsDoc 5)⟩ [] 4
    rfl (by decide)
  revert hv
  decide

/-- Two clients before the first poll, and three before the second: the second value is three. -/
theorem accepted_counts_clients_iff_twoPolls :
    (3 : Int32).toInt = clientsOf
        (missed [⟨2, some (connectionsDoc 3)⟩] ++ [⟨3, some (connectionsDoc 7)⟩]) ↔
      (missed [⟨2, some (connectionsDoc 3)⟩]).length +
          overflowing (connections (answered [⟨2, some (connectionsDoc 3)⟩])) =
        overflowing (connections
          ([⟨2, some (connectionsDoc 3)⟩] ++ [⟨3, some (connectionsDoc 7)⟩])) := by
  refine accepted_counts_clients_iff
    [⟨2, some (connectionsDoc 3)⟩, ⟨3, some (connectionsDoc 7)⟩] (countsAll_pair ?_ ?_) 0
    [⟨2, some (connectionsDoc 3)⟩] ⟨3, some (connectionsDoc 7)⟩ [] 3 rfl (by decide)
  · intro jobj v hp hv
    cases hp
    cases hv
    rfl
  · intro jobj v hp hv
    cases hp
    cases hv
    rfl

end NginxTools.TestRateLimiting
