import NginxTools.LibcurlWrap.Framing

/-!
# Sending a request's headers

`set_headers` makes a list of the caller's headers, for `CURLOPT_HTTPHEADER`, and has no result:

    for(i= 0; i< HDRS_MAX_NUM; i++) {
        const char *hdr= headers[i];
        if(hdr== NULL)
            break; // 'headers' should be a NULL-terminated array
        /* Append header to libcurl's hedear linked list */
        *ref_hdr_list= curl_slist_append(*ref_hdr_list, hdr);
    }

`curl_slist_append` answers `NULL` when there is no memory left, and leaves the list as it is. So a
failure forgets the list made so far, which nothing releases any more, and the request goes on with
the headers that come after; it also goes on without those beyond `HDRS_MAX_NUM`. A URL that is too
long, and any other allocation that fails, makes the request fail.

## What is proved

What becomes of `hdr_list` is decided in `set_headers`: every other piece of the request leaves it
alone (`Keeps`). There, nodes are lost exactly if an append fails after one that has succeeded
(`leaked_appendHeaders`), and the list is the whole of the headers exactly if all are appended
(`texts_slistFrom`). `headersWhole_iff` puts these together.
-/

namespace NginxTools.LibcurlWrap

open Library

/-- The texts of `hdr_list`, which is what `CURLOPT_HTTPHEADER` is given. -/
def Call.handedHeaders (s : Call) : List CStr :=
  s.hdrList.filterMap fun n => s.store.cell ⟨.slist, n⟩

/-- The outcomes of the calls of `curl_slist_append`, for headers from index `i` on. -/
def appends (env : Env) (i : ℕ) (hdrs : List CStr) : List Bool :=
  (List.range' i (min hdrs.length (hdrsMaxNum - i))).map env.slistAppend

/-- The headers are handed over whole if the request gets to `curl_easy_perform`, and no node is
left at the end. -/
structure HeadersWhole (env : Env) (req : ReqCtx) (responseStr : UInt64) (httpRetCode : Int64)
    (headersOutStr : Option UInt64) (statsCtx : Option StatsCtx) : Prop where
  handed : ∀ s,
    prepared env req (.start (callerOuts responseStr 404 headersOutStr statsCtx)) = .ok () s →
      s.handedHeaders = req.headers.getD []
  freed : ∀ r t,
    libcurlWrapCliRequest env (some req) (some responseStr) (some httpRetCode) headersOutStr
        statsCtx = (r, some t) →
      ∀ x ∈ t.store.obtained, x.kind = .slist → x ∈ t.store.released

/-- `set_headers` is reached. -/
structure HeadersSet (env : Env) (req : ReqCtx) : Prop where
  method : req.method < libcurlWrapMethodMax
  easyInit : env.easyInit = true
  url : UrlSet env req
  methodOpts : ∀ opt ∈ methodOpts req, env.setopt opt = true

/-- `curl_easy_perform` is reached. -/
structure PerformReached (env : Env) (req : ReqCtx) : Prop where
  headersSet : HeadersSet env req
  receive : ∀ opt ∈ [CurlOpt.writefunction, .writedata .body, .headerfunction, .headerdata .header],
    env.setopt opt = true
  calloc : ∀ w, env.calloc w = true
  requestOpts : ∀ opt ∈ requestOpts req, env.setopt opt = true

variable {env : Env} {req : ReqCtx} {o : Outs} {s t : Call}

/-! ### The list -/

theorem appends_nil (i : ℕ) : appends env i [] = [] := by simp [appends]

theorem appends_cons {i : ℕ} (hi : i < hdrsMaxNum) (hdr : CStr) (hdrs : List CStr) :
    appends env i (hdr :: hdrs) = env.slistAppend i :: appends env (i + 1) hdrs := by
  have hmin : min (hdrs.length + 1) (hdrsMaxNum - i) =
      min hdrs.length (hdrsMaxNum - (i + 1)) + 1 := by omega
  rw [appends, List.length_cons, hmin, List.range'_succ, List.map_cons, appends]

theorem appends_of_le {i : ℕ} (hi : hdrsMaxNum ≤ i) (hdrs : List CStr) :
    appends env i hdrs = [] := by
  simp [appends, Nat.sub_eq_zero_of_le hi]

/-- **Nodes are lost** by an append that fails after one that has succeeded. -/
theorem leaked_appendHeaders (hdrs : List CStr) (i : ℕ) (s : Call) :
    (appendHeaders env i hdrs s).leaked = [] ↔
      s.leaked = [] ∧ (s.hdrList ≠ [] → ∀ b ∈ appends env i hdrs, b = true) ∧
      (appends env i hdrs).Pairwise fun a b => a = true → b = true := by
  induction hdrs generalizing i s with
  | nil => simp [appendHeaders, appends_nil]
  | cons hdr hdrs ih =>
    rw [appendHeaders]
    split
    · next hi =>
      rw [ih, appends_cons hi]
      cases hok : env.slistAppend i with
      | true =>
        -- The list has a node from here on: no later append may fail.
        simp only [curlSlistAppend, if_true, List.pairwise_cons, List.mem_cons, forall_eq_or_imp,
          true_implies]
        have hne : s.hdrList ++ [s.store.obtained.length] ≠ [] := by simp
        constructor
        · rintro ⟨hl, hall, hpair⟩
          exact ⟨hl, fun _ => ⟨trivial, hall hne⟩, hall hne, hpair⟩
        · rintro ⟨hl, -, hall, hpair⟩
          exact ⟨hl, fun _ => hall, hpair⟩
      | false =>
        simp only [curlSlistAppend, Bool.false_eq_true, if_false, List.pairwise_cons, List.mem_cons,
          forall_eq_or_imp, false_implies, implies_true, true_and, false_and, imp_false, not_not,
          List.append_eq_nil_iff, ne_eq, not_true_eq_false, and_assoc]
    · next hi => simp [appends_of_le (Nat.le_of_not_lt hi)]

/-- The list is as long as it can be if no append fails, and none is left out. -/
theorem length_slistFrom (hdrs : List CStr) (i n : ℕ) (list : List (ℕ × CStr)) :
    (slistFrom env i hdrs n list).length ≤ list.length + hdrs.length ∧
      ((slistFrom env i hdrs n list).length = list.length + hdrs.length ↔
        hdrs.length ≤ hdrsMaxNum - i ∧ ∀ b ∈ appends env i hdrs, b = true) := by
  induction hdrs generalizing i n list with
  | nil => simp [slistFrom, appends_nil]
  | cons hdr hdrs ih =>
    rw [slistFrom, List.length_cons]
    split_ifs with hi hok
    · obtain ⟨hle, hiff⟩ := ih (i + 1) (n + 1) (list ++ [(n, hdr)])
      rw [List.length_append, List.length_singleton] at hle hiff
      have hcap : hdrs.length + 1 ≤ hdrsMaxNum - i ↔ hdrs.length ≤ hdrsMaxNum - (i + 1) := by omega
      rw [appends_cons hi, hok, hcap]
      simp only [List.mem_cons, forall_eq_or_imp, true_and]
      rw [← hiff]
      omega
    · obtain ⟨hle, -⟩ := ih (i + 1) n []
      rw [List.length_nil] at hle
      refine ⟨by omega, iff_of_false (by omega) ?_⟩
      rw [appends_cons hi]
      exact fun h => hok (h.2 _ List.mem_cons_self)
    · exact ⟨by omega, iff_of_false (by omega) (by omega)⟩

theorem texts_of_appended (hdrs : List CStr) (i n : ℕ) (list : List (ℕ × CStr))
    (hcap : hdrs.length ≤ hdrsMaxNum - i) (h : ∀ b ∈ appends env i hdrs, b = true) :
    (slistFrom env i hdrs n list).map Prod.snd = list.map Prod.snd ++ hdrs := by
  induction hdrs generalizing i n list with
  | nil => simp [slistFrom]
  | cons hdr hdrs ih =>
    rw [List.length_cons] at hcap
    have hi : i < hdrsMaxNum := by omega
    rw [appends_cons hi] at h
    obtain ⟨hok, hrest⟩ := List.forall_mem_cons.mp h
    rw [slistFrom, if_pos hi, if_pos hok, ih (i + 1) (n + 1) _ (by omega) hrest]
    simp

/-- **The list is the whole of the headers** exactly if all of them are appended. -/
theorem texts_slistFrom (hdrs : List CStr) (n : ℕ) :
    (slistFrom env 0 hdrs n []).map Prod.snd = hdrs ↔
      hdrs.length ≤ hdrsMaxNum ∧ ∀ b ∈ appends env 0 hdrs, b = true := by
  constructor
  · intro h
    have hlen := congrArg List.length h
    rw [List.length_map] at hlen
    exact (length_slistFrom hdrs 0 n []).2.mp (by rw [hlen, List.length_nil, Nat.zero_add])
  · rintro ⟨hcap, hall⟩
    exact texts_of_appended hdrs 0 n [] hcap hall

/-! ### The rest leaves it alone -/

/-- `hdr_list`, and the nodes that it has lost. -/
def Call.lists (s : Call) : List ℕ × List ℕ := (s.hdrList, s.leaked)

section Pieces

theorem checkDo_keeps {b : Bool} : Keeps (checkDo b) Call.lists := by
  cases b
  · exact Keeps.stop
  · exact Keeps.done

theorem assignDo_keeps {f : Call → Call} {p : Call → Bool} (h : ∀ s, (f s).lists = s.lists) :
    Keeps (assignDo f p) Call.lists :=
  (Keeps.update h).bind fun _ => Keeps.read (k := checkDo) (g := p) fun _ => checkDo_keeps

theorem lists_curlEasySetopt (opt : CurlOpt) (s : Call) :
    (curlEasySetopt env opt s).lists = s.lists := by
  rw [curlEasySetopt]
  split <;> rfl

theorem setoptDo_keeps {opt : CurlOpt} : Keeps (setoptDo env opt) Call.lists :=
  (Keeps.update (lists_curlEasySetopt opt)).bind fun _ => checkDo_keeps

theorem setoptSize_keeps (opt : Int64 → CurlOpt) :
    Keeps (do setoptDo env (opt (← get).readMem.sizeLeft.toInt64) : Request Unit) Call.lists :=
  Keeps.read (k := fun n => setoptDo env (opt n)) (g := fun s => s.readMem.sizeLeft.toInt64)
    fun _ => setoptDo_keeps

theorem curlEasyInit_keeps : Keeps (assignDo (curlEasyInit env) (·.curl.isSome)) Call.lists := by
  refine assignDo_keeps fun s => ?_
  rw [curlEasyInit]
  split <;> rfl

theorem composeUrl_keeps : Keeps (composeUrl env req) Call.lists := by
  refine checkDo_keeps.bind fun _ => checkDo_keeps.bind fun _ =>
    Keeps.bind (assignDo_keeps fun s => ?_) fun _ =>
    Keeps.bind (Keeps.update fun s => ?_) fun _ => setoptDo_keeps
  · rw [callocUrl]
    split <;> rfl
  · rw [snprintfUrl]
    split <;> rfl

theorem readFrom_keeps {body : CStr} : Keeps (modify (readFrom body) : Request Unit) Call.lists :=
  Keeps.update fun _ => rfl

theorem postOptions_keeps (body : Option CStr) (headers : Option (List CStr)) :
    Keeps (postOptions env body headers) Call.lists := by
  refine setoptDo_keeps.bind fun _ => Keeps.bind ?_ fun _ => ?_
  · cases body with
    | none => exact Keeps.done
    | some body => exact setoptDo_keeps.bind fun _ => readFrom_keeps.bind fun _ => setoptDo_keeps
  · unfold postSize
    split
    · exact setoptSize_keeps .postfieldsize
    · exact Keeps.done

theorem putOptions_keeps (body : Option CStr) : Keeps (putOptions env body) Call.lists := by
  refine setoptDo_keeps.bind fun _ => ?_
  cases body with
  | none => exact Keeps.done
  | some body =>
    exact setoptDo_keeps.bind fun _ => setoptDo_keeps.bind fun _ => readFrom_keeps.bind fun _ =>
      setoptDo_keeps.bind fun _ => setoptSize_keeps .infilesizeLarge

theorem methodOptions_keeps : Keeps (methodOptions env req) Call.lists := by
  unfold methodOptions
  split_ifs
  · exact postOptions_keeps req.body req.headers
  · exact putOptions_keeps req.body
  · exact Keeps.done

theorem prepareBuffer_keeps {w : Part} : Keeps (prepareBuffer env w) Call.lists := by
  refine Keeps.bind (assignDo_keeps fun s => ?_) fun _ => Keeps.update fun _ => rfl
  rw [callocPart]
  split <;> rfl

theorem receiveOptions_keeps : Keeps (receiveOptions env) Call.lists :=
  setoptDo_keeps.bind fun _ => prepareBuffer_keeps.bind fun _ => setoptDo_keeps.bind fun _ =>
    setoptDo_keeps.bind fun _ => prepareBuffer_keeps.bind fun _ => setoptDo_keeps

theorem requestOptions_keeps : Keeps (requestOptions env req) Call.lists := by
  refine Keeps.bind ?_ fun _ => Keeps.bind ?_ fun _ => setoptDo_keeps.bind fun _ => setoptDo_keeps
  · unfold verboseOption
    split
    · exact setoptDo_keeps
    · exact Keeps.done
  · unfold userAgentOption
    split
    · exact setoptDo_keeps
    · exact Keeps.done

theorem lists_deliver (s : Call) (ev : Event) : (deliver s ev).2.lists = s.lists := by
  cases ev with
  | write w d =>
    rw [deliver]
    split
    · next userp _ =>
      rcases curlWriteBodyCallback_cases d.contents d.size d.nmemb userp d.realloc d.junk s with
          he | ⟨_, _, he⟩
      · rw [he]
      · rw [he]
        rfl
    · rfl
  | read size nmemb =>
    rw [deliver]
    split <;> rfl

theorem lists_curlEasyPerform (code : ℕ) (evs : List Event) (s : Call) :
    (curlEasyPerform code evs s).2.lists = s.lists := by
  induction evs generalizing s with
  | nil => rfl
  | cons ev evs ih =>
    have hev := lists_deliver s ev
    rw [curlEasyPerform]
    generalize deliver s ev = r at hev
    obtain ⟨n, t⟩ := r
    show (if ev.short n then (curleWriteError, t) else curlEasyPerform code evs t).2.lists = s.lists
    split
    · exact hev
    · exact (ih t).trans hev

theorem performRequest_keeps : Keeps (performRequest env) Call.lists := by
  refine Keeps.bind (fun s => lists_curlEasyPerform env.performCode env.events s) fun code => ?_
  split
  · exact Keeps.stop
  · exact Keeps.done

theorem lists_publish (w : Part) (s : Call) : (publish w s).lists = s.lists := by
  rw [publish]
  split <;> rfl

theorem responseCode_keeps : Keeps (responseCode env) Call.lists := by
  unfold responseCode
  split
  · exact Keeps.stop
  · exact Keeps.update fun _ => rfl

end Pieces

/-- The function up to `set_headers`. -/
def beforeHeaders (env : Env) (req : ReqCtx) : Request Unit := do
  checkDo (req.method < libcurlWrapMethodMax)
  assignDo (curlEasyInit env) (·.curl.isSome)
  composeUrl env req
  methodOptions env req

/-- The function after `set_headers`. -/
def afterHeaders (env : Env) (req : ReqCtx) : Request Unit := do
  receiveOptions env
  requestOptions env req
  performRequest env
  modify (populateStats env)
  modify (publish .body)
  modify (publish .header)
  responseCode env

theorem prepared_eq (env : Env) (req : ReqCtx) :
    prepared env req = beforeHeaders env req >>= fun _ =>
    modify (setHeaders env req.headers) >>= fun _ =>
    receiveOptions env >>= fun _ => requestOptions env req := by
  simp only [prepared, beforeHeaders, bind_assoc]

theorem cliRequest_eq (env : Env) (req : ReqCtx) :
    cliRequest env req = beforeHeaders env req >>= fun _ =>
    modify (setHeaders env req.headers) >>= fun _ => afterHeaders env req := by
  simp only [cliRequest, performed_eq, prepared_eq, afterHeaders, bind_assoc]

theorem beforeHeaders_keeps : Keeps (beforeHeaders env req) Call.lists :=
  checkDo_keeps.bind fun _ => curlEasyInit_keeps.bind fun _ => composeUrl_keeps.bind fun _ =>
    methodOptions_keeps

theorem afterHeaders_keeps : Keeps (afterHeaders env req) Call.lists :=
  receiveOptions_keeps.bind fun _ => requestOptions_keeps.bind fun _ =>
    performRequest_keeps.bind fun _ =>
    (Keeps.update (g := populateStats env) fun _ => rfl).bind fun _ =>
    (Keeps.update (lists_publish .body)).bind fun _ =>
    (Keeps.update (lists_publish .header)).bind fun _ => responseCode_keeps

theorem lists_setHeaders (headers : Option (List CStr)) (s : Call) :
    (setHeaders env headers s).lists = (appendHeaders env 0 (headers.getD []) s).lists := by
  simp only [setHeaders]
  split
  · exact lists_curlEasySetopt _ _
  · rfl

/-! ### The request -/

theorem beforeHeaders_ends :
    Ends (fun s => Preparing env o s ∧ s.curl = none ∧ s.url = none ∧ Blank 0 s)
    (beforeHeaders env req) (HeadersSet env req)
    (fun _ s => Preparing env o s ∧ ∀ w, (s.mem w).data = none)
    (Failing env o) := by
  refine Ends.iff (Ends.bind (checkDo_ends (fun _ h => h) fun _ h => h.1.failing) fun _ =>
    Ends.bind curlEasyInit_ends fun _ => Ends.bind composeUrl_ends fun _ => methodOptions_ends) ?_
  constructor
  · rintro ⟨h1, h2, h3, h4⟩
    exact ⟨by simpa using h1, h2, h3, h4⟩
  · intro h
    exact ⟨by simpa using h.method, h.easyInit, h.url, h.methodOpts⟩

theorem prepared_ends : Ends (fun s => Preparing env o s ∧ s.curl = none ∧ s.url = none ∧ Blank 0 s)
    (prepared env req) (PerformReached env req)
    (fun _ s => Preparing env o s ∧ ∀ w, Collecting w s) (Failing env o) := by
  rw [prepared_eq]
  refine Ends.iff (Ends.bind beforeHeaders_ends fun _ =>
    Ends.bind (Ends.update fun s h => setHeaders_keeps req.headers h.1 h.2) fun _ =>
    Ends.bind receiveOptions_ends fun _ => requestOptions_ends) ?_
  constructor
  · rintro ⟨h1, -, ⟨h2, h3⟩, h4⟩
    exact ⟨h1, h2, h3, h4⟩
  · intro h
    exact ⟨h.headersSet, trivial, ⟨h.receive, h.calloc⟩, h.requestOpts⟩

/-- What is handed over is the list that `set_headers` has made. -/
theorem handedHeaders_prepared (h : prepared env req (.start o) = .ok () s) :
    ∃ n, s.handedHeaders = (slistFrom env 0 (req.headers.getD []) n []).map Prod.snd := by
  rw [prepared_eq] at h
  cases hb : beforeHeaders env req (.start o) with
  | error e t => cases (bind_of_error hb).symm.trans h
  | ok u t =>
    have hrest : (receiveOptions env >>= fun _ => requestOptions env req)
        (setHeaders env req.headers t) = .ok () s :=
      (bind_of_ok hb).symm.trans h
    have hlists : t.lists = ([], []) := beforeHeaders_keeps.of_ok hb
    have hnil : t.hdrList = ([] : List (ℕ × CStr)).map Prod.fst := congrArg Prod.fst hlists
    obtain ⟨hhdr, hlisted, -, -⟩ :=
      appendHeaders_spec env (req.headers.getD []) (i := 0) hnil (by simp [Listed])
    refine ⟨t.store.obtained.length, ?_⟩
    generalize slistFrom env 0 (req.headers.getD []) t.store.obtained.length [] =
      list at hhdr hlisted ⊢
    have hset : Listed list (setHeaders env req.headers t) := by
      simp only [setHeaders]
      split
      · rw [curlEasySetopt]
        split <;> exact hlisted
      · exact hlisted
    have hfinal := (Yields.bind receiveOptions_framing fun _ => requestOptions_framing)
      _ ⟨rfl, rfl, hset⟩ _ _ hrest
    have hkeeps := (receiveOptions_keeps.bind fun _ => requestOptions_keeps).of_ok hrest
    rw [lists_setHeaders] at hkeeps
    rw [Call.handedHeaders,
      show s.hdrList = list.map Prod.fst from (congrArg Prod.fst hkeeps).trans hhdr]
    exact hfinal.listed.texts

/-- Nodes are lost in `set_headers`, or not at all. -/
theorem leaked_cliRequest (ho : o.Callers)
    (h : cliRequest env req (.start o) = .ok () t ∨
      ∃ e, cliRequest env req (.start o) = .error e t) :
    t.leaked = [] ↔
      (HeadersSet env req →
        (appends env 0 (req.headers.getD [])).Pairwise fun a b => a = true → b = true) := by
  rw [cliRequest_eq] at h
  cases hb : beforeHeaders env req (.start o) with
  | error e s =>
    obtain ⟨hnot, -⟩ := beforeHeaders_ends.of_error (preparing_start env ho) hb
    rw [bind_of_error hb] at h
    have ht : s = t := by simpa using h
    have hlists : s.lists = ([], []) := beforeHeaders_keeps.of_error hb
    rw [← ht]
    exact iff_of_true (congrArg Prod.snd hlists) fun hset => absurd hset hnot
  | ok u s =>
    obtain ⟨hset, -⟩ := beforeHeaders_ends.of_ok (preparing_start env ho) hb
    have hlists : s.lists = ([], []) := beforeHeaders_keeps.of_ok hb
    rw [bind_of_ok hb] at h
    have hrest : afterHeaders env req (setHeaders env req.headers s) = .ok () t ∨
        ∃ e, afterHeaders env req (setHeaders env req.headers s) = .error e t := h
    have hkeeps : t.lists = (setHeaders env req.headers s).lists := by
      rcases hrest with h | ⟨e, h⟩
      · exact afterHeaders_keeps.of_ok h
      · exact afterHeaders_keeps.of_error h
    rw [lists_setHeaders] at hkeeps
    have hleak : t.leaked = (appendHeaders env 0 (req.headers.getD []) s).leaked :=
      congrArg Prod.snd hkeeps
    have hnil : s.hdrList = [] := congrArg Prod.fst hlists
    have hnone : s.leaked = [] := congrArg Prod.snd hlists
    rw [hleak, leaked_appendHeaders]
    simp [hnil, hnone, hset]

theorem kind_of_mem_owned {x : Resource Kind} (h : x ∈ o.owned) : x.kind = .block := by
  have hptr : ∀ p : Ptr, x ∈ p.owned → x.kind = .block := by
    intro p hp
    cases p with
    | caller _ => cases hp
    | block n => rw [List.mem_singleton.mp hp, blk]
  rcases List.mem_append.mp h with h | h
  · exact hptr _ h
  · cases hp : o.headersOutStr with
    | none => simp [hp] at h
    | some p => exact hptr p (by simpa [hp] using h)

/-- All nodes are released exactly if none is lost. -/
theorem freed_iff (h : t.store.Balanced (t.leaked.map (⟨.slist, ·⟩) ++ t.out.owned)) :
    (∀ x ∈ t.store.obtained, x.kind = .slist → x ∈ t.store.released) ↔ t.leaked = [] := by
  constructor
  · intro hfreed
    by_contra hne
    obtain ⟨n, hn⟩ := List.exists_mem_of_ne_nil _ hne
    have hheld : (⟨.slist, n⟩ : Resource Kind) ∈ t.leaked.map (⟨.slist, ·⟩) ++ t.out.owned :=
      List.mem_append_left _ (List.mem_map_of_mem hn)
    have hobtained := h.mem_obtained hheld
    have hcount := h.count_eq_one hobtained
    have hreleased := List.count_pos_iff.mpr (hfreed _ hobtained rfl)
    have hpos := List.count_pos_iff.mpr hheld
    omega
  · intro hnil x hx hkind
    have hcount := h.count_eq_one hx
    rw [hnil, List.map_nil, List.nil_append] at hcount
    have hnot : t.out.owned.count x = 0 := by
      apply List.count_eq_zero_of_not_mem
      intro hmem
      cases hkind.symm.trans (kind_of_mem_owned hmem)
    exact List.count_pos_iff.mp (by omega)

/-- **Headers are handed over whole and every node is released**, exactly if no append fails after
one that has succeeded and, for a request that is performed, none fails and there are no more
headers than `HDRS_MAX_NUM`. -/
theorem headersWhole_iff (env : Env) (req : ReqCtx) (responseStr : UInt64) (httpRetCode : Int64)
    (headersOutStr : Option UInt64) (statsCtx : Option StatsCtx) :
    HeadersWhole env req responseStr httpRetCode headersOutStr statsCtx ↔
      (HeadersSet env req →
        (appends env 0 (req.headers.getD [])).Pairwise fun a b => a = true → b = true) ∧
      (PerformReached env req → (req.headers.getD []).length ≤ hdrsMaxNum ∧
        ∀ b ∈ appends env 0 (req.headers.getD []), b = true) := by
  have ho := callers_callerOuts responseStr 404 headersOutStr statsCtx
  obtain ⟨r, t, hrun, hleft, -⟩ :=
    libcurlWrapCliRequest_spec env req responseStr httpRetCode headersOutStr statsCtx
  have hleaked : t.leaked = [] ↔
      (HeadersSet env req →
        (appends env 0 (req.headers.getD [])).Pairwise fun a b => a = true → b = true) := by
    simp only [libcurlWrapCliRequest] at hrun
    split at hrun
    · next s hs =>
      obtain ⟨-, ht⟩ := Prod.mk.inj hrun
      rw [← Option.some.inj ht]
      exact leaked_cliRequest (t := s) ho (.inl hs)
    · next e s hs =>
      obtain ⟨-, ht⟩ := Prod.mk.inj hrun
      rw [← Option.some.inj ht]
      exact leaked_cliRequest (t := s) ho (.inr ⟨e, hs⟩)
  constructor
  · intro h
    refine ⟨hleaked.mp ((freed_iff hleft.balanced).mp (h.freed r t hrun)), fun hperform => ?_⟩
    cases hprep : prepared env req (.start (callerOuts responseStr 404 headersOutStr statsCtx)) with
    | error e s => exact absurd hperform (prepared_ends.of_error (preparing_start env ho) hprep).1
    | ok u s =>
      obtain ⟨n, hhanded⟩ := handedHeaders_prepared hprep
      exact (texts_slistFrom _ n).mp (hhanded.symm.trans (h.handed s hprep))
  · rintro ⟨hpair, hall⟩
    constructor
    · intro s hprep
      obtain ⟨hperform, -⟩ := prepared_ends.of_ok (preparing_start env ho) hprep
      obtain ⟨n, hhanded⟩ := handedHeaders_prepared hprep
      exact hhanded.trans ((texts_slistFrom _ n).mpr (hall hperform))
    · intro r' t' hrun'
      obtain ⟨-, ht⟩ := Prod.mk.inj (hrun.symm.trans hrun')
      rw [← Option.some.inj ht]
      exact (freed_iff hleft.balanced).mpr (hleaked.mpr hpair)

/-- A request with two headers. -/
def twoHeaders : ReqCtx := { getRequest with headers := some [ascii "Accept: a", ascii "Host: b"] }

/-- There is no memory left for the second of them. -/
def secondFails : Env := { allSucceeds with slistAppend := fun i => i = 0 }

/-- The nodes that are not released. -/
def Call.unreleased (t : Call) : List (Resource Kind) :=
  t.store.obtained.filter fun x => x.kind = .slist ∧ x ∉ t.store.released

/-- The request is performed with neither of them, and the node of the first one is lost. -/
theorem headers_dropped : ¬HeadersWhole secondFails twoHeaders 0 0 none none := by
  intro h
  have hlost : (libcurlWrapCliRequest secondFails (some twoHeaders) (some 0) (some 0) none
      none).2.map Call.unreleased = some [⟨.slist, 2⟩] := by decide
  generalize hrun : libcurlWrapCliRequest secondFails (some twoHeaders) (some 0) (some 0) none
    none = p at hlost
  obtain ⟨r, - | t⟩ := p
  · cases hlost
  · have hmem : (⟨.slist, 2⟩ : Resource Kind) ∈ t.unreleased := by
      rw [show t.unreleased = _ from Option.some.inj hlost]
      exact List.mem_singleton_self _
    obtain ⟨hobtained, hx⟩ := List.mem_filter.mp hmem
    exact (of_decide_eq_true hx).2 (h.freed r t hrun _ hobtained rfl)

end NginxTools.LibcurlWrap
