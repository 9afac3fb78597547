import NginxTools.LibcurlWrap.Request

/-!
# What a request promises

The function is followed once, piece by piece: `Ends` says of each piece when it gets through,
and what it leaves either way.

## What is proved

* `performed_spec` — up to and with `curl_easy_perform`, the function gets through exactly if
  `Performed`, touching no output, and everything obtained stays accounted for.
* `received_verbatim` — what a successful request hands over is what has arrived.
* `contract_iff` — when a failure leaves the caller's outputs alone: the last call that is checked
  comes after the outputs are set.
-/

namespace NginxTools.LibcurlWrap

open Library

/-! ### Where the function stands -/

variable {env : Env} {req : ReqCtx} {o : Outs} {s : Call}

/-- Everything is accounted for, and the outputs are as they were. -/
structure Preparing (env : Env) (o : Outs) (s : Call) : Prop where
  /-- The account of what is held. -/
  balanced : s.store.Balanced s.held
  /-- The outputs. -/
  out : s.out = o
  /-- No list is lost while appending to it succeeds. -/
  leaked : (∀ i, env.slistAppend i = true) → s.leaked = []

/-- The buffers are not set up yet, and there are `n` bytes to be sent. -/
structure Blank (n : UInt64) (s : Call) : Prop where
  data : ∀ w, (s.mem w).data = none
  sizeLeft : s.readMem.sizeLeft = n

/-- How a piece fails. -/
def Failing (env : Env) (o : Outs) (e : ℤ) (s : Call) : Prop := e ≠ 0 ∧ Preparing env o s

theorem Preparing.failing (h : Preparing env o s) : Failing env o (-1) s := ⟨by decide, h⟩

/-- The options and the body to be sent own nothing. -/
theorem Preparing.congr {t : Call} (h : Preparing env o s) (hstore : t.store = s.store)
    (hheld : t.held = s.held) (hout : t.out = s.out) (hleak : t.leaked = s.leaked) :
    Preparing env o t :=
  ⟨by rw [hstore, hheld]; exact h.balanced, hout.trans h.out,
    fun happ => hleak.trans (h.leaked happ)⟩

/-- What arrives of `w` goes to the buffer for it, which is empty. -/
structure Collecting (w : Part) (s : Call) : Prop where
  sink : s.sink w = some w
  holds : Holds s w []

/-! ### The pieces -/

section Pieces

variable {P : Call → Prop} {Q : Unit → Call → Prop} {E : ℤ → Call → Prop}

theorem checkDo_ends {b : Bool} (hQ : ∀ s, P s → Q () s) (hE : ∀ s, P s → E (-1) s) :
    Ends P (checkDo b) (b = true) Q E := by
  intro s hs
  cases b with
  | true => exact ⟨rfl, hQ s hs⟩
  | false => exact ⟨Bool.false_ne_true, hE s hs⟩

/-- A call whose answer is stored in a variable that is then checked. -/
theorem assignDo_ends {f : Call → Call} {p : Call → Bool} {c : Bool} (hp : ∀ s, P s → p (f s) = c)
    (hQ : ∀ s, P s → c = true → Q () (f s)) (hE : ∀ s, P s → c = false → E (-1) (f s)) :
    Ends P (assignDo f p) (c = true) Q E := by
  intro s hs
  have hrun : assignDo f p s = checkDo (p (f s)) (f s) := rfl
  rw [hrun, hp s hs]
  cases c with
  | true => exact ⟨rfl, hQ s hs rfl⟩
  | false => exact ⟨Bool.false_ne_true, hE s hs rfl⟩

theorem setoptDo_ends {o : CurlOpt} (hQ : ∀ s, P s → Q () { s with opts := o :: s.opts })
    (hE : ∀ s, P s → E (-1) s) : Ends P (setoptDo env o) (env.setopt o = true) Q E := by
  intro s hs
  have hrun : setoptDo env o s = checkDo (env.setopt o) (curlEasySetopt env o s) := rfl
  rw [hrun]
  cases h : env.setopt o with
  | true => exact ⟨rfl, by simpa [curlEasySetopt, h] using hQ s hs⟩
  | false => exact ⟨Bool.false_ne_true, by simpa [curlEasySetopt, h] using hE s hs⟩

end Pieces

/-- Options own nothing. -/
theorem Preparing.setopt (h : Preparing env o s) (opts : List CurlOpt) :
    Preparing env o { s with opts } :=
  h.congr rfl rfl rfl rfl

/-- A handle is obtained. -/
theorem curlEasyInit_ends :
    Ends (fun s => Preparing env o s ∧ s.curl = none ∧ s.url = none ∧ Blank 0 s)
    (assignDo (curlEasyInit env) (·.curl.isSome)) (env.easyInit = true)
    (fun _ s => Preparing env o s ∧ s.url = none ∧ Blank 0 s) (Failing env o) := by
  refine assignDo_ends (fun s _ => ?_) (fun s ⟨hp, hc, hu, hb⟩ hok => ?_)
    (fun s ⟨hp, hc, _⟩ hok => ?_)
  · cases h : env.easyInit <;> simp [curlEasyInit, h]
  · rw [curlEasyInit, if_pos hok]
    refine ⟨⟨hp.balanced.alloc.congr (List.perm_iff_count.mpr fun r => ?_), hp.out, hp.leaked⟩, hu,
      ⟨hb.data, hb.sizeLeft⟩⟩
    simp [Call.held, Call.locals, hc, hu, Store.fresh]
  · rw [curlEasyInit, if_neg (by simp [hok])]
    exact Preparing.failing (hp.congr rfl (by simp [Call.held, Call.locals, hc]) rfl rfl)

theorem callocUrl_ends : Ends (fun s => Preparing env o s ∧ s.url = none ∧ Blank 0 s)
    (assignDo (callocUrl env req) (·.url.isSome)) (env.callocUrl = true)
    (fun _ s => Preparing env o s ∧ Blank 0 s) (Failing env o) := by
  refine assignDo_ends (fun s _ => ?_) (fun s ⟨hp, hu, hb⟩ hok => ?_) (fun s ⟨hp, hu, _⟩ hok => ?_)
  · cases h : env.callocUrl <;> simp [callocUrl, h]
  · rw [callocUrl, if_pos hok]
    refine ⟨⟨hp.balanced.alloc.congr (List.perm_iff_count.mpr fun r => ?_), hp.out, hp.leaked⟩,
      ⟨hb.data, hb.sizeLeft⟩⟩
    simp [Call.held, Call.locals, hu, List.count_append, List.count_cons, Store.fresh, blk]
    omega
  · rw [callocUrl, if_neg (by simp [hok])]
    exact Preparing.failing (hp.congr rfl (by simp [Call.held, Call.locals, hu]) rfl rfl)

theorem snprintfUrl_keeps (hp : Preparing env o s) (hb : Blank 0 s) :
    Preparing env o (snprintfUrl req s) ∧ Blank 0 (snprintfUrl req s) := by
  cases hu : s.url with
  | none => simpa [snprintfUrl, hu] using ⟨hp, hb⟩
  | some url =>
    have hheld : (snprintfUrl req s).held = s.held := by
      simp [snprintfUrl, hu, Call.held, Call.locals]
    simp only [snprintfUrl, hu] at hheld ⊢
    exact ⟨⟨hheld ▸ hp.balanced.write, hp.out, hp.leaked⟩, ⟨hb.data, hb.sizeLeft⟩⟩

/-- When the URL is set. -/
structure UrlSet (env : Env) (req : ReqCtx) : Prop where
  host : req.host.isSome = true ∧ req.port.isSome = true
  size : urlSize req < urlMaxSize
  calloc : env.callocUrl = true
  setopt : env.setopt (.url ((urlText req).take (urlSize req - 1))) = true

theorem composeUrl_ends :
    Ends (fun s => Preparing env o s ∧ s.url = none ∧ Blank 0 s) (composeUrl env req)
    (UrlSet env req) (fun _ s => Preparing env o s ∧ Blank 0 s) (Failing env o) := by
  refine Ends.iff (Ends.bind (checkDo_ends (fun _ h => h) fun _ h => h.1.failing) fun _ =>
    Ends.bind (checkDo_ends (fun _ h => h) fun _ h => h.1.failing) fun _ =>
    Ends.bind callocUrl_ends fun _ =>
    Ends.bind (Q := fun _ s => Preparing env o s ∧ Blank 0 s) (Ends.update fun s h =>
      snprintfUrl_keeps h.1 h.2) fun _ =>
    setoptDo_ends (fun s h => ⟨h.1.setopt _, ⟨h.2.data, h.2.sizeLeft⟩⟩) fun _ h => h.1.failing) ?_
  have hpos : 0 < urlSize req := by simp only [urlSize]; omega
  simp only [Bool.and_eq_true, decide_eq_true_eq, true_and, hpos]
  exact ⟨fun ⟨h1, h2, h3, h4⟩ => ⟨h1, h2, h3, h4⟩, fun ⟨h1, h2, h3, h4⟩ => ⟨h1, h2, h3, h4⟩⟩

/-- The length of a body, `0` when there is none. -/
def bodySize : Option CStr → UInt64
  | none => 0
  | some body => body.length.toUInt64

/-- The options for a body that is posted. -/
def postBodyOpts : Option CStr → List CurlOpt
  | none => []
  | some _ => [.readfunction, .readdata]

/-- The options for a body that is put. -/
def putBodyOpts : Option CStr → List CurlOpt
  | none => []
  | some body =>
      [.upload, .readfunction, .readdata, .infilesizeLarge (bodySize (some body)).toInt64]

/-- The option for the size of what is posted. -/
def postSizeOpts (body : Option CStr) (headers : Option (List CStr)) : List CurlOpt :=
  if findHeader headers (ascii "Transfer-Encoding") (some (ascii "chunked")) < 0 then
    [.postfieldsize (bodySize body).toInt64] else []

/-- The options for the method. -/
def methodOpts (req : ReqCtx) : List CurlOpt :=
  if req.method = libcurlWrapMethodPost then
    .post :: (postBodyOpts req.body ++ postSizeOpts req.body req.headers)
  else if req.method = libcurlWrapMethodPut then .put :: putBodyOpts req.body
  else []

theorem setopt_blank {n : UInt64} {opt : CurlOpt} :
    Ends (fun s => Preparing env o s ∧ Blank n s) (setoptDo env opt)
    (env.setopt opt = true) (fun _ s => Preparing env o s ∧ Blank n s) (Failing env o) :=
  setoptDo_ends (fun _ h => ⟨h.1.setopt _, ⟨h.2.data, h.2.sizeLeft⟩⟩) fun _ h => h.1.failing

theorem readFrom_blank {n : UInt64} {body : CStr} : Ends (fun s => Preparing env o s ∧ Blank n s)
    (modify (readFrom body) : Request Unit) True
    (fun _ s => Preparing env o s ∧ Blank (bodySize (some body)) s) (Failing env o) :=
  Ends.update fun _ h => ⟨h.1.congr rfl rfl rfl rfl, ⟨h.2.data, rfl⟩⟩

theorem postBody_ends (body : Option CStr) :
    Ends (fun s => Preparing env o s ∧ Blank 0 s) (postBody env body)
    (∀ opt ∈ postBodyOpts body, env.setopt opt = true)
    (fun _ s => Preparing env o s ∧ Blank (bodySize body) s)
    (Failing env o) := by
  cases body with
  | none => exact Ends.iff (Ends.done fun _ h => h) (by simp [postBodyOpts])
  | some body =>
    refine Ends.iff (Ends.bind setopt_blank fun _ => Ends.bind readFrom_blank fun _ => setopt_blank)
      ?_
    simp [postBodyOpts]

/-- An option that is set to the size of the body. -/
theorem setoptSize_ends {n : UInt64} (opt : Int64 → CurlOpt) :
    Ends (fun s => Preparing env o s ∧ Blank n s)
    (do setoptDo env (opt (← get).readMem.sizeLeft.toInt64)) (env.setopt (opt n.toInt64) = true)
    (fun _ s => Preparing env o s ∧ Blank n s) (Failing env o) :=
  Ends.read (f := fun n => setoptDo env (opt n)) (g := fun s => s.readMem.sizeLeft.toInt64)
    (fun _ h => by rw [h.2.sizeLeft]) setopt_blank

theorem postSize_ends (body : Option CStr) (headers : Option (List CStr)) :
    Ends (fun s => Preparing env o s ∧ Blank (bodySize body) s) (postSize env headers)
      (∀ opt ∈ postSizeOpts body headers, env.setopt opt = true)
      (fun _ s => Preparing env o s ∧ Blank (bodySize body) s) (Failing env o) := by
  unfold postSize postSizeOpts
  split
  · exact Ends.iff (setoptSize_ends .postfieldsize) (by simp)
  · exact Ends.iff (Ends.done fun _ h => h) (by simp)

theorem putBody_ends (body : Option CStr) :
    Ends (fun s => Preparing env o s ∧ Blank 0 s) (putBody env body)
    (∀ opt ∈ putBodyOpts body, env.setopt opt = true)
    (fun _ s => Preparing env o s ∧ Blank (bodySize body) s)
    (Failing env o) := by
  cases body with
  | none => exact Ends.iff (Ends.done fun _ h => h) (by simp [putBodyOpts])
  | some body =>
    refine Ends.iff (Ends.bind setopt_blank fun _ => Ends.bind setopt_blank fun _ =>
      Ends.bind readFrom_blank fun _ =>
      Ends.bind setopt_blank fun _ => setoptSize_ends .infilesizeLarge) ?_
    simp [putBodyOpts]

/-- The options for the method are set, and nothing else is. -/
theorem methodOptions_ends : Ends (fun s => Preparing env o s ∧ Blank 0 s) (methodOptions env req)
    (∀ opt ∈ methodOpts req, env.setopt opt = true)
    (fun _ s => Preparing env o s ∧ ∀ w, (s.mem w).data = none)
    (Failing env o) := by
  unfold methodOptions methodOpts
  split
  · refine Ends.mono (Ends.bind setopt_blank fun _ => Ends.bind (postBody_ends req.body) fun _ =>
      postSize_ends req.body req.headers) (fun _ h => h) ?_ (fun _ _ h => ⟨h.1, h.2.data⟩)
      fun _ _ h => h
    simp [or_imp, forall_and]
  · split
    · refine Ends.mono (Ends.bind setopt_blank fun _ => putBody_ends req.body)
        (fun _ h => h) ?_ (fun _ _ h => ⟨h.1, h.2.data⟩) fun _ _ h => h
      simp
    · exact Ends.iff (Ends.done fun _ h => ⟨h.1, h.2.data⟩) (by simp)

/-! ### Headers -/

theorem curlSlistAppend_keeps {i : ℕ} {str : CStr} (hp : Preparing env o s) :
    Preparing env o (curlSlistAppend (env.slistAppend i) str s) := by
  cases hok : env.slistAppend i with
  | true =>
    refine ⟨hp.balanced.alloc.congr (List.perm_iff_count.mpr fun r => ?_), hp.out, hp.leaked⟩
    simp [curlSlistAppend, Call.held, Call.locals, List.count_append, List.count_cons, Store.fresh]
    omega
  | false =>
    refine ⟨hp.balanced.congr (List.perm_iff_count.mpr fun r => ?_), hp.out, fun happ => ?_⟩
    · simp [curlSlistAppend, Call.held, Call.locals, List.count_append]
      omega
    · simp [happ] at hok

/-- The nodes of the list are accounted for, also when it is lost. -/
theorem appendHeaders_keeps (hdrs : List CStr) (i : ℕ) (hp : Preparing env o s)
    (hd : ∀ w, (s.mem w).data = none) :
    Preparing env o (appendHeaders env i hdrs s) ∧
      ∀ w, ((appendHeaders env i hdrs s).mem w).data = none := by
  induction hdrs generalizing i s with
  | nil => exact ⟨hp, hd⟩
  | cons hdr hdrs ih =>
    rw [appendHeaders]
    split
    · refine ih (i + 1) (curlSlistAppend_keeps hp) fun w => ?_
      cases h : env.slistAppend i <;> simpa [curlSlistAppend, h] using hd w
    · exact ⟨hp, hd⟩

theorem curlEasySetopt_keeps {opt : CurlOpt} (hp : Preparing env o s)
    (hd : ∀ w, (s.mem w).data = none) :
    Preparing env o (curlEasySetopt env opt s) ∧
      ∀ w, ((curlEasySetopt env opt s).mem w).data = none := by
  unfold curlEasySetopt
  split
  · exact ⟨hp.setopt _, hd⟩
  · exact ⟨hp, hd⟩

theorem setHeaders_keeps (headers : Option (List CStr)) (hp : Preparing env o s)
    (hd : ∀ w, (s.mem w).data = none) :
    Preparing env o (setHeaders env headers s) ∧
      ∀ w, ((setHeaders env headers s).mem w).data = none := by
  obtain ⟨hp', hd'⟩ := appendHeaders_keeps (headers.getD []) 0 hp hd
  simp only [setHeaders]
  split
  · exact curlEasySetopt_keeps hp' hd'
  · exact ⟨hp', hd'⟩

/-! ### Buffers -/

/-- A buffer of one byte holds nothing. -/
theorem holds_nil {w : Part} {n : ℕ} (h : s.mem w = ⟨some n, 0⟩)
    (hc : s.store.cell (blk n) = some [0]) : Holds s w [] :=
  ⟨by simp [h], n, [0], by simp [h], hc, List.prefix_rfl⟩

/-- The state after the buffer for `w` has been set up. -/
def bufferReady (w : Part) (s : Call) : Call :=
  { s with
    store := s.store.alloc .block [0]
    mem := Function.update s.mem w ⟨some s.store.obtained.length, 0⟩ }

theorem Preparing.bufferReady {w : Part} (hp : Preparing env o s) (hd : (s.mem w).data = none) :
    Preparing env o (bufferReady w s) where
  balanced := by
    have hnew : ((LibcurlWrap.bufferReady w s).mem w).data = some s.store.obtained.length := by
      simp [LibcurlWrap.bufferReady]
    have hrest : (LibcurlWrap.bufferReady w s).besides w = s.besides w := by
      simp [LibcurlWrap.bufferReady, Call.besides]
    have hold : s.held.Perm (s.besides w) := by simpa [hd] using held_perm s w
    refine Store.Balanced.congr ?_ ((held_perm_of_data hnew).trans (by rw [hrest])).symm
    exact (hp.balanced.congr hold).alloc
  out := hp.out
  leaked := hp.leaked

theorem holds_bufferReady (w : Part) : Holds (bufferReady w s) w [] :=
  holds_nil (by simp [bufferReady]) (Store.cell_alloc ..)

theorem holds_other_bufferReady {w : Part} {bs : List UInt8} (hp : Preparing env o s)
    (h : Holds s w.other bs) :
    Holds (bufferReady w s) w.other bs := by
  have hmem : (bufferReady w s).mem w.other = s.mem w.other := by simp [bufferReady]
  obtain ⟨n, mem, hn, hm, hpre⟩ := h.bytes
  have hheld : blk n ∈ s.held :=
    (held_perm s w.other).symm.subset (List.mem_append_left _ (by simp [hn]))
  have hne : blk n ≠ s.store.fresh .block := by
    intro he
    exact hp.balanced.fresh_not_mem (k := .block) (he ▸ hheld)
  exact ⟨by rw [hmem, h.size], n, mem, by rw [hmem, hn], (Store.cell_alloc_of_ne hne).trans hm,
    hpre⟩

theorem prepareBuffer_ends {w : Part} {P Q : Call → Prop}
    (hP : ∀ s, P s → Preparing env o s ∧ (s.mem w).data = none)
    (hQ : ∀ s, P s → Q (bufferReady w s)) :
    Ends P (prepareBuffer env w) (env.calloc w = true) (fun _ => Q) (Failing env o) := by
  refine Ends.iff (Ends.bind (Q := fun _ t =>
    ∃ s, P s ∧ t = callocPart env w s ∧ env.calloc w = true)
    (assignDo_ends (c := env.calloc w) (fun s _ => ?_) (fun s h hok => ⟨s, h, rfl, hok⟩)
      fun s h hok => ?_)
    fun _ => Ends.update fun t ⟨s, h, ht, hok⟩ => ?_) (by simp)
  · cases h : env.calloc w <;> simp [callocPart, h]
  · rw [callocPart, if_neg (by simp [hok])]
    obtain ⟨hp, hd⟩ := hP s h
    have hmem : Function.update s.mem w ⟨none, (s.mem w).size⟩ = s.mem := by
      rw [← hd]
      exact Function.update_eq_self w s.mem
    exact Preparing.failing (hp.congr rfl (by rw [hmem]) rfl rfl)
  · have hready : { t with mem := Function.update t.mem w ⟨(t.mem w).data, 0⟩ } =
        bufferReady w s := by
      simp [ht, callocPart, hok, bufferReady]
    exact hready ▸ hQ s h

/-- An option that names no variable leaves an empty buffer, and where it is filled from, as they
are. -/
theorem Collecting.setopt {w : Part} {opt : CurlOpt} (h : Collecting w s)
    (hopt : opt.dataOf w = none) :
    Collecting w { s with opts := opt :: s.opts } :=
  ⟨sink_cons h.sink hopt, ⟨h.holds.size, h.holds.bytes⟩⟩

theorem collecting_of_data {w : Part} (h : Holds s w []) (hf : w.function ∈ s.opts) {opt : CurlOpt}
    (hopt : opt.dataOf w = some w) : Collecting w { s with opts := opt :: s.opts } :=
  ⟨by simp [Call.sink, hf, hopt], ⟨h.size, h.bytes⟩⟩

/-- The buffers are set up, and what arrives goes to them. -/
theorem receiveOptions_ends :
    Ends (fun s => Preparing env o s ∧ ∀ w, (s.mem w).data = none) (receiveOptions env)
    ((∀ opt ∈ [CurlOpt.writefunction, .writedata .body, .headerfunction, .headerdata .header],
      env.setopt opt = true) ∧ ∀ w, env.calloc w = true)
    (fun _ s => Preparing env o s ∧ ∀ w, Collecting w s) (Failing env o) := by
  refine Ends.iff (Ends.bind
      (Q := fun _ s => Preparing env o s ∧ (∀ w, (s.mem w).data = none) ∧
        Part.body.function ∈ s.opts)
      (setoptDo_ends (fun s h => ⟨h.1.setopt _, h.2, by simp [Part.function]⟩) fun _ h =>
        h.1.failing) fun _ =>
    Ends.bind (Q := fun _ s => Preparing env o s ∧ (s.mem .header).data = none ∧
      Part.body.function ∈ s.opts ∧ Holds s .body [])
      (prepareBuffer_ends (fun s h => ⟨h.1, h.2.1 _⟩) fun s h =>
        ⟨h.1.bufferReady (h.2.1 _), h.2.1 _, h.2.2, holds_bufferReady _⟩) fun _ =>
    Ends.bind (Q := fun _ s => Preparing env o s ∧ (s.mem .header).data = none ∧ Collecting .body s)
      (setoptDo_ends (fun s h => ⟨h.1.setopt _, h.2.1, collecting_of_data h.2.2.2 h.2.2.1 rfl⟩)
        fun _ h => h.1.failing) fun _ =>
    Ends.bind (Q := fun _ s => Preparing env o s ∧ (s.mem .header).data = none ∧
      Collecting .body s ∧ Part.header.function ∈ s.opts)
      (setoptDo_ends (fun s h => ⟨h.1.setopt _, h.2.1, h.2.2.setopt rfl, by simp [Part.function]⟩)
        fun _ h => h.1.failing) fun _ =>
    Ends.bind (Q := fun _ s => Preparing env o s ∧ Collecting .body s ∧
      Part.header.function ∈ s.opts ∧ Holds s .header [])
      (prepareBuffer_ends (fun s h => ⟨h.1, h.2.1⟩) fun s h => ⟨h.1.bufferReady h.2.1,
        ⟨(sink_congr rfl _).trans h.2.2.1.sink,
          holds_other_bufferReady (w := .header) h.1 h.2.2.1.holds⟩,
        h.2.2.2, holds_bufferReady _⟩) fun _ =>
    setoptDo_ends (fun s h => ⟨h.1.setopt _, fun w => ?_⟩) fun _ h => h.1.failing) ?_
  · cases w with
    | body => exact h.2.1.setopt rfl
    | header => exact collecting_of_data h.2.2.2 h.2.2.1 rfl
  · have hall : (∀ w, env.calloc w = true) ↔ env.calloc .body = true ∧ env.calloc .header = true :=
      ⟨fun h => ⟨h _, h _⟩, fun h w => by cases w <;> simp [h]⟩
    simp only [List.forall_mem_cons, List.not_mem_nil, false_implies, implies_true, and_true, hall]
    tauto

/-- An option of the request besides those. -/
theorem setopt_collecting {opt : CurlOpt} (hopt : ∀ w, opt.dataOf w = none) :
    Ends (fun s => Preparing env o s ∧ ∀ w, Collecting w s) (setoptDo env opt)
      (env.setopt opt = true)
      (fun _ s => Preparing env o s ∧ ∀ w, Collecting w s) (Failing env o) :=
  setoptDo_ends (fun _ h => ⟨h.1.setopt _, fun w => (h.2 w).setopt (hopt w)⟩) fun _ h => h.1.failing

/-- The other options of a request. -/
def requestOpts (req : ReqCtx) : List CurlOpt :=
  (if req.flagLibcurlVerbose ≠ 0 then [.verbose] else []) ++
    (if 0 ≤ userAgentIdx req then [.useragent (userAgent req)] else []) ++
    [.timeout req.tout, .nosignal]

theorem requestOptions_ends :
    Ends (fun s => Preparing env o s ∧ ∀ w, Collecting w s) (requestOptions env req)
    (∀ opt ∈ requestOpts req, env.setopt opt = true)
    (fun _ s => Preparing env o s ∧ ∀ w, Collecting w s) (Failing env o) := by
  have hskip : Ends (fun s => Preparing env o s ∧ ∀ w, Collecting w s) (pure () : Request Unit) True
      (fun _ s => Preparing env o s ∧ ∀ w, Collecting w s) (Failing env o) := Ends.done fun _ h => h
  refine Ends.iff (Ends.bind (Ends.ite (fun _ => setopt_collecting fun w => by cases w <;> rfl)
    fun _ => hskip) fun _ =>
    Ends.bind (Ends.ite (fun _ => setopt_collecting fun w => by cases w <;> rfl) fun _ => hskip)
      fun _ =>
    Ends.bind (setopt_collecting fun w => by cases w <;> rfl) fun _ =>
    setopt_collecting fun w => by cases w <;> rfl) ?_
  unfold requestOpts
  split_ifs <;> simp

/-! ### The transfer -/

/-- The buffers hold what has arrived. -/
structure Received (env : Env) (s : Call) : Prop where
  holds : ∀ w, Holds s w (received w env.events)

theorem performRequest_ends :
    Ends (fun s => Preparing env o s ∧ ∀ w, Collecting w s) (performRequest env)
    ((∀ ev ∈ env.events, ev.Taken) ∧ env.performCode = 0)
    (fun _ s => Preparing env o s ∧ Received env s) (Failing env o) := by
  rintro s ⟨hp, hc⟩
  obtain ⟨hr, hout, hcase⟩ := curlEasyPerform_spec env.performCode (fun _ => [])
    ⟨hp.balanced, fun w => (hc w).sink⟩ (fun w => (hc w).holds) (fun w => by simpa using env.fits w)
    (Prod.eta (curlEasyPerform env.performCode env.events s)).symm
  have hrun : performRequest env s = (if (curlEasyPerform env.performCode env.events s).1 ≠ 0 then
      throw ((curlEasyPerform env.performCode env.events s).1 : ℤ) else pure () : Request Unit)
        (curlEasyPerform env.performCode env.events s).2 := rfl
  rw [hrun]
  generalize curlEasyPerform env.performCode env.events s = r at hr hout hcase ⊢
  have hpt : Preparing env o r.2 :=
    ⟨hr.balanced, hout.1.trans hp.out, fun happ => hout.2.trans (hp.leaked happ)⟩
  rcases hcase with ⟨htaken, hcode, hs⟩ | ⟨htaken, hcode⟩
  · rw [hcode]
    by_cases h0 : env.performCode = 0
    · simp only [h0, ne_eq, not_true_eq_false, if_false]
      exact ⟨⟨htaken, trivial⟩, hpt, ⟨by simpa using hs⟩⟩
    · simp only [ne_eq, h0, not_false_eq_true, if_true]
      exact ⟨fun h => h.2.elim, by exact_mod_cast h0, hpt⟩
  · rw [hcode]
    exact ⟨fun h => htaken h.1, by decide, hpt⟩

/-- All the checked options, in order. -/
def checkedOpts (req : ReqCtx) : List CurlOpt :=
  .url ((urlText req).take (urlSize req - 1)) :: methodOpts req ++
    [.writefunction, .writedata .body, .headerfunction, .headerdata .header] ++ requestOpts req

/-- Every call up to and with `curl_easy_perform` succeeds. -/
structure Performed (env : Env) (req : ReqCtx) : Prop where
  method : req.method < libcurlWrapMethodMax
  easyInit : env.easyInit = true
  host : req.host.isSome = true ∧ req.port.isSome = true
  urlSize : urlSize req < urlMaxSize
  callocUrl : env.callocUrl = true
  calloc : ∀ w, env.calloc w = true
  setopt : ∀ opt ∈ checkedOpts req, env.setopt opt = true
  taken : ∀ ev ∈ env.events, ev.Taken
  performCode : env.performCode = 0

/-- **The function up to and with `curl_easy_perform`**: it gets through exactly if each call
succeeds, and then the buffers hold what has arrived; no output is touched, and everything stays
accounted for. -/
theorem performed_spec :
    Ends (fun s => Preparing env o s ∧ s.curl = none ∧ s.url = none ∧ Blank 0 s) (performed env req)
      (Performed env req) (fun _ s => Preparing env o s ∧ Received env s) (Failing env o) := by
  refine Ends.iff (Ends.bind (checkDo_ends (fun _ h => h) fun _ h => h.1.failing) fun _ =>
    Ends.bind curlEasyInit_ends fun _ =>
    Ends.bind composeUrl_ends fun _ =>
    Ends.bind methodOptions_ends fun _ =>
    Ends.bind (Ends.update fun s h => setHeaders_keeps req.headers h.1 h.2) fun _ =>
    Ends.bind receiveOptions_ends fun _ =>
    Ends.bind requestOptions_ends fun _ => performRequest_ends) ?_
  have hopts : (∀ opt ∈ checkedOpts req, env.setopt opt = true) ↔
      env.setopt (.url ((urlText req).take (LibcurlWrap.urlSize req - 1))) = true ∧
      (∀ opt ∈ methodOpts req, env.setopt opt = true) ∧
      (∀ opt ∈ [CurlOpt.writefunction, .writedata .body, .headerfunction, .headerdata .header],
        env.setopt opt = true) ∧
      ∀ opt ∈ requestOpts req, env.setopt opt = true := by
    simp only [checkedOpts, List.cons_append, List.forall_mem_cons, List.forall_mem_append]
    tauto
  constructor
  · rintro ⟨h1, h2, ⟨h3, h4, h5, h6⟩, h7, -, ⟨h8, h9⟩, h10, h11, h12⟩
    exact ⟨by simpa using h1, h2, h3, h4, h5, h9, hopts.mpr ⟨h6, h7, h8, h10⟩, h11, h12⟩
  · intro h
    obtain ⟨h6, h7, h8, h10⟩ := hopts.mp h.setopt
    exact ⟨by simpa using h.method, h.easyInit, ⟨h.host, h.urlSize, h.callocUrl, h6⟩, h7, trivial,
      ⟨h8, h.calloc⟩, h10, h.taken, h.performCode⟩

/-! ### Handing over -/

/-- A pointer of the caller's is left, if it is not asked for or nothing has arrived; else it owns a
block that begins with `bs` and a NUL. -/
def Handed (store : Store Kind (List UInt8)) (before after : Option Ptr) (bs : List UInt8) : Prop :=
  (before = none ∨ bs = []) ∧ after = before ∨
    (before ≠ none ∧ bs ≠ []) ∧ ∃ n mem, after = some (.block n) ∧ store.cell (blk n) = some mem ∧
    bs ++ [0] <+: mem

@[simp]
theorem ref_setRef (o : Outs) (p : Ptr) (w : Part) : (o.setRef p w).ref w = some p := by
  cases w <;> rfl

@[simp]
theorem ref_setRef_other (o : Outs) (p : Ptr) (w : Part) :
    (o.setRef p w).ref w.other = o.ref w.other := by
  cases w <;> rfl

/-- The pointer for `w` is handed over; the rest stays. -/
structure Published (w : Part) (bs : List UInt8) (s t : Call) : Prop where
  store : t.store = s.store
  balanced : t.store.Balanced t.held
  handed : Handed t.store (s.out.ref w) (t.out.ref w) bs
  ref_other : t.out.ref w.other = s.out.ref w.other
  mem_other : t.mem w.other = s.mem w.other
  httpRetCode : t.out.httpRetCode = s.out.httpRetCode
  statsCtx : t.out.statsCtx = s.out.statsCtx
  leaked : t.leaked = s.leaked

theorem publish_spec {w : Part} {bs : List UInt8} (hb : s.store.Balanced s.held)
    (hown : ∀ p, s.out.ref w = some p → p.owned = []) (hs : Holds s w bs) :
    Published w bs s (publish w s) := by
  have hpos : (s.mem w).size > 0 ↔ bs ≠ [] := by
    rw [gt_iff_lt, UInt64.lt_iff_toNat_lt, hs.size, ← List.length_pos_iff]
    rfl
  simp only [publish, hpos]
  split
  · next hask =>
    obtain ⟨n, mem, hn, hm, hpre⟩ := hs.bytes
    refine ⟨rfl, hb.congr (List.perm_iff_count.mpr fun r => ?_),
      .inr ⟨⟨Option.isSome_iff_ne_none.mp hask.1, hask.2⟩, n, mem, by simp [hn], hm, hpre⟩, by simp,
      by simp, by cases w <;> rfl, by cases w <;> rfl, rfl⟩
    obtain ⟨p, hp⟩ := Option.isSome_iff_exists.mp hask.1
    have hp0 := hown p hp
    cases w <;> simp only [Outs.ref, Option.some.injEq] at hp <;>
      simp [Call.held, Call.locals, Outs.owned, Outs.setRef, hn, hp, hp0, List.count_append,
        List.count_cons] <;> omega
  · next hask =>
    refine ⟨rfl, hb, .inl ⟨?_, rfl⟩, rfl, rfl, rfl, rfl, rfl⟩
    by_cases h : bs = []
    · exact .inr h
    · exact .inl (by simpa [h] using hask)

/-- The outputs are set, as far as they are asked for. -/
def handOver (env : Env) (s : Call) : Call := publish .header (publish .body (populateStats env s))

theorem cliRequest_of_ok {t : Call} (h : performed env req s = .ok () t) :
    cliRequest env req s = responseCode env (handOver env t) := bind_of_ok h

theorem cliRequest_of_error {e : ℤ} {t : Call} (h : performed env req s = .error e t) :
    cliRequest env req s = .error e t := bind_of_error h

/-- The pointers are the caller's own. -/
def Outs.Callers (o : Outs) : Prop := ∀ w p, o.ref w = some p → p.owned = []

theorem callers_callerOuts (responseStr : UInt64) (code : Int64) (headersOutStr : Option UInt64)
    (statsCtx : Option StatsCtx) :
    (callerOuts responseStr code headersOutStr statsCtx).Callers := by
  intro w p hp
  cases w with
  | body =>
    obtain rfl : Ptr.caller responseStr = p := Option.some.inj hp
    rfl
  | header =>
    obtain ⟨a, -, rfl⟩ := Option.map_eq_some_iff.mp hp
    rfl

theorem Outs.Callers.owned (h : o.Callers) : o.owned = [] := by
  have hhdr : (o.headersOutStr.map Ptr.owned).getD [] = [] := by
    cases hw : o.headersOutStr with
    | none => rfl
    | some p => exact h .header p hw
  rw [Outs.owned, h .body o.responseStr rfl, hhdr, List.append_nil]

/-- Nothing is held at the start. -/
theorem preparing_start (env : Env) (ho : o.Callers) :
    Preparing env o (.start o) ∧ (Call.start o).curl = none ∧ (Call.start o).url = none ∧
      Blank 0 (.start o) := by
  refine ⟨⟨?_, rfl, fun _ => rfl⟩, rfl, rfl, ⟨fun _ => rfl, rfl⟩⟩
  have hheld : (Call.start o).held = [] := by simp [Call.held, Call.locals, Call.start, ho.owned]
  rw [hheld]
  exact Store.balanced_empty

/-- What the outputs are after they have been set. -/
structure HandedOver (env : Env) (o : Outs) (t : Call) : Prop where
  balanced : t.store.Balanced t.held
  handed : ∀ w, Handed t.store (o.ref w) (t.out.ref w) (received w env.events)
  httpRetCode : t.out.httpRetCode = o.httpRetCode
  statsCtx : t.out.statsCtx = o.statsCtx.map fun _ => reportedStats env

theorem handOver_spec (ho : o.Callers) (hp : Preparing env o s) (hr : Received env s) :
    HandedOver env o (handOver env s) ∧ (handOver env s).leaked = s.leaked := by
  have href : ∀ w, (populateStats env s).out.ref w = o.ref w := by
    intro w
    cases w <;> simp [populateStats, Outs.ref, hp.out]
  have h1 := publish_spec (s := populateStats env s) (w := .body) hp.balanced
    (fun p h => ho _ p (href _ ▸ h))
    ⟨(hr.holds .body).size, (hr.holds .body).bytes⟩
  have hs : Holds (publish .body (populateStats env s)) .header (received .header env.events) := by
    obtain ⟨hsize, hbytes⟩ := hr.holds .header
    have hmem : (publish .body (populateStats env s)).mem .header = s.mem .header := h1.mem_other
    exact ⟨by rw [hmem, hsize], by rw [hmem, h1.store]; exact hbytes⟩
  have h2 := publish_spec (w := .header) h1.balanced
    (fun p h => ho .header p (by rw [← h, ← href]; exact h1.ref_other.symm)) hs
  refine ⟨⟨h2.balanced, fun w => ?_, h2.httpRetCode.trans
    (h1.httpRetCode.trans (by rw [← hp.out]; rfl)),
      h2.statsCtx.trans (h1.statsCtx.trans (by rw [← hp.out]; rfl))⟩, h2.leaked.trans h1.leaked⟩
  cases w with
  | header =>
    have hbefore : (publish .body (populateStats env s)).out.ref .header = o.ref .header :=
      h1.ref_other.trans (href _)
    exact hbefore ▸ h2.handed
  | body =>
    have hafter : (handOver env s).out.ref .body =
        (publish .body (populateStats env s)).out.ref .body := h2.ref_other
    rw [hafter, ← href, show (handOver env s).store = _ from h2.store]
    exact h1.handed

/-! ### The end -/

/-- At the end everything is released but what the caller has been handed, and what has been
lost. -/
theorem balanced_atEnd (hb : s.store.Balanced s.held) :
    (atEnd s).store.Balanced (s.leaked.map (⟨.slist, ·⟩) ++ s.out.owned) :=
  Store.Balanced.releaseAll (by simpa [Call.held] using hb)

theorem mem_owned {w : Part} {n : ℕ} (h : o.ref w = some (.block n)) : blk n ∈ o.owned := by
  cases w with
  | body => simp [Outs.owned, show o.responseStr = .block n from Option.some.inj h]
  | header => simp [Outs.owned, show o.headersOutStr = some (.block n) from h]

/-- What the caller has been handed is not released. -/
theorem handed_atEnd {w : Part} {before : Option Ptr} {bs : List UInt8}
    (hb : s.store.Balanced s.held) (h : Handed s.store before (s.out.ref w) bs) :
    Handed (atEnd s).store before ((atEnd s).out.ref w) bs := by
  rcases h with h | ⟨h, n, mem, hn, hm, hpre⟩
  · exact .inl h
  · refine .inr ⟨h, n, mem, hn, ?_, hpre⟩
    have hnodup := hb.nodup_held
    rw [Call.held, List.append_assoc] at hnodup
    have hnot : blk n ∉ s.locals := by
      intro hl
      exact (List.nodup_append.mp hnodup).2.2 _ hl _ (List.mem_append_right _ (mem_owned hn)) rfl
    exact (Store.cell_releaseAll_of_not_mem hnot).trans hm

variable {responseStr : UInt64} {httpRetCode : Int64} {headersOutStr : Option UInt64}
    {statsCtx : Option StatsCtx}

/-- What the function leaves, whatever happens. -/
structure Left (env : Env) (t : Call) : Prop where
  balanced : t.store.Balanced (t.leaked.map (⟨.slist, ·⟩) ++ t.out.owned)
  leaked : (∀ i, env.slistAppend i = true) → t.leaked = []

/-- How a request ends that got through `curl_easy_perform`. -/
structure Answered (env : Env) (o : Outs) (r : ℤ) (t : Call) : Prop where
  handed : ∀ w, Handed t.store (o.ref w) (t.out.ref w) (received w env.events)
  statsCtx : t.out.statsCtx = o.statsCtx.map fun _ => reportedStats env
  code : r = -1 ∧ env.responseCode = none ∧ t.out.httpRetCode = o.httpRetCode ∨
    r = 0 ∧ env.responseCode = some t.out.httpRetCode

/-- **How a request ends**: before `curl_easy_perform` has succeeded no output is touched;
afterwards they all are, whether or not the function succeeds. -/
theorem libcurlWrapCliRequest_spec (env : Env) (req : ReqCtx) (responseStr : UInt64)
    (httpRetCode : Int64) (headersOutStr : Option UInt64) (statsCtx : Option StatsCtx) : ∃ r t,
    libcurlWrapCliRequest env (some req) (some responseStr)
      (some httpRetCode) headersOutStr statsCtx = (r, some t) ∧ Left env t ∧
      (¬Performed env req ∧ r ≠ 0 ∧ t.out = callerOuts responseStr 404 headersOutStr statsCtx ∨
        Performed env req ∧
        Answered env (callerOuts responseStr 404 headersOutStr statsCtx) r t) := by
  have ho := callers_callerOuts responseStr 404 headersOutStr statsCtx
  simp only [libcurlWrapCliRequest]
  generalize callerOuts responseStr 404 headersOutStr statsCtx = o at ho ⊢
  have hstart := preparing_start env ho
  cases hperf : performed env req (.start o) with
  | error e t =>
    obtain ⟨hnot, he, hp⟩ := performed_spec.of_error hstart hperf
    exact ⟨e, atEnd t, by rw [cliRequest_of_error hperf], ⟨balanced_atEnd hp.balanced, hp.leaked⟩,
      .inl ⟨hnot, he, hp.out⟩⟩
  | ok _ t =>
    obtain ⟨hdone, hp, hr⟩ := performed_spec.of_ok hstart hperf
    obtain ⟨h, hleak⟩ := handOver_spec ho hp hr
    have hleft : Left env (atEnd (handOver env t)) :=
      ⟨balanced_atEnd h.balanced, fun happ => hleak.trans (hp.leaked happ)⟩
    have hhanded := fun w => handed_atEnd h.balanced (h.handed w)
    rw [cliRequest_of_ok hperf, responseCode]
    cases hcode : env.responseCode with
    | none =>
        exact ⟨-1, _, rfl, hleft,
          .inr ⟨hdone, hhanded, h.statsCtx, .inl ⟨rfl, hcode, h.httpRetCode⟩⟩⟩
    | some c =>
      refine ⟨0, _, rfl, ⟨hleft.balanced, hleft.leaked⟩,
        .inr ⟨hdone, fun w => ?_, h.statsCtx, .inr ⟨rfl, hcode⟩⟩⟩
      cases w with
      | body => exact hhanded .body
      | header => exact hhanded .header

/-! ### Received data is returned verbatim -/

/-- **Received data is returned verbatim.** In every transfer, after every event, each buffer holds
what has been taken of its part; a piece is taken in full exactly if there is memory for it, or
nothing in it, and else everything is left as it was; and the other buffer is left alone. So a
request that succeeds hands over all of each part that has arrived and is asked for. -/
theorem received_verbatim :
    (∀ x, transfer.Reach (fun x ev => Fits x.call ev) x → ∀ w, Holds x.call w (taken w x.log)) ∧
    (∀ x, transfer.Reach (fun x ev => Fits x.call ev) x → ∀ w d, Fits x.call (.write w d) →
      ∀ n t, deliver x.call (.write w d) = (n, t) →
        (n.toNat = d.contents.length ↔ d.contents = [] ∨ d.realloc = true) ∧
        (n.toNat = d.contents.length ∨ n = 0 ∧ t = x.call) ∧
        t.mem w.other = x.call.mem w.other ∧
        ∀ k, (x.call.mem w.other).data = some k →
        t.store.cell (blk k) = x.call.store.cell (blk k)) ∧
    (∀ env req responseStr httpRetCode headersOutStr statsCtx t,
      libcurlWrapCliRequest env (some req) (some responseStr)
        (some httpRetCode) headersOutStr statsCtx = (0, some t) →
        (received .body env.events ≠ [] →
          ∃ n mem, t.out.responseStr = .block n ∧
          t.store.cell (blk n) = some mem ∧ received .body env.events ++ [0] <+: mem) ∧
        (headersOutStr ≠ none → received .header env.events ≠ [] →
          ∃ n mem, t.out.headersOutStr = some (.block n) ∧ t.store.cell (blk n) = some mem ∧
          received .header env.events ++ [0] <+: mem)) := by
  refine ⟨fun x hx => (holds_taken hx).2, ?_, ?_⟩
  · intro x hx w d hf n t hd
    obtain ⟨hr, hs⟩ := holds_taken hx
    have hfull := full_iff hr hf (fun w => ⟨_, hs w⟩) hd
    have hf : (x.call.mem w).size.toNat + d.contents.length + 1 < 2 ^ 64 := hf
    simp only [deliver, hr.sink w] at hd
    rcases curlWriteBodyCallback_cases d.contents d.size d.nmemb w d.realloc d.junk x.call with
        he | ⟨data, hdata, he⟩
    · obtain ⟨rfl, rfl⟩ := Prod.mk.inj (he.symm.trans hd)
      exact ⟨hfull, .inr ⟨rfl, rfl⟩, rfl, fun _ _ => rfl⟩
    · obtain ⟨rfl, rfl⟩ := Prod.mk.inj (he.symm.trans hd)
      exact ⟨hfull, .inl (toNat_realsize (by omega)), by simp [taking],
        fun k hk => cell_other_taking hr.balanced hdata hk⟩
  · intro env req a c h st t hrun
    obtain ⟨r, t', hrun', -, hcase⟩ := libcurlWrapCliRequest_spec env req a c h st
    obtain ⟨rfl, ht⟩ := Prod.mk.inj (hrun'.symm.trans hrun)
    obtain rfl := Option.some.inj ht
    rcases hcase with ⟨-, h0, -⟩ | ⟨-, hans⟩
    · exact absurd rfl h0
    · constructor
      · intro hne
        rcases hans.handed .body with ⟨h | h, -⟩ | ⟨-, n, mem, hn, hm⟩
        · cases h
        · exact absurd h hne
        · exact ⟨n, mem, Option.some.inj hn, hm⟩
      · intro hask hne
        rcases hans.handed .header with ⟨h | h, -⟩ | ⟨-, n, mem, hn, hm⟩
        · exact absurd (Option.map_eq_none_iff.mp h) hask
        · exact absurd h hne
        · exact ⟨n, mem, hn, hm⟩

/-- A body of one byte arrives, everything succeeds, but then there is no response code. -/
def noResponseCode : Env where
  easyInit := true
  setopt _ := true
  callocUrl := true
  calloc _ := true
  slistAppend _ := true
  events := [.write .body ⟨1, 1, [65], true, 0, by decide⟩]
  performCode := 0
  connectTime := some 0
  starttransferTime := some 0
  totalTime := some 0
  contentLengthDownload := some 1
  responseCode := none
  fits w := by cases w <;> decide

/-- A handle whose callbacks collect both parts, in buffers that are empty. -/
def emptyBuffers : Call :=
  bufferReady .header (bufferReady .body { Call.start (callerOuts 0 404 none none) with
    opts := [.headerdata .header, .headerfunction, .writedata .body, .writefunction] })

/-- Two bytes of a response, for which there is memory or not. -/
def twoBytes (w : Part) (a b : UInt8) (realloc : Bool) : Event :=
  .write w ⟨1, 2, [a, b], realloc, 0, rfl⟩

/-- A test of a step: what arrives fits memory. -/
def fitsTest (x : Transfer) : Event → Bool
  | .write w d => (x.call.mem w).size.toNat + d.contents.length + 1 < 2 ^ 64
  | .read .. => true

theorem fits_of_test {x : Transfer} {ev : Event} (h : fitsTest x ev = true) : Fits x.call ev := by
  cases ev with
  | write => simpa [fitsTest, Fits] using h
  | read => trivial

theorem transfer_init_emptyBuffers : transfer.init ⟨emptyBuffers, []⟩ := by
  have hstart := (preparing_start noResponseCode (callers_callerOuts 0 404 none none)).1
  have hbody := (hstart.setopt [.headerdata .header, .headerfunction, .writedata .body,
    .writefunction]).bufferReady (w := .body) rfl
  refine ⟨⟨(hbody.bufferReady (w := .header) rfl).balanced, fun w => ?_⟩, fun w => ?_, rfl⟩
  · cases w <;> rfl
  · cases w with
    | body => exact holds_other_bufferReady (w := .header) hbody (holds_bufferReady .body)
    | header => exact holds_bufferReady .header

/-- Header and body arrive by turns; there is no memory for the second piece of the body, of which
nothing is taken. -/
theorem received_verbatim_noMemory : ∃ x, transfer.Reach (fun x ev => Fits x.call ev) x ∧
    x.log.map Prod.snd = [2, 2, 2, 0] ∧ Holds x.call .body [97, 98] ∧
    Holds x.call .header [72, 84, 84, 80] ∧
    (deliver x.call (twoBytes .body 99 100 true)).1.toNat = 2 := by
  let evs : List Event := [twoBytes .header 72 84 true, twoBytes .body 97 98 true,
    twoBytes .header 84 80 true, twoBytes .body 99 100 false]
  obtain ⟨x, hx, hall⟩ : ∃ x, transfer.execIf fitsTest ⟨emptyBuffers, []⟩ evs = some x ∧
      (x.log.map Prod.snd, taken .body x.log, taken .header x.log,
        fitsTest x (twoBytes .body 99 100 true)) =
      ([2, 2, 2, 0], [97, 98], [72, 84, 84, 80], true) := by
    refine Option.map_eq_some_iff.mp ?_
    decide +kernel
  obtain ⟨hlog, hbody, hheader, hfits⟩ : _ ∧ _ ∧ _ ∧ _ := by simpa using hall
  have hreach : transfer.Reach (fun x ev => Fits x.call ev) x :=
    ⟨_, evs, transfer_init_emptyBuffers,
      Sys.run_of_execIf hx fun u ev _ htest => fits_of_test htest⟩
  obtain ⟨hholds, hpiece, -⟩ := received_verbatim
  have hb := hholds x hreach .body
  have hh := hholds x hreach .header
  rw [hbody] at hb
  rw [hheader] at hh
  refine ⟨x, hreach, hlog, hb, hh, ?_⟩
  exact (hpiece x hreach .body ⟨1, 2, [99, 100], true, 0, rfl⟩ (fits_of_test hfits) _ _ rfl).1.mpr
    (.inr rfl)

/-! ### A failed request leaves the outputs alone -/

/-- What a caller relies on of a request that returns `r` and leaves `t`, the caller's references
leading to `o` before, with the code `404`. -/
structure Contract (env : Env) (o : Outs) (r : ℤ) (t : Call) : Prop where
  /-- A failure leaves the outputs alone. -/
  failed : r ≠ 0 → t.out = o
  /-- A success reports the response code. -/
  code : r = 0 → env.responseCode = some t.out.httpRetCode
  /-- A success leaves a pointer alone if there is nothing to return in it, else it owns a block. -/
  handed : r = 0 → ∀ w, (o.ref w = none ∨ received w env.events = []) ∧ t.out.ref w = o.ref w ∨
    ∃ n, t.out.ref w = some (.block n) ∧ blk n ∈ t.store.obtained
  /-- All that was obtained is released or handed over, once. -/
  once : ∀ x ∈ t.store.obtained, t.store.released.count x + t.out.owned.count x = 1
  /-- Nothing else is released. -/
  released : t.store.released ⊆ t.store.obtained

/-- There is something to set an output to. -/
def Publishes (env : Env) (headersOutStr : Option UInt64) (statsCtx : Option StatsCtx) : Prop :=
  received .body env.events ≠ [] ∨ (headersOutStr ≠ none ∧ received .header env.events ≠ []) ∨
    ∃ st, statsCtx = some st ∧ st ≠ reportedStats env

/-- Everything succeeds and there is something to set an output to, but libcurl cannot tell the
response code. -/
def FailsLate (env : Env) (req : ReqCtx) (headersOutStr : Option UInt64)
    (statsCtx : Option StatsCtx) : Prop :=
  Performed env req ∧ env.responseCode = none ∧ Publishes env headersOutStr statsCtx

/-- The outputs are left alone by a request that got through exactly if there is nothing to set. -/
theorem out_eq_iff_of_answered {r : ℤ} {t : Call}
    (h : Answered env (callerOuts responseStr 404 headersOutStr statsCtx) r t) (hr : r ≠ 0) :
    t.out = callerOuts responseStr 404 headersOutStr statsCtx ↔
      ¬Publishes env headersOutStr statsCtx := by
  have hcode : t.out.httpRetCode = 404 := by
    rcases h.code with ⟨-, -, hc⟩ | ⟨h0, -⟩
    · exact hc
    · exact absurd h0 hr
  constructor
  · rintro heq (hbody | ⟨hask, hhdr⟩ | ⟨st, rfl, hst⟩)
    · rcases h.handed .body with ⟨hn | hn, -⟩ | ⟨-, n, mem, hn, -⟩
      · cases hn
      · exact hbody hn
      · rw [heq] at hn
        cases hn
    · rcases h.handed .header with ⟨hn | hn, -⟩ | ⟨-, n, mem, hn, -⟩
      · exact hask (Option.map_eq_none_iff.mp hn)
      · exact hhdr hn
      · rw [heq] at hn
        obtain ⟨a, -, ha⟩ := Option.map_eq_some_iff.mp hn
        cases ha
    · have := h.statsCtx
      rw [heq] at this
      exact hst (Option.some.inj this)
  · intro hnot
    obtain ⟨hbody, hhdr, hst⟩ : received .body env.events = [] ∧
        (headersOutStr = none ∨ received .header env.events = []) ∧ ∀ st, statsCtx = some st →
        st = reportedStats env := by
      simp only [Publishes, not_or, not_and, not_exists, not_not] at hnot
      refine ⟨hnot.1, ?_, hnot.2.2⟩
      by_cases hn : headersOutStr = none
      · exact .inl hn
      · exact .inr (hnot.2.1 hn)
    have hb : t.out.responseStr = .caller responseStr := by
      rcases h.handed .body with ⟨-, hn⟩ | ⟨⟨-, hn⟩, -⟩
      · exact Option.some.inj hn
      · exact absurd hbody hn
    have hh : t.out.headersOutStr = headersOutStr.map .caller := by
      rcases h.handed .header with ⟨-, hn⟩ | ⟨⟨hask, hn⟩, -⟩
      · exact hn
      · exact (hhdr.elim (fun h => hask (Option.map_eq_none_iff.mpr h)) fun h => hn h).elim
    have hs : t.out.statsCtx = statsCtx := by
      rw [h.statsCtx]
      cases hst' : statsCtx with
      | none => simp [callerOuts]
      | some st => simp [callerOuts, ← hst st hst']
    rw [callerOuts, ← hb, ← hcode, ← hh, ← hs]

/-- **A failed request leaves the caller's outputs alone and nothing is leaked**, exactly unless the
request itself has succeeded, there is something to return, and the last call, for the response
code, fails. -/
theorem contract_iff (env : Env) (req : ReqCtx) (responseStr : UInt64) (httpRetCode : Int64)
    (headersOutStr : Option UInt64) (statsCtx : Option StatsCtx)
    (happ : ∀ i, env.slistAppend i = true) :
    (∃ r t, libcurlWrapCliRequest env (some req) (some responseStr) (some httpRetCode)
        headersOutStr statsCtx = (r, some t) ∧
      Contract env (callerOuts responseStr 404 headersOutStr statsCtx) r t) ↔
      ¬FailsLate env req headersOutStr statsCtx := by
  obtain ⟨r, t, hrun, hleft, hcase⟩ :=
    libcurlWrapCliRequest_spec env req responseStr httpRetCode headersOutStr statsCtx
  have hbal : t.store.Balanced t.out.owned := by simpa [hleft.leaked happ] using hleft.balanced
  have hiff : (∃ r t, libcurlWrapCliRequest env (some req) (some responseStr)
        (some httpRetCode) headersOutStr statsCtx = (r, some t) ∧
        Contract env (callerOuts responseStr 404 headersOutStr statsCtx) r t) ↔
      Contract env (callerOuts responseStr 404 headersOutStr statsCtx) r t := by
    constructor
    · rintro ⟨r', t', hrun', h⟩
      obtain ⟨rfl, ht⟩ := Prod.mk.inj (hrun.symm.trans hrun')
      exact Option.some.inj ht ▸ h
    · exact fun h => ⟨r, t, hrun, h⟩
  rw [hiff]
  rcases hcase with ⟨hnot, hr, hout⟩ | ⟨hdone, hans⟩
  · refine iff_of_true ⟨fun _ => hout, fun h => absurd h hr, fun h => absurd h hr,
      fun x hx => hbal.count_eq_one hx, hbal.released_subset⟩ fun h => hnot h.1
  · rcases hans.code with ⟨hr, hcode, -⟩ | ⟨hr, hcode⟩
    · have hr0 : r ≠ 0 := by rw [hr]; decide
      have hout := out_eq_iff_of_answered hans hr0
      constructor
      · exact fun h hlate => hout.mp (h.failed hr0) hlate.2.2
      · intro h
        refine ⟨fun _ => hout.mpr fun hp => h ⟨hdone, hcode, hp⟩, fun h => absurd h hr0,
          fun h => absurd h hr0, fun x hx => hbal.count_eq_one hx, hbal.released_subset⟩
    · refine iff_of_true ⟨fun h => absurd hr h, fun _ => hcode, fun _ w => ?_,
        fun x hx => hbal.count_eq_one hx, hbal.released_subset⟩ fun h =>
          Option.some_ne_none _ (hcode.symm.trans h.2.1)
      rcases hans.handed w with h | ⟨-, n, mem, hn, -⟩
      · exact .inl h
      · exact .inr ⟨n, hn, hbal.mem_obtained (mem_owned hn)⟩

/-- A request to a host, with nothing else. -/
def getRequest : ReqCtx where
  method := libcurlWrapMethodGet
  headers := none
  host := some (ascii "127.0.0.1")
  port := some (ascii "80")
  location := none
  qstring := none
  body := none
  tout := 5
  flagLibcurlVerbose := 0

/-- Without a response code the request fails, and the response has been set all the same. -/
theorem response_set_by_failed_request : ¬∃ r t,
    libcurlWrapCliRequest noResponseCode (some getRequest) (some 0) (some 0) none none =
        (r, some t) ∧
      Contract noResponseCode (callerOuts 0 404 none none) r t := by
  rintro ⟨r, t, hrun, h⟩
  have hret : (libcurlWrapCliRequest noResponseCode (some getRequest) (some 0) (some 0) none
      none).1 = -1 := by decide
  have hout : (libcurlWrapCliRequest noResponseCode (some getRequest) (some 0) (some 0) none
      none).2.map (fun t => t.out.responseStr) = some (.block 4) := by decide
  rw [hrun] at hret hout
  have heq := h.failed (by rw [show r = -1 from hret]; decide)
  rw [Option.map_some, heq] at hout
  cases hout

/-- A request that succeeds, with the body it receives. -/
theorem contract_iff_responseCode : (∃ r t,
    libcurlWrapCliRequest { noResponseCode with responseCode := some 200 } (some getRequest)
        (some 0) (some 0) none none = (r, some t) ∧
      Contract { noResponseCode with responseCode := some 200 } (callerOuts 0 404 none none) r t) ↔
    ¬FailsLate { noResponseCode with responseCode := some 200 } getRequest none none :=
  contract_iff { noResponseCode with responseCode := some 200 } getRequest 0 0 none none fun _ =>
    rfl

end NginxTools.LibcurlWrap
