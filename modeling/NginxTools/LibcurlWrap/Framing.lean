import NginxTools.LibcurlWrap.Contract
import NginxTools.LibcurlWrap.FindHeader

/-!
# Framing a request's body

What `libcurl_wrap_cli_request` tells libcurl about the body of a POST or PUT: where it is read
from, and how many bytes there are. The two methods have functions of their own. That for POST
declares a size unless the headers ask for chunks:

    idx= find_header(headers, "Transfer-Encoding", "chunked", LOG_CTX_GET());
    if(idx< 0) {
        CHECK_DO(curl_easy_setopt(curl, CURLOPT_POSTFIELDSIZE, (long)curl_read_mem_ctx->size_left)== CURLE_OK, return -1);
    }

and that for PUT does nothing but announce an upload when there is no body.

## The model

`prepared` is the function up to `curl_easy_perform`. Of the handle it leaves, `Call.declared` is
the size libcurl is told, `Call.OwnRead` says that the body is read from the wrapper's callback, and
otherwise it is from the standard input, and `Call.sentHeaders` are the headers of the list that the
handle is given. `Transferred` is what the callback delivers over a transfer, however libcurl asks.

## What is proved

The callback delivers the body and nothing else (`transferred_iff`). `framed_iff` — the handle is
well `Framed` exactly when the request has a body, and its header, if `find_header` accepts one, is
really that for chunks and gets to libcurl; a POST without a body will do if `find_header` accepts
none.
-/

namespace NginxTools.LibcurlWrap

open Library

/-! ### Reading the body -/

/-- The callback is asked again and again: what it delivers, and what it leaves. -/
def readAll (m : ReadMemCtx) : List (UInt64 × UInt64) → List UInt8 × ReadMemCtx
  | [] => ([], m)
  | (size, nmemb) :: reads =>
    let (dest, m) := curlReadBodyCallback size nmemb m
    let (rest, m) := readAll m reads
    (dest ++ rest, m)

/-- What is delivered over a transfer: until the callback has nothing to give to a read with
room. -/
def Transferred (m : ReadMemCtx) (bs : List UInt8) : Prop :=
  ∃ reads size nmemb, (readAll m reads).1 = bs ∧ size * nmemb ≠ 0 ∧
    (curlReadBodyCallback size nmemb (readAll m reads).2).1 = []

/-- The whole of `p` is left to be read. -/
structure Unread (m : ReadMemCtx) (p : List UInt8) : Prop where
  pRead : m.pRead = some p
  sizeLeft : m.sizeLeft.toNat = p.length

/-- The room that calls give, with each product as the callback computes it. -/
def room (reads : List (UInt64 × UInt64)) : ℕ := (reads.map fun r => (r.1 * r.2).toNat).sum

/-- **One call** delivers as much of what is left as there is room for. -/
theorem read_eq {m : ReadMemCtx} {p : List UInt8} (h : Unread m p) (size nmemb : UInt64) :
    (curlReadBodyCallback size nmemb m).1 = p.take (size * nmemb).toNat ∧
      Unread (curlReadBodyCallback size nmemb m).2 (p.drop (size * nmemb).toNat) := by
  obtain ⟨hp, hs⟩ := h
  simp only [curlReadBodyCallback, hp]
  split_ifs with h0 hmax
  · rcases h0 with hroom | hleft
    · rw [hroom]
      exact ⟨rfl, hp, hs⟩
    · have hnil : p = [] := by
        apply List.eq_nil_of_length_eq_zero
        rw [← hs, hleft]
        rfl
      rw [hnil, List.take_nil, List.drop_nil]
      exact ⟨rfl, hnil ▸ hp, hnil ▸ hs⟩
  · have hle : size * nmemb ≤ m.sizeLeft := UInt64.le_of_lt hmax
    exact ⟨rfl, rfl, by rw [UInt64.toNat_sub_of_le _ _ hle, hs, List.length_drop]⟩
  · have hle : p.length ≤ (size * nmemb).toNat := by
      rw [← hs]
      exact UInt64.le_iff_toNat_le.mp (UInt64.not_lt.mp hmax)
    rw [hs, List.take_of_length_le hle, List.drop_of_length_le hle, List.take_length,
      List.drop_length]
    exact ⟨rfl, rfl, by rw [UInt64.sub_self]; rfl⟩

/-- **Any calls** deliver as much as they have room for together. -/
theorem readAll_eq {m : ReadMemCtx} {p : List UInt8} (h : Unread m p)
    (reads : List (UInt64 × UInt64)) :
    (readAll m reads).1 = p.take (room reads) ∧
      Unread (readAll m reads).2 (p.drop (room reads)) := by
  induction reads generalizing m p with
  | nil => exact ⟨rfl, h⟩
  | cons r reads ih =>
    obtain ⟨size, nmemb⟩ := r
    obtain ⟨hdest, hleft⟩ := read_eq h size nmemb
    obtain ⟨hrest, hend⟩ := ih hleft
    have hroom : room ((size, nmemb) :: reads) = (size * nmemb).toNat + room reads := rfl
    rw [hroom, List.take_add, ← List.drop_drop, ← hdest, ← hrest]
    exact ⟨rfl, hend⟩

/-- **The callback delivers the body**, all of it and nothing else. -/
theorem transferred_iff {m : ReadMemCtx} {p : List UInt8} (h : Unread m p) (bs : List UInt8) :
    Transferred m bs ↔ bs = p := by
  constructor
  · rintro ⟨reads, size, nmemb, rfl, hroom, hend⟩
    obtain ⟨hsent, hleft⟩ := readAll_eq h reads
    rw [(read_eq hleft size nmemb).1] at hend
    have hrest : p.drop (room reads) = [] :=
      (List.take_eq_nil_iff.mp hend).resolve_left fun hz => hroom (UInt64.toNat_inj.mp hz)
    rw [hsent, List.take_of_length_le (List.drop_eq_nil_iff.mp hrest)]
  · rintro rfl
    -- One call takes the whole, and the next one finds nothing.
    have hroom : room [(1, m.sizeLeft)] = bs.length := by
      show (1 * m.sizeLeft).toNat + 0 = bs.length
      rw [UInt64.one_mul, Nat.add_zero, h.sizeLeft]
    obtain ⟨hsent, hleft⟩ := readAll_eq h [(1, m.sizeLeft)]
    rw [hroom, List.take_length] at hsent
    rw [hroom, List.drop_length] at hleft
    refine ⟨[(1, m.sizeLeft)], 1, 1, hsent, by decide, ?_⟩
    rw [(read_eq hleft 1 1).1, List.take_nil]

/-! ### The handle -/

/-- The size an option declares. -/
def CurlOpt.size? : CurlOpt → Option Int64
  | .postfieldsize n => some n
  | .infilesizeLarge n => some n
  | _ => none

/-- The list an option gives. -/
def CurlOpt.list? : CurlOpt → Option (List ℕ)
  | .httpheader list => some list
  | _ => none

/-- The number of body bytes that libcurl is told, `none` when it is left unknown. -/
def Call.declared (s : Call) : Option Int64 := s.opts.findSome? CurlOpt.size?

/-- The body is read from the wrapper's callback, and not from the standard input. -/
def Call.OwnRead (s : Call) : Prop := .readfunction ∈ s.opts ∧ .readdata ∈ s.opts

/-- The headers that are sent: the texts of the list that the handle is given. -/
def Call.sentHeaders (s : Call) : List CStr :=
  ((s.opts.findSome? CurlOpt.list?).getD []).filterMap fun n => s.store.cell ⟨.slist, n⟩

/-- The header that says that the body comes in chunks. -/
def ChunkedHeader (hdr : CStr) : Prop :=
  Named hdr (ascii "Transfer-Encoding") (some (ascii "chunked"))

/-- The framing of the body is consistent. -/
structure Framed (s : Call) : Prop where
  /-- The size declared is what is delivered, nothing when there is no body. -/
  declared : ∀ n, s.declared = some n →
    (s.OwnRead → ∀ bs, Transferred s.readMem bs → n.toInt = bs.length) ∧ (¬ s.OwnRead → n.toInt = 0)
  /-- The size is left unknown only of a body that is sent in chunks. -/
  undeclared : s.declared = none → s.OwnRead ∧ ∃ hdr ∈ s.sentHeaders, ChunkedHeader hdr

/-- The function up to `curl_easy_perform`. -/
def prepared (env : Env) (req : ReqCtx) : Request Unit := do
  checkDo (req.method < libcurlWrapMethodMax)
  assignDo (curlEasyInit env) (·.curl.isSome)
  composeUrl env req
  methodOptions env req
  modify (setHeaders env req.headers)
  receiveOptions env
  requestOptions env req

/-- What is left to do is to perform the request. -/
theorem performed_eq (env : Env) (req : ReqCtx) :
    performed env req = prepared env req >>= fun _ => performRequest env := by
  simp only [performed, prepared, bind_assoc]

/-! ### Headers -/

/-- The list that `curl_slist_append` makes of the headers from index `i` on, with the numbers of
its nodes, the next being `n`. -/
def slistFrom (env : Env) : ℕ → List CStr → ℕ → List (ℕ × CStr) → List (ℕ × CStr)
  | _, [], _, list => list
  | i, hdr :: hdrs, n, list =>
    if i < hdrsMaxNum then
      if env.slistAppend i then slistFrom env (i + 1) hdrs (n + 1) (list ++ [(n, hdr)])
      else slistFrom env (i + 1) hdrs n []
    else list

/-- The nodes hold their texts. -/
def Listed (list : List (ℕ × CStr)) (s : Call) : Prop :=
  ∀ x ∈ list, x.1 < s.store.obtained.length ∧ s.store.cell ⟨.slist, x.1⟩ = some x.2

/-- A block that is obtained is no node. -/
theorem Listed.alloc_block {list : List (ℕ × CStr)} {s t : Call} (h : Listed list s)
    {bs : List UInt8} (ht : t.store = s.store.alloc .block bs) : Listed list t := by
  intro x hx
  obtain ⟨hlt, hcell⟩ := h x hx
  rw [ht]
  refine ⟨by simp [Store.alloc]; omega, (Store.cell_alloc_of_ne ?_).trans hcell⟩
  simp [Store.fresh]

/-- A header is appended, or the list is lost. -/
theorem listed_append {list : List (ℕ × CStr)} {s : Call} (hl : s.hdrList = list.map Prod.fst)
    (h : Listed list s) (ok : Bool) (hdr : CStr) :
    let list' := if ok then list ++ [(s.store.obtained.length, hdr)] else []
    (curlSlistAppend ok hdr s).hdrList = list'.map Prod.fst ∧
      Listed list' (curlSlistAppend ok hdr s) ∧
      (curlSlistAppend ok hdr s).store.obtained.length =
        s.store.obtained.length + if ok then 1 else 0 := by
  cases ok with
  | false => exact ⟨rfl, by simp [Listed], rfl⟩
  | true =>
    refine ⟨by simp [curlSlistAppend, hl], ?_, by simp [curlSlistAppend, Store.alloc]⟩
    intro x hx
    rcases List.mem_append.mp hx with hx | hx
    · obtain ⟨hlt, hcell⟩ := h x hx
      refine ⟨by simp [curlSlistAppend, Store.alloc]; omega,
        (Store.cell_alloc_of_ne ?_).trans hcell⟩
      simp only [Store.fresh, ne_eq, Resource.mk.injEq, true_and]
      omega
    · obtain rfl := List.mem_singleton.mp hx
      exact ⟨by simp [curlSlistAppend, Store.alloc], Store.cell_alloc ..⟩

theorem appendHeaders_spec (env : Env) (hdrs : List CStr) {i : ℕ} {list : List (ℕ × CStr)}
    {s : Call} (hl : s.hdrList = list.map Prod.fst) (h : Listed list s) :
    (appendHeaders env i hdrs s).hdrList =
      (slistFrom env i hdrs s.store.obtained.length list).map Prod.fst ∧
      Listed (slistFrom env i hdrs s.store.obtained.length list) (appendHeaders env i hdrs s) ∧
      (appendHeaders env i hdrs s).opts = s.opts ∧
      (appendHeaders env i hdrs s).readMem = s.readMem := by
  induction hdrs generalizing i list s with
  | nil => exact ⟨hl, h, rfl, rfl⟩
  | cons hdr hdrs ih =>
    rw [appendHeaders, slistFrom]
    split_ifs with hi hok
    · obtain ⟨hl', h', hn⟩ := listed_append hl h (env.slistAppend i) hdr
      obtain ⟨h1, h2, h3, h4⟩ := ih (i := i + 1) hl' h'
      simp only [hok, if_true] at hn h1 h2 h3 h4 ⊢
      rw [hn] at h1 h2
      exact ⟨h1, h2, h3, h4⟩
    · obtain ⟨hl', h', hn⟩ := listed_append hl h (env.slistAppend i) hdr
      obtain ⟨h1, h2, h3, h4⟩ := ih (i := i + 1) hl' h'
      simp only [Bool.not_eq_true] at hok
      simp only [hok, Bool.false_eq_true, if_false, Nat.add_zero] at hn h1 h2 h3 h4 ⊢
      rw [hn] at h1 h2
      exact ⟨h1, h2, h3, h4⟩
    · exact ⟨hl, h, rfl, rfl⟩

/-- The list that is made of a request's headers, after the handle and the URL. -/
def slist (env : Env) (req : ReqCtx) : List (ℕ × CStr) := slistFrom env 0 (req.headers.getD []) 2 []

/-- The list is given to the handle. -/
def headerOpts (env : Env) (req : ReqCtx) : List CurlOpt :=
  if slist env req ≠ [] ∧ env.setopt (.httpheader ((slist env req).map Prod.fst)) = true then
    [.httpheader ((slist env req).map Prod.fst)] else []

/-! ### What the pieces do to the framing -/

/-- The options that frame the body. -/
def CurlOpt.frames : CurlOpt → Bool
  | .readfunction | .readdata | .postfieldsize _ | .infilesizeLarge _ | .httpheader _ => true
  | _ => false

/-- The options that frame the body, the latest first, what is to be read, and how much has been
obtained. -/
structure Tracked (F : List CurlOpt) (m : ReadMemCtx) (n : ℕ) (s : Call) : Prop where
  opts : s.opts.filter CurlOpt.frames = F
  readMem : s.readMem = m
  hdrList : s.hdrList = []
  obtained : s.store.obtained.length = n

/-- The same once the headers are in the list. -/
structure Framing (F : List CurlOpt) (m : ReadMemCtx) (list : List (ℕ × CStr))
    (s : Call) : Prop where
  opts : s.opts.filter CurlOpt.frames = F
  readMem : s.readMem = m
  listed : Listed list s

section Pieces

variable {env : Env} {req : ReqCtx} {F : List CurlOpt} {m : ReadMemCtx} {n : ℕ}
    {list : List (ℕ × CStr)} {opt : CurlOpt}

theorem setopt_frames (h : opt.frames = true) :
    Yields (Tracked F m n) (setoptDo env opt) fun _ => Tracked (opt :: F) m n :=
  (setoptDo_ends (E := fun _ _ => True)
    (fun _ hs => ⟨by simp [h, hs.opts], hs.readMem, hs.hdrList, hs.obtained⟩)
    fun _ _ => trivial).yields

theorem setopt_other (h : opt.frames = false) :
    Yields (Tracked F m n) (setoptDo env opt) fun _ => Tracked F m n :=
  (setoptDo_ends (E := fun _ _ => True)
    (fun _ hs => ⟨by simp [h, hs.opts], hs.readMem, hs.hdrList, hs.obtained⟩)
    fun _ _ => trivial).yields

theorem setopt_framing (h : opt.frames = false) :
    Yields (Framing F m list) (setoptDo env opt) fun _ => Framing F m list :=
  (setoptDo_ends (E := fun _ _ => True)
    (fun _ hs => ⟨by simp [h, hs.opts], hs.readMem, hs.listed⟩) fun _ _ => trivial).yields

theorem checkDo_yields {P : Call → Prop} {b : Bool} : Yields P (checkDo b) fun _ => P :=
  (checkDo_ends (Q := fun _ => P) (E := fun _ _ => True) (fun _ h => h) fun _ _ => trivial).yields

/-- A call that obtains something, or fails its check. -/
theorem assignDo_yields {P Q : Call → Prop} {f : Call → Call} {p : Call → Bool}
    (h : ∀ s, P s → p (f s) = true → Q (f s)) : Yields P (assignDo f p) fun _ => Q := by
  intro s hs a t hm
  have hrun : assignDo f p s = checkDo (p (f s)) (f s) := rfl
  rw [hrun] at hm
  cases hp : p (f s) with
  | true => rw [hp] at hm; cases hm; exact h s hs hp
  | false => rw [hp] at hm; cases hm

theorem curlEasyInit_tracked :
    Yields (Tracked F m n) (assignDo (curlEasyInit env) (·.curl.isSome)) fun _ =>
      Tracked F m (n + 1) := by
  refine assignDo_yields fun s hs hok => ?_
  cases hinit : env.easyInit with
  | false => simp [curlEasyInit, hinit] at hok
  | true =>
    simp only [curlEasyInit, hinit, if_true]
    exact ⟨hs.opts, hs.readMem, hs.hdrList, by simp [Store.alloc, hs.obtained]⟩

theorem callocUrl_tracked :
    Yields (Tracked F m n) (assignDo (callocUrl env req) (·.url.isSome)) fun _ =>
      Tracked F m (n + 1) := by
  refine assignDo_yields fun s hs hok => ?_
  cases hcalloc : env.callocUrl with
  | false => simp [callocUrl, hcalloc] at hok
  | true =>
    simp only [callocUrl, hcalloc, if_true]
    exact ⟨hs.opts, hs.readMem, hs.hdrList, by simp [Store.alloc, hs.obtained]⟩

theorem snprintfUrl_tracked {s : Call} (hs : Tracked F m n s) :
    Tracked F m n (snprintfUrl req s) := by
  cases hu : s.url with
  | none => simpa [snprintfUrl, hu] using hs
  | some url =>
    simp only [snprintfUrl, hu]
    exact ⟨hs.opts, hs.readMem, hs.hdrList, hs.obtained⟩

theorem composeUrl_tracked :
    Yields (Tracked F m n) (composeUrl env req) fun _ => Tracked F m (n + 1) := by
  refine Yields.bind checkDo_yields fun _ => Yields.bind checkDo_yields fun _ =>
    Yields.bind callocUrl_tracked fun _ => ?_
  refine Yields.bind (Q := fun _ => Tracked F m (n + 1)) ?_ fun _ => setopt_other rfl
  exact Yields.update fun s hs => snprintfUrl_tracked hs

/-- What is to be read of a body. -/
def readMemOf : Option CStr → ReadMemCtx
  | none => ⟨none, 0⟩
  | some body => ⟨some body, body.length.toUInt64⟩

theorem readFrom_tracked {body : CStr} :
    Yields (Tracked F m n) (modify (readFrom body) : Request Unit) fun _ =>
      Tracked F (readMemOf (some body)) n :=
  Yields.update fun _ hs => ⟨hs.opts, rfl, hs.hdrList, hs.obtained⟩

theorem setoptSize_tracked (o : Int64 → CurlOpt) (ho : ∀ k, (o k).frames = true) :
    Yields (Tracked F m n) (do setoptDo env (o (← get).readMem.sizeLeft.toInt64) : Request Unit)
      fun _ => Tracked (o m.sizeLeft.toInt64 :: F) m n := by
  intro s hs a t hm
  have hrun : (do setoptDo env (o (← get).readMem.sizeLeft.toInt64) : Request Unit) s =
      setoptDo env (o s.readMem.sizeLeft.toInt64) s := rfl
  rw [hrun, hs.readMem] at hm
  exact setopt_frames (ho _) s hs a t hm

/-- The framing of a POST. -/
def postFrames (req : ReqCtx) : List CurlOpt :=
  postSizeOpts req.body req.headers ++ (postBodyOpts req.body).reverse

/-- The framing of a PUT. -/
def putFrames : Option CStr → List CurlOpt
  | none => []
  | some body => [.infilesizeLarge (bodySize (some body)).toInt64, .readdata, .readfunction]

theorem postBody_tracked (body : Option CStr) :
    Yields (Tracked [] ⟨none, 0⟩ n) (postBody env body) fun _ =>
      Tracked (postBodyOpts body).reverse (readMemOf body) n := by
  cases body with
  | none => exact Yields.done fun _ hs => hs
  | some body =>
      exact Yields.bind (setopt_frames rfl) fun _ => Yields.bind readFrom_tracked fun _ =>
        setopt_frames rfl

theorem sizeLeft_readMemOf (body : Option CStr) : (readMemOf body).sizeLeft = bodySize body := by
  cases body <;> rfl

theorem postSize_tracked (body : Option CStr) (headers : Option (List CStr)) :
    Yields (Tracked F (readMemOf body) n) (postSize env headers)
      fun _ => Tracked (postSizeOpts body headers ++ F) (readMemOf body) n := by
  unfold postSize postSizeOpts
  split_ifs
  · rw [← sizeLeft_readMemOf]
    exact setoptSize_tracked .postfieldsize fun _ => rfl
  · exact Yields.done fun _ hs => hs

theorem postOptions_tracked :
    Yields (Tracked [] ⟨none, 0⟩ n) (postOptions env req.body req.headers)
      fun _ => Tracked (postFrames req) (readMemOf req.body) n :=
  Yields.bind (setopt_other rfl) fun _ => Yields.bind (postBody_tracked req.body) fun _ =>
    postSize_tracked req.body req.headers

theorem putOptions_tracked (body : Option CStr) :
    Yields (Tracked [] ⟨none, 0⟩ n) (putOptions env body) fun _ =>
      Tracked (putFrames body) (readMemOf body) n := by
  refine Yields.bind (setopt_other rfl) fun _ => ?_
  cases body with
  | none => exact Yields.done fun _ hs => hs
  | some body =>
    refine Yields.bind (setopt_other rfl) fun _ => Yields.bind (setopt_frames rfl) fun _ => ?_
    exact Yields.bind readFrom_tracked fun _ => Yields.bind (setopt_frames rfl) fun _ =>
      setoptSize_tracked .infilesizeLarge fun _ => rfl

/-- The request uploads a body. -/
def Uploads (req : ReqCtx) : Prop :=
  req.method = libcurlWrapMethodPost ∨ req.method = libcurlWrapMethodPut

/-- The framing of an upload. -/
def uploadFrames (req : ReqCtx) : List CurlOpt :=
  if req.method = libcurlWrapMethodPost then postFrames req else putFrames req.body

theorem methodOptions_tracked (hup : Uploads req) :
    Yields (Tracked [] ⟨none, 0⟩ n) (methodOptions env req) fun _ =>
      Tracked (uploadFrames req) (readMemOf req.body) n := by
  unfold methodOptions uploadFrames
  rcases hup with hpost | hput
  · rw [if_pos hpost, if_pos hpost]
    exact postOptions_tracked
  · have hne : req.method ≠ libcurlWrapMethodPost := by rw [hput]; decide
    rw [if_neg hne, if_neg hne, if_pos hput]
    exact putOptions_tracked req.body

theorem setHeaders_framing {s : Call} (hs : Tracked F m 2 s) :
    Framing (headerOpts env req ++ F) m (slist env req) (setHeaders env req.headers s) := by
  have hnil : s.hdrList = ([] : List (ℕ × CStr)).map Prod.fst := hs.hdrList
  obtain ⟨hl, hlisted, hopts, hread⟩ :=
    appendHeaders_spec env (req.headers.getD []) (i := 0) hnil (by simp [Listed])
  rw [hs.obtained] at hl hlisted
  have hne : (appendHeaders env 0 (req.headers.getD []) s).hdrList ≠ [] ↔ slist env req ≠ [] := by
    rw [hl]
    exact List.map_eq_nil_iff.not
  simp only [setHeaders, headerOpts, hne]
  by_cases hlist : slist env req ≠ []
  · have hl' : (appendHeaders env 0 (req.headers.getD []) s).hdrList =
        (slist env req).map Prod.fst := hl
    rw [if_pos hlist, hl', curlEasySetopt]
    by_cases hset : env.setopt (.httpheader ((slist env req).map Prod.fst)) = true
    · rw [if_pos hset, if_pos ⟨hlist, hset⟩]
      exact ⟨by simp [List.filter_cons, CurlOpt.frames, hopts, hs.opts], hread.trans hs.readMem,
        hlisted⟩
    · rw [if_neg hset, if_neg fun h => hset h.2]
      exact ⟨by simp [hopts, hs.opts], hread.trans hs.readMem, hlisted⟩
  · rw [if_neg hlist, if_neg fun h => hlist h.1]
    exact ⟨by simp [hopts, hs.opts], hread.trans hs.readMem, hlisted⟩

theorem prepareBuffer_framing {w : Part} :
    Yields (Framing F m list) (prepareBuffer env w) fun _ => Framing F m list := by
  refine Yields.bind (Q := fun _ => Framing F m list) (assignDo_yields fun s hs hok => ?_)
    fun _ => ?_
  · cases hcalloc : env.calloc w with
    | false => simp [callocPart, hcalloc] at hok
    | true =>
      simp only [callocPart, hcalloc, if_true]
      exact ⟨hs.opts, hs.readMem, hs.listed.alloc_block rfl⟩
  · exact Yields.update fun s hs => ⟨hs.opts, hs.readMem, hs.listed⟩

theorem receiveOptions_framing :
    Yields (Framing F m list) (receiveOptions env) fun _ => Framing F m list :=
  Yields.bind (setopt_framing rfl) fun _ => Yields.bind prepareBuffer_framing fun _ =>
    Yields.bind (setopt_framing rfl) fun _ => Yields.bind (setopt_framing rfl) fun _ =>
    Yields.bind prepareBuffer_framing fun _ => setopt_framing rfl

theorem requestOptions_framing :
    Yields (Framing F m list) (requestOptions env req) fun _ => Framing F m list := by
  have hskip : Yields (Framing F m list) (pure () : Request Unit) fun _ => Framing F m list :=
    Yields.done fun _ hs => hs
  refine Yields.bind (Q := fun _ => Framing F m list) ?_ fun _ =>
    Yields.bind (Q := fun _ => Framing F m list) ?_ fun _ =>
    Yields.bind (setopt_framing rfl) fun _ => setopt_framing rfl
  · unfold verboseOption
    split_ifs
    · exact setopt_framing rfl
    · exact hskip
  · unfold userAgentOption
    split_ifs
    · exact setopt_framing rfl
    · exact hskip

/-- **What the handle of an upload says of the body.** -/
theorem prepared_framing (hup : Uploads req) (o : Outs) :
    Yields (fun s => s = .start o) (prepared env req) fun _ =>
      Framing (headerOpts env req ++ uploadFrames req) (readMemOf req.body) (slist env req) := by
  have hstart : ∀ s, s = Call.start o → Tracked [] ⟨none, 0⟩ 0 s := by
    rintro s rfl
    exact ⟨rfl, rfl, rfl, rfl⟩
  refine Yields.mono ?_ hstart fun _ _ h => h
  refine Yields.bind checkDo_yields fun _ => Yields.bind curlEasyInit_tracked fun _ =>
    Yields.bind composeUrl_tracked fun _ =>
    Yields.bind (methodOptions_tracked hup) fun _ => Yields.bind ?_ fun _ =>
    Yields.bind receiveOptions_framing fun _ => requestOptions_framing
  exact Yields.update fun s hs => setHeaders_framing hs

end Pieces

/-! ### When the framing is consistent -/

theorem findSome?_filter {α β : Type} {f : α → Option β} {p : α → Bool}
    (h : ∀ a, p a = false → f a = none) (l : List α) :
    (l.filter p).findSome? f = l.findSome? f := by
  induction l with
  | nil => rfl
  | cons a l ih =>
    cases hp : p a with
    | false => simp [hp, h a hp, ih]
    | true => simp [hp, List.findSome?_cons, ih]

section Framed

variable {env : Env} {req : ReqCtx} {F : List CurlOpt} {m : ReadMemCtx} {list : List (ℕ × CStr)}
    {s : Call}

theorem Framing.declared_eq (h : Framing F m list s) : s.declared = F.findSome? CurlOpt.size? := by
  rw [← h.opts, findSome?_filter]
  · rfl
  · intro opt ho
    cases opt <;> simp_all [CurlOpt.frames, CurlOpt.size?]

theorem Framing.ownRead_iff (h : Framing F m list s) :
    s.OwnRead ↔ .readfunction ∈ F ∧ .readdata ∈ F := by
  simp [← h.opts, Call.OwnRead, CurlOpt.frames]

theorem Framing.sentHeaders_eq (h : Framing F m list s) :
    s.sentHeaders = ((F.findSome? CurlOpt.list?).getD []).filterMap fun n =>
      s.store.cell ⟨.slist, n⟩ := by
  rw [← h.opts, findSome?_filter]
  · rfl
  · intro opt ho
    cases opt <;> simp_all [CurlOpt.frames, CurlOpt.list?]

/-- The texts of a list. -/
theorem Listed.texts (h : Listed list s) :
    (list.map Prod.fst).filterMap (fun n => s.store.cell ⟨.slist, n⟩) = list.map Prod.snd := by
  rw [List.filterMap_map]
  induction list with
  | nil => rfl
  | cons x list ih =>
    have hx := (h x List.mem_cons_self).2
    have hrest := ih fun y hy => h y (List.mem_cons_of_mem x hy)
    simp [hx, ← hrest]

end Framed

/-- The headers that are sent of a request. -/
def sentOf (env : Env) (req : ReqCtx) : List CStr :=
  if slist env req ≠ [] ∧ env.setopt (.httpheader ((slist env req).map Prod.fst)) = true then
    (slist env req).map Prod.snd else []

/-- From index `i + k` on, every header of a list that begins at index `i` is appended. -/
def AppendsFrom (env : Env) (i k len : ℕ) : Prop :=
  ∀ j, k ≤ j → j < len → i + j < hdrsMaxNum → env.slistAppend (i + j) = true

theorem appendsFrom_succ {env : Env} {i k len : ℕ} :
    AppendsFrom env i (k + 1) (len + 1) ↔ AppendsFrom env (i + 1) k len := by
  constructor
  · intro h j hk hj hi
    have := h (j + 1) (by omega) (by omega) (by omega)
    rwa [show i + (j + 1) = i + 1 + j by omega] at this
  · intro h j hk hj hi
    obtain ⟨l, rfl⟩ : ∃ l, j = l + 1 := ⟨j - 1, by omega⟩
    have := h l (by omega) (by omega) (by omega)
    rwa [show i + 1 + l = i + (l + 1) by omega] at this

theorem appendsFrom_zero {env : Env} {i len : ℕ} (hi : i < hdrsMaxNum) :
    AppendsFrom env i 0 (len + 1) ↔ env.slistAppend i = true ∧ AppendsFrom env (i + 1) 0 len := by
  rw [← appendsFrom_succ]
  constructor
  · intro h
    exact ⟨h 0 (by omega) (by omega) (by omega), fun j _ => h j (by omega)⟩
  · rintro ⟨h0, h⟩ j - hj hij
    cases j with
    | zero => exact h0
    | succ j => exact h (j + 1) (by omega) hj hij

/-- A header stays in the list if it and all that come after it are appended. -/
theorem mem_slistFrom {env : Env} {hdr : CStr} (hdrs : List CStr) (i n : ℕ)
    (list : List (ℕ × CStr)) :
    hdr ∈ (slistFrom env i hdrs n list).map Prod.snd ↔
      (hdr ∈ list.map Prod.snd ∧ AppendsFrom env i 0 hdrs.length) ∨
        ∃ k, hdrs[k]? = some hdr ∧ i + k < hdrsMaxNum ∧ AppendsFrom env i k hdrs.length := by
  induction hdrs generalizing i n list with
  | nil => simp [slistFrom, AppendsFrom]
  | cons h hdrs ih =>
    -- the headers after the first one, counted from it
    have hlater : (∃ k, (h :: hdrs)[k]? = some hdr ∧ i + k < hdrsMaxNum ∧
          AppendsFrom env i k (hdrs.length + 1)) ↔
        (h = hdr ∧ i < hdrsMaxNum ∧ AppendsFrom env i 0 (hdrs.length + 1)) ∨
          ∃ k, hdrs[k]? = some hdr ∧ i + 1 + k < hdrsMaxNum ∧
            AppendsFrom env (i + 1) k hdrs.length := by
      constructor
      · rintro ⟨k, hk, hlt, happ⟩
        cases k with
        | zero => exact .inl ⟨by simpa using hk, hlt, happ⟩
        | succ k => exact .inr ⟨k, by simpa using hk, by omega, appendsFrom_succ.mp happ⟩
      · rintro (⟨rfl, hlt, happ⟩ | ⟨k, hk, hlt, happ⟩)
        · exact ⟨0, rfl, hlt, happ⟩
        · exact ⟨k + 1, by simpa using hk, by omega, appendsFrom_succ.mpr happ⟩
    rw [List.length_cons, hlater, slistFrom]
    split_ifs with hi hok
    · rw [ih, appendsFrom_zero hi, List.map_append, List.mem_append]
      simp only [hok, hi, List.map_cons, List.map_nil, List.mem_singleton, true_and,
        eq_comm (a := hdr)]
      rw [or_and_right, or_assoc]
    · rw [ih, appendsFrom_zero hi]
      simp [hok]
    · have hvac : AppendsFrom env i 0 (hdrs.length + 1) := fun j _ _ hij => absurd hij (by omega)
      simp only [hvac, hi, and_true, and_false, false_or]
      refine (or_iff_left ?_).symm
      rintro ⟨k, -, hlt, -⟩
      omega

/-- The header at an index gets to libcurl: it is appended, and so are those after it, and the list
is accepted. -/
structure Attached (env : Env) (req : ReqCtx) (i : ℕ) : Prop where
  appended : ∀ j, i ≤ j → j < (req.headers.getD []).length → j < hdrsMaxNum →
    env.slistAppend j = true
  accepted : env.setopt (.httpheader ((slist env req).map Prod.fst)) = true

theorem mem_slist {env : Env} {req : ReqCtx} {hdr : CStr} : hdr ∈ (slist env req).map Prod.snd ↔
    ∃ k, (req.headers.getD [])[k]? = some hdr ∧ k < hdrsMaxNum ∧
      ∀ j, k ≤ j → j < (req.headers.getD []).length → j < hdrsMaxNum →
      env.slistAppend j = true := by
  rw [slist, mem_slistFrom]
  simp [AppendsFrom]

/-- The list is sent if it is accepted. -/
theorem sentOf_eq (env : Env) (req : ReqCtx) :
    sentOf env req = if env.setopt (.httpheader ((slist env req).map Prod.fst)) = true then
      (slist env req).map Prod.snd else [] := by
  unfold sentOf
  by_cases hl : slist env req = [] <;> simp [hl]

/-- A header with a property is sent exactly if one with it gets to libcurl. -/
theorem sent_iff {env : Env} {req : ReqCtx} {P : CStr → Prop} :
    (∃ hdr ∈ sentOf env req, P hdr) ↔ ∃ i, HeaderAt req.headers P i ∧ Attached env req i := by
  rw [sentOf_eq]
  constructor
  · rintro ⟨hdr, hs, hP⟩
    split_ifs at hs with hacc
    · obtain ⟨k, hk, hlt, happ⟩ := mem_slist.mp hs
      exact ⟨k, ⟨hlt, hdr, hk, hP⟩, happ, hacc⟩
    · simp at hs
  · rintro ⟨k, ⟨hlt, hdr, hk, hP⟩, happ, hacc⟩
    rw [if_pos hacc]
    exact ⟨hdr, mem_slist.mpr ⟨k, hk, hlt, happ⟩, hP⟩

/-- `find_header` accepts a header as that for chunks. -/
def AsksForChunks (req : ReqCtx) : Prop :=
  ∃ i, HeaderAt req.headers
    (fun hdr => headerMatches hdr (ascii "Transfer-Encoding") (some (ascii "chunked")) = true) i

theorem asksForChunks_iff (req : ReqCtx) :
    AsksForChunks req ↔
      ¬ findHeader req.headers (ascii "Transfer-Encoding") (some (ascii "chunked")) < 0 := by
  rcases findHeader_isFirst req.headers (ascii "Transfer-Encoding") (some (ascii "chunked")) with
    ⟨i, hi, -, hr⟩ | ⟨hnone, hr⟩
  · exact iff_of_true ⟨i, hi⟩ (by omega)
  · refine iff_of_false ?_ (by omega)
    rintro ⟨i, hi⟩
    exact hnone i hi

/-- When the framing is consistent. -/
def FramesWell (env : Env) (req : ReqCtx) : Prop :=
  if req.method = libcurlWrapMethodPost then
    ¬ AsksForChunks req ∨
      (req.body ≠ none ∧ ∃ i, HeaderAt req.headers ChunkedHeader i ∧ Attached env req i)
  else req.body ≠ none

/-- The size that an upload declares. -/
theorem declared_upload (env : Env) (req : ReqCtx) :
    (headerOpts env req ++ uploadFrames req).findSome? CurlOpt.size? =
      if req.method = libcurlWrapMethodPost then
        if findHeader req.headers (ascii "Transfer-Encoding") (some (ascii "chunked")) < 0 then
          some (bodySize req.body).toInt64 else none
      else req.body.map fun body => (bodySize (some body)).toInt64 := by
  have hhdr : (headerOpts env req).findSome? CurlOpt.size? = none := by
    unfold headerOpts
    split_ifs <;> rfl
  rw [List.findSome?_append, hhdr, Option.none_or]
  unfold uploadFrames postFrames postSizeOpts
  split_ifs with hpost hfind
  · rfl
  · cases req.body <;> rfl
  · cases req.body <;> rfl

/-- The callback is used exactly when there is a body. -/
theorem ownRead_upload (env : Env) (req : ReqCtx) :
    CurlOpt.readfunction ∈ headerOpts env req ++ uploadFrames req ∧
      CurlOpt.readdata ∈ headerOpts env req ++ uploadFrames req ↔ req.body ≠ none := by
  have hhdr : CurlOpt.readfunction ∉ headerOpts env req ∧
      CurlOpt.readdata ∉ headerOpts env req := by
    unfold headerOpts
    split_ifs <;> simp
  simp only [List.mem_append, hhdr.1, hhdr.2, false_or]
  unfold uploadFrames postFrames postSizeOpts
  cases req.body with
  | none => split_ifs <;> simp [postBodyOpts, putFrames]
  | some body => split_ifs <;> simp [postBodyOpts, putFrames]

theorem list_upload (env : Env) (req : ReqCtx) :
    (headerOpts env req ++ uploadFrames req).findSome? CurlOpt.list? =
      (headerOpts env req).findSome? CurlOpt.list? := by
  have hup : (uploadFrames req).findSome? CurlOpt.list? = none := by
    unfold uploadFrames postFrames postSizeOpts
    cases req.body with
    | none => split_ifs <;> rfl
    | some body => split_ifs <;> rfl
  rw [List.findSome?_append, hup, Option.or_none]

/-- The size of a body as libcurl is told it. -/
theorem toInt_bodySize {body : CStr} (h : body.length < 2 ^ 63) :
    (bodySize (some body)).toInt64.toInt = body.length := by
  show (UInt64.ofNat body.length).toInt64.toInt = body.length
  rw [UInt64.toInt64_ofNat', Int64.toInt_ofNat_of_lt h]

theorem unread_readMemOf {body : CStr} (h : body.length < 2 ^ 64) :
    Unread (readMemOf (some body)) body :=
  ⟨rfl, UInt64.toNat_ofNat_of_lt' h⟩

/-- The size declared is that of the body, nothing when there is none. -/
theorem declared_ok {env : Env} {req : ReqCtx} {s : Call}
    (h : Framing (headerOpts env req ++ uploadFrames req) (readMemOf req.body) (slist env req) s)
    (hbody : ∀ body, req.body = some body → body.length < 2 ^ 63) {n : Int64}
    (hn : n = (bodySize req.body).toInt64) :
    (s.OwnRead → ∀ bs, Transferred s.readMem bs → n.toInt = bs.length) ∧
      (¬ s.OwnRead → n.toInt = 0) := by
  have hown := h.ownRead_iff.trans (ownRead_upload env req)
  have hread := h.readMem
  cases hb : req.body with
  | none =>
    rw [hb] at hn hown
    refine ⟨fun ho => absurd rfl (hown.mp ho), fun _ => ?_⟩
    rw [hn]
    rfl
  | some body =>
    rw [hb] at hn hown hread
    refine ⟨fun _ bs hbs => ?_, fun ho => absurd (hown.mpr (by simp)) ho⟩
    have hlen : body.length < 2 ^ 64 := (hbody body hb).trans (by decide)
    rw [hread, transferred_iff (unread_readMemOf hlen)] at hbs
    rw [hn, hbs, toInt_bodySize (hbody body hb)]

theorem Framing.sentHeaders_upload {env : Env} {req : ReqCtx} {m : ReadMemCtx} {s : Call}
    (h : Framing (headerOpts env req ++ uploadFrames req) m (slist env req) s) :
    s.sentHeaders = sentOf env req := by
  rw [h.sentHeaders_eq, list_upload]
  unfold sentOf headerOpts
  split_ifs
  · exact h.listed.texts
  · rfl

theorem framed_of_some {s : Call} {n : Int64} (hn : s.declared = some n)
    (h : (s.OwnRead → ∀ bs, Transferred s.readMem bs → n.toInt = bs.length) ∧
      (¬ s.OwnRead → n.toInt = 0)) : Framed s := by
  constructor
  · intro k hk
    obtain rfl : n = k := by simpa [hn] using hk
    exact h
  · intro hnone
    simp [hn] at hnone

theorem framed_iff_of_none {s : Call} (hn : s.declared = none) :
    Framed s ↔ s.OwnRead ∧ ∃ hdr ∈ s.sentHeaders, ChunkedHeader hdr := by
  constructor
  · exact fun h => h.undeclared hn
  · intro h
    exact ⟨fun k hk => by simp [hn] at hk, fun _ => h⟩

/-- **When the framing of an upload is consistent**: a PUT must have a body; a POST must ask for no
chunks, or have a body and a header that really says so and gets to libcurl. -/
theorem framed_iff {env : Env} {req : ReqCtx} {o : Outs} {s : Call} (hup : Uploads req)
    (hbody : ∀ body, req.body = some body → body.length < 2 ^ 63)
    (h : prepared env req (.start o) = .ok () s) :
    Framed s ↔ FramesWell env req := by
  have hf := prepared_framing hup o _ rfl _ _ h
  have hdecl := hf.declared_eq.trans (declared_upload env req)
  have hown := hf.ownRead_iff.trans (ownRead_upload env req)
  unfold FramesWell
  by_cases hpost : req.method = libcurlWrapMethodPost
  · rw [if_pos hpost] at hdecl ⊢
    rw [asksForChunks_iff]
    by_cases hfind : findHeader req.headers (ascii "Transfer-Encoding") (some (ascii "chunked")) < 0
    · rw [if_pos hfind] at hdecl
      exact iff_of_true (framed_of_some hdecl (declared_ok hf hbody rfl)) (.inl (not_not.mpr hfind))
    · rw [if_neg hfind] at hdecl
      rw [framed_iff_of_none hdecl, hown, hf.sentHeaders_upload, sent_iff]
      simp [hfind]
  · rw [if_neg hpost] at hdecl ⊢
    cases hb : req.body with
    | none =>
      rw [hb] at hdecl hown
      refine iff_of_false (fun hframed => ?_) (fun hne => hne rfl)
      exact hown.mp (hframed.undeclared hdecl).1 rfl
    | some body =>
      rw [hb] at hdecl
      exact iff_of_true (framed_of_some hdecl (declared_ok hf hbody (by rw [hb]))) (by simp)

/-- Everything succeeds, and nothing arrives. -/
def allSucceeds : Env :=
  { noResponseCode with
    events := [], responseCode := some 200, fits := fun w => by cases w <;> decide }

/-- A request to store what is not there. -/
def putRequest : ReqCtx := { getRequest with method := libcurlWrapMethodPut }

/-- A POST of a body in chunks. -/
def postRequest : ReqCtx :=
  { getRequest with
    method := libcurlWrapMethodPost
    headers := some [ascii "Transfer-Encoding: chunked"]
    body := some (ascii "name=value") }

/-- The condition at a POST in chunks. -/
theorem framed_iff_postRequest :
    ∃ s, prepared allSucceeds postRequest (.start (callerOuts 0 404 none none)) = .ok () s ∧
    (Framed s ↔ FramesWell allSucceeds postRequest) :=
  ⟨_, rfl, framed_iff (.inl rfl) (fun body h => by cases h; decide) rfl⟩

/-- A PUT without a body leaves libcurl to read the standard input, to no known end. -/
theorem put_reads_stdin : ¬ ∀ (env : Env) (req : ReqCtx) (o : Outs) (s : Call), Uploads req →
    (∀ body, req.body = some body → body.length < 2 ^ 63) → prepared env req (.start o) = .ok () s →
    Framed s := by
  intro h
  obtain ⟨s, hs, hdecl, hread⟩ : ∃ s,
    prepared allSucceeds putRequest (.start (callerOuts 0 404 none none)) = .ok () s ∧
      s.declared = none ∧ .readfunction ∉ s.opts := ⟨_, rfl, by decide, by decide⟩
  have hframed := h _ _ _ s (.inr rfl) (by rintro _ ⟨⟩) hs
  exact hread (hframed.undeclared hdecl).1.1

end NginxTools.LibcurlWrap
