import Mathlib.Tactic.Common
import NginxTools.Library.Fallible
import NginxTools.LibcurlWrap.Receive

/-!
# One HTTP request

`libcurl_wrap_cli_request` prepares a handle, has it perform the request, and hands the caller
the response. Every call is checked, and a failure jumps to one label where everything that is
still the function's own is released:

    int idx, ret_code, end_code= -1, flag_attach_query= 0;
    ...
    CHECK_DO(curl!= NULL, goto end);
    ...
    end:
        if(curl!= NULL) curl_easy_cleanup(curl);
        if(url!= NULL) free(url);
        if(hdr_list!= NULL) curl_slist_free_all(hdr_list);
        if(curl_write_mem_ctx.data!= NULL) free(curl_write_mem_ctx.data);
        if(curl_write_mem_ctx_hdr.data!= NULL) free(curl_write_mem_ctx_hdr.data);
        return end_code;

## The model

`Request` is a program on a `Call` that may stop with an `end_code`; the definitions follow
the paragraphs of the function. `Env` holds what the world answers: whether each call
succeeds, what arrives, and what libcurl reports at the end.
-/

namespace NginxTools.LibcurlWrap

open Library

/-- `URL_MAX_SIZE`. -/
def urlMaxSize : ℕ := 1024 * 16

/-- `HDRS_MAX_NUM`. -/
def hdrsMaxNum : ℕ := 40

/-- `HDRS_MAX_SIZE`. -/
def hdrsMaxSize : ℕ := 512

/-- `LIBCURL_WRAP_METHOD_GET`. -/
def libcurlWrapMethodGet : UInt32 := 0

/-- `LIBCURL_WRAP_METHOD_POST`. -/
def libcurlWrapMethodPost : UInt32 := 1

/-- `LIBCURL_WRAP_METHOD_PUT`. -/
def libcurlWrapMethodPut : UInt32 := 2

/-- `LIBCURL_WRAP_METHOD_MAX`. -/
def libcurlWrapMethodMax : UInt32 := 3

/-- `libcurl_wrap_req_ctx_t`; `none` is `NULL`, and `headers` the array up to its `NULL`. -/
structure ReqCtx where
  method : UInt32
  headers : Option (List CStr)
  host : Option CStr
  port : Option CStr
  location : Option CStr
  qstring : Option CStr
  body : Option CStr
  tout : Int64
  flagLibcurlVerbose : Int32

/-- What the world answers during a request. -/
structure Env where
  /-- Whether `curl_easy_init` succeeds. -/
  easyInit : Bool
  /-- Whether `curl_easy_setopt` succeeds for an option. -/
  setopt : CurlOpt → Bool
  /-- Whether `calloc` succeeds for the URL. -/
  callocUrl : Bool
  /-- Whether `calloc` succeeds for the buffer of a part. -/
  calloc : Part → Bool
  /-- Whether `curl_slist_append` succeeds for the header of an index. -/
  slistAppend : ℕ → Bool
  /-- What happens during the transfer. -/
  events : List Event
  /-- How the transfer ends, if it is not cut short. -/
  performCode : ℕ
  /-- What `curl_easy_getinfo` reports, `none` when it fails. -/
  connectTime : Option Int64
  starttransferTime : Option Int64
  totalTime : Option Int64
  contentLengthDownload : Option Int64
  responseCode : Option Int64
  /-- There is room in a `size_t` for each part and its NUL. -/
  fits : ∀ w, (received w events).length + 1 < 2 ^ 64

/-! ### Headers -/

/-- The bytes of a string of ASCII characters. -/
def ascii (s : String) : CStr := s.toList.map fun c => c.toNat.toUInt8

/-- `tolower`, in the locale `C`. -/
def tolower (b : UInt8) : UInt8 := if 65 ≤ b ∧ b ≤ 90 then b + 32 else b

/-- `strncasecmp`: the difference at the first place, of at most `n`, at which the strings
differ. -/
def strncasecmp (a b : CStr) : ℕ → ℤ
  | 0 => 0
  | n + 1 =>
    let x := tolower (a.headD 0)
    let y := tolower (b.headD 0)
    if x ≠ y then (x.toNat : ℤ) - y.toNat
    else if x = 0 then 0
    else strncasecmp a.tail b.tail n

/-- A header is the one looked for: `p` is the rest of it from its first colon on. -/
def headerMatches (hdr hdrNeedle : CStr) (valNeedle : Option CStr) : Bool :=
  let hdrTagSize := hdr.idxOf 58
  if hdrTagSize = hdr.length ∨ hdrTagSize = 0 then false
  else if hdrTagSize > hdrsMaxSize then false
  else if strncasecmp hdrNeedle hdr hdrTagSize = 0 then
    match valNeedle with
    | none => true
    | some val => decide (val <:+: hdr.drop hdrTagSize)
  else false

/-- The loop of `find_header` from index `i` on. -/
def findHeaderFrom (hdrNeedle : CStr) (valNeedle : Option CStr) : ℕ → List CStr → ℤ
  | _, [] => -1
  | i, hdr :: hdrs =>
    if i < hdrsMaxNum then
      if headerMatches hdr hdrNeedle valNeedle then i
        else findHeaderFrom hdrNeedle valNeedle (i + 1) hdrs
    else -1

/-- `find_header`. -/
def findHeader (headers : Option (List CStr)) (hdrNeedle : CStr) (valNeedle : Option CStr) : ℤ :=
  findHeaderFrom hdrNeedle valNeedle 0 (headers.getD [])

/-- `curl_slist_append` to `hdr_list`: a failure answers `NULL`. -/
def curlSlistAppend (ok : Bool) (str : CStr) (s : Call) : Call :=
  if ok then
    { s with
      store := s.store.alloc .slist str
      hdrList := s.hdrList ++ [s.store.obtained.length] }
  else { s with hdrList := [], leaked := s.leaked ++ s.hdrList }

/-- The loop of `set_headers` from index `i` on. -/
def appendHeaders (env : Env) : ℕ → List CStr → Call → Call
  | _, [], s => s
  | i, hdr :: hdrs, s =>
    if i < hdrsMaxNum
      then appendHeaders env (i + 1) hdrs (curlSlistAppend (env.slistAppend i) hdr s) else s

/-- `curl_easy_setopt`. -/
def curlEasySetopt (env : Env) (o : CurlOpt) (s : Call) : Call :=
  if env.setopt o then { s with opts := o :: s.opts } else s

/-- `set_headers`: a failure to set the option is only logged. -/
def setHeaders (env : Env) (headers : Option (List CStr)) (s : Call) : Call :=
  let s := appendHeaders env 0 (headers.getD []) s
  if s.hdrList ≠ [] then curlEasySetopt env (.httpheader s.hdrList) s else s

/-! ### The request, paragraph by paragraph -/

/-- A program on a request, which may stop with an `end_code`. -/
abbrev Request := EStateM ℤ Call

/-- `CHECK_DO(b, goto end)`; also `CHECK_DO(b, return -1)` where the caller then goes to the end. -/
def checkDo (b : Bool) : Request Unit := if b then pure () else throw (-1)

/-- `x= f(); CHECK_DO(x!= NULL, goto end)`: `f` sets the variable, and `p` looks at it. -/
def assignDo (f : Call → Call) (p : Call → Bool) : Request Unit := do
  modify f
  checkDo (p (← get))

/-- `CHECK_DO(curl_easy_setopt(curl, ..)== CURLE_OK, goto end)`. -/
def setoptDo (env : Env) (o : CurlOpt) : Request Unit := do
  modify (curlEasySetopt env o)
  checkDo (env.setopt o)

/-- `curl= curl_easy_init()`. -/
def curlEasyInit (env : Env) (s : Call) : Call :=
  if env.easyInit then
    { s with
      store := s.store.alloc .curl []
      curl := some s.store.obtained.length }
  else { s with curl := none }

/-- `flag_attach_query`. -/
def flagAttachQuery (req : ReqCtx) : Bool :=
  req.method = libcurlWrapMethodGet ∧ req.qstring.isSome ∧ (req.qstring.getD []).length > 0

/-- `url_size`, with the NUL. -/
def urlSize (req : ReqCtx) : ℕ :=
  (req.host.getD []).length + 1 + (req.port.getD []).length + 1 + (req.location.getD []).length +
    if flagAttachQuery req then 1 + (req.qstring.getD []).length else 0

/-- What `snprintf` prints, `"%s:%s%s%s%s"`. -/
def urlText (req : ReqCtx) : CStr :=
  req.host.getD [] ++ [58] ++ req.port.getD [] ++ req.location.getD [] ++
    if flagAttachQuery req then [63] ++ req.qstring.getD [] else []

/-- `url= (char*)calloc(1, url_size)`. -/
def callocUrl (env : Env) (req : ReqCtx) (s : Call) : Call :=
  if env.callocUrl then
    { s with
      store := s.store.alloc .block (List.replicate (urlSize req) 0)
      url := some s.store.obtained.length }
  else { s with url := none }

/-- `snprintf(url, url_size, ..)`. -/
def snprintfUrl (req : ReqCtx) (s : Call) : Call :=
  match s.url with
  | none => s
  | some url =>
    { s with
      store := s.store.write (blk url)
        (memcpyAt ((s.store.cell (blk url)).getD []) 0
          ((urlText req).take (urlSize req - 1) ++ [0])) }

/-- Allocate and compose the URL, and set it. -/
def composeUrl (env : Env) (req : ReqCtx) : Request Unit := do
  checkDo (req.host.isSome && req.port.isSome)
  checkDo (0 < urlSize req && urlSize req < urlMaxSize)
  assignDo (callocUrl env req) (·.url.isSome)
  modify (snprintfUrl req)
  setoptDo env (.url ((urlText req).take (urlSize req - 1)))

/-- The context of the read callback is set to a body. -/
def readFrom (body : CStr) (s : Call) : Call :=
  { s with readMem := ⟨some body, body.length.toUInt64⟩ }

/-- Configure body sending related function. -/
def postBody (env : Env) : Option CStr → Request Unit
  | none => pure ()
  | some body => do
    setoptDo env .readfunction
    modify (readFrom body)
    setoptDo env .readdata

/-- If transfer is not chunked, set the expected POST size. -/
def postSize (env : Env) (headers : Option (List CStr)) : Request Unit :=
  if findHeader headers (ascii "Transfer-Encoding") (some (ascii "chunked")) < 0 then do
    setoptDo env (.postfieldsize (← get).readMem.sizeLeft.toInt64)
  else pure ()

/-- `libcurl_wrap_cli_request_post_options`. -/
def postOptions (env : Env) (body : Option CStr) (headers : Option (List CStr)) : Request Unit := do
  setoptDo env .post
  postBody env body
  postSize env headers

/-- Configure uploading, with the body's size. -/
def putBody (env : Env) : Option CStr → Request Unit
  | none => pure ()
  | some body => do
    setoptDo env .upload
    setoptDo env .readfunction
    modify (readFrom body)
    setoptDo env .readdata
    setoptDo env (.infilesizeLarge (← get).readMem.sizeLeft.toInt64)

/-- `libcurl_wrap_cli_request_put_options`. -/
def putOptions (env : Env) (body : Option CStr) : Request Unit := do
  setoptDo env .put
  putBody env body

/-- Treat POST or PUT options if applicable. -/
def methodOptions (env : Env) (req : ReqCtx) : Request Unit :=
  if req.method = libcurlWrapMethodPost then postOptions env req.body req.headers
  else if req.method = libcurlWrapMethodPut then putOptions env req.body
  else pure ()

/-- `curl_write_mem_ctx.data= (char*)calloc(1, 1)`, and the same for the headers. -/
def callocPart (env : Env) (w : Part) (s : Call) : Call :=
  if env.calloc w then
    { s with
      store := s.store.alloc .block [0]
      mem := Function.update s.mem w ⟨some s.store.obtained.length, (s.mem w).size⟩ }
  else { s with mem := Function.update s.mem w ⟨none, (s.mem w).size⟩ }

/-- The buffer for a part, with no data at this point yet. -/
def prepareBuffer (env : Env) (w : Part) : Request Unit := do
  assignDo (callocPart env w) fun s => (s.mem w).data.isSome
  modify fun s => { s with mem := Function.update s.mem w ⟨(s.mem w).data, 0⟩ }

/-- Send all data, and all header-data, to the write callback. -/
def receiveOptions (env : Env) : Request Unit := do
  setoptDo env .writefunction
  prepareBuffer env .body
  setoptDo env (.writedata .body)
  setoptDo env .headerfunction
  prepareBuffer env .header
  setoptDo env (.headerdata .header)

/-- `idx`, the user's `User-Agent` header. -/
def userAgentIdx (req : ReqCtx) : ℤ := findHeader req.headers (ascii "User-Agent") none

/-- `libcurl_wrap_req_ctx->headers[idx]`. -/
def userAgent (req : ReqCtx) : CStr := ((req.headers.getD [])[(userAgentIdx req).toNat]?).getD []

/-- Get verbose debug output if applicable. -/
def verboseOption (env : Env) (req : ReqCtx) : Request Unit :=
  if req.flagLibcurlVerbose ≠ 0 then setoptDo env .verbose else pure ()

/-- Provide the user agent. -/
def userAgentOption (env : Env) (req : ReqCtx) : Request Unit :=
  if 0 ≤ userAgentIdx req then setoptDo env (.useragent (userAgent req)) else pure ()

/-- Debug output, user agent and time-out. -/
def requestOptions (env : Env) (req : ReqCtx) : Request Unit := do
  verboseOption env req
  userAgentOption env req
  setoptDo env (.timeout req.tout)
  setoptDo env .nosignal

/-- Perform the request: here the `end_code` is that of libcurl. -/
def performRequest (env : Env) : Request Unit := do
  let curlCode ← modifyGet (curlEasyPerform env.performCode env.events)
  if curlCode ≠ 0 then throw (curlCode : ℤ) else pure ()

/-- The function up to and with `curl_easy_perform`. -/
def performed (env : Env) (req : ReqCtx) : Request Unit := do
  checkDo (req.method < libcurlWrapMethodMax)
  assignDo (curlEasyInit env) (·.curl.isSome)
  composeUrl env req
  methodOptions env req
  modify (setHeaders env req.headers)
  receiveOptions env
  requestOptions env req
  performRequest env

/-- The statistics that libcurl reports; a failure to is only logged. -/
def reportedStats (env : Env) : StatsCtx where
  timeConnectUsecs := (env.connectTime.getD 0).toUInt64
  timeFirstByteUsecs := (env.starttransferTime.getD 0).toUInt64
  timeTotalUsecs := (env.totalTime.getD 0).toUInt64
  downloadSizeBytes := env.contentLengthDownload.getD 0

/-- Populate the statistics context structure if it was required. -/
def populateStats (env : Env) (s : Call) : Call :=
  { s with out := { s.out with statsCtx := s.out.statsCtx.map fun _ => reportedStats env } }

/-- The pointer of the caller's in which a part is returned, if it is asked for. -/
def Outs.ref (o : Outs) : Part → Option Ptr
  | .body => some o.responseStr
  | .header => o.headersOutStr

/-- The pointer is set. -/
def Outs.setRef (o : Outs) (p : Ptr) : Part → Outs
  | .body => { o with responseStr := p }
  | .header => { o with headersOutStr := some p }

/-- Prepare the response data, or the output headers, if applicable. -/
def publish (w : Part) (s : Call) : Call :=
  if (s.out.ref w).isSome ∧ (s.mem w).size > 0 then
    { s with
      out := s.out.setRef ((s.mem w).data.elim (.caller 0) .block) w
      mem := Function.update s.mem w ⟨none, 0⟩ }
  else s

/-- Prepare the response code. -/
def responseCode (env : Env) : Request Unit :=
  match env.responseCode with
  | none => throw (-1)
  | some httpRetCode => modify fun s => { s with out := { s.out with httpRetCode } }

/-- The function from the first check that goes to its end on. -/
def cliRequest (env : Env) (req : ReqCtx) : Request Unit := do
  performed env req
  modify (populateStats env)
  modify (publish .body)
  modify (publish .header)
  responseCode env

/-- The label `end`: what the variables own is released. -/
def atEnd (s : Call) : Call :=
  { s with
    store := s.store.releaseAll s.locals
    curl := none
    url := none
    hdrList := []
    mem := fun w => ⟨none, (s.mem w).size⟩ }

/-- The variables at the start, the caller's references leading to `o`. -/
def Call.start (o : Outs) : Call where
  store := .empty
  opts := []
  curl := none
  url := none
  hdrList := []
  readMem := ⟨none, 0⟩
  mem _ := ⟨none, 0⟩
  out := o
  leaked := []

/-- What the caller's references lead to: addresses of its own. -/
def callerOuts (responseStr : UInt64) (httpRetCode : Int64) (headersOutStr : Option UInt64)
    (statsCtx : Option StatsCtx) : Outs :=
  ⟨.caller responseStr, httpRetCode, headersOutStr.map .caller, statsCtx⟩

/-- `libcurl_wrap_cli_request`: what it returns, and what it leaves. The three references that are
checked are `none` when they are `NULL`. -/
def libcurlWrapCliRequest (env : Env) (req : Option ReqCtx) (responseStr : Option UInt64)
    (httpRetCode : Option Int64) (headersOutStr : Option UInt64) (statsCtx : Option StatsCtx) :
    ℤ × Option Call :=
  match req, responseStr, httpRetCode with
  | some req, some responseStr, some _ =>
    match cliRequest env req (.start (callerOuts responseStr 404 headersOutStr statsCtx)) with
    | .ok _ s => (0, some (atEnd s))
    | .error endCode s => (endCode, some (atEnd s))
  | _, _, _ => (-1, none)

end NginxTools.LibcurlWrap
