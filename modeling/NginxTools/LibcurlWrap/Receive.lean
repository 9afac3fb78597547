import Mathlib.Algebra.Order.Ring.Nat
import Mathlib.Data.List.Infix
import NginxTools.Library.Store
import NginxTools.Library.TransitionSystem

/-!
# Receiving a response

`libcurl_wrap_cli_request` has libcurl hand the header lines and the body of a response
to one function, `curl_write_body_callback`, that appends what it is given to one of two
buffers, reallocating it:

    p_data= (char*)realloc(curl_write_mem_ctx->data, curl_write_mem_ctx->size+ realsize+ 1);
    CHECK_DO(p_data!= NULL, return 0);
    curl_write_mem_ctx->data= p_data;
    memcpy(&curl_write_mem_ctx->data[curl_write_mem_ctx->size], contents, realsize);
    curl_write_mem_ctx->size+= realsize;
    curl_write_mem_ctx->data[curl_write_mem_ctx->size]= 0; //'NULL' character
    return realsize;

## The model

`Call` is what the request works on: memory, the options set on the handle, its own
variables and what the caller's pointers lead to. Memory is a `Store`, in which a
reallocation is a new block. A `Delivery` is one call of the callback by libcurl; whether
memory is left for it is part of it. The callback is given the buffer that the options of the
handle name. `curlEasyPerform` makes the calls of a list, and stops at one that took less
than it was given.

## What is proved

`Holds s w bs`: the buffer for `w` is an allocation that begins with `bs` and a NUL, and its
size is that of `bs`. One call of the callback either takes the whole of what it is given, appending
it, or takes nothing and changes nothing (`curlWriteBodyCallback_spec`); in a transfer each
buffer holds what has been taken for it (`holds_taken`).
-/

namespace NginxTools.LibcurlWrap

open Library

/-! ### What a request works on -/

/-- A string of C, up to its NUL. -/
abbrev CStr := List UInt8

/-- What is obtained and has to be released, by what releases it. -/
inductive Kind where
  /-- `curl_easy_cleanup`. -/
  | curl
  /-- `curl_slist_free_all`. -/
  | slist
  /-- `free`. -/
  | block
deriving DecidableEq

/-- The two parts of a response. -/
inductive Part where
  /-- Collected in `curl_write_mem_ctx`. -/
  | body
  /-- Collected in `curl_write_mem_ctx_hdr`. -/
  | header
deriving DecidableEq

/-- The options of a handle, with what they are set to; what libcurl copies is given by its
contents. -/
inductive CurlOpt where
  | url (str : CStr)
  | post
  | put
  | upload
  /-- To `curl_read_body_callback`. -/
  | readfunction
  /-- To the request's `curl_read_mem_ctx`. -/
  | readdata
  | postfieldsize (n : Int64)
  | infilesizeLarge (n : Int64)
  /-- To the list that these nodes make up. -/
  | httpheader (list : List ℕ)
  /-- To `curl_write_body_callback`. -/
  | writefunction
  /-- To the variable in which this part is collected. -/
  | writedata (w : Part)
  /-- To `curl_write_body_callback`. -/
  | headerfunction
  /-- To the variable in which this part is collected. -/
  | headerdata (w : Part)
  | verbose
  | useragent (str : CStr)
  | timeout (tout : Int64)
  | nosignal
deriving DecidableEq

/-- `curl_read_mem_ctx_t`: the string from `p_read` on, `none` for `NULL`. -/
structure ReadMemCtx where
  /-- `p_read`. -/
  pRead : Option CStr
  /-- `size_left`. -/
  sizeLeft : UInt64

/-- `curl_write_mem_ctx_t`. -/
structure WriteMemCtx where
  /-- `data`, `none` for `NULL`. -/
  data : Option ℕ
  /-- `size`. -/
  size : UInt64

/-- The value of a pointer of the caller's: an address of its own, or a block obtained in the
call. -/
inductive Ptr where
  | caller (addr : UInt64)
  | block (n : ℕ)
deriving DecidableEq

/-- `libcurl_wrap_stats_ctx_t`. -/
structure StatsCtx where
  timeConnectUsecs : UInt64
  timeFirstByteUsecs : UInt64
  timeTotalUsecs : UInt64
  downloadSizeBytes : Int64
deriving DecidableEq

/-- What the caller's references lead to. -/
structure Outs where
  /-- `*ref_response_str`. -/
  responseStr : Ptr
  /-- `*ref_http_ret_code`. -/
  httpRetCode : Int64
  /-- `*ref_headers_out_str`, if that is asked for. -/
  headersOutStr : Option Ptr
  /-- `*stats_ctx`, if that is asked for. -/
  statsCtx : Option StatsCtx
deriving DecidableEq

/-- What a request works on. -/
structure Call where
  /-- Memory, handles and lists. -/
  store : Store Kind (List UInt8)
  /-- The options set on the handle, the latest first. -/
  opts : List CurlOpt
  /-- `curl`. -/
  curl : Option ℕ
  /-- `url`. -/
  url : Option ℕ
  /-- `hdr_list`, by its nodes. -/
  hdrList : List ℕ
  /-- `curl_read_mem_ctx`. -/
  readMem : ReadMemCtx
  /-- `curl_write_mem_ctx` and `curl_write_mem_ctx_hdr`. -/
  mem : Part → WriteMemCtx
  /-- What the caller sees. -/
  out : Outs
  /-- No variable of the code: the nodes that `hdr_list` led to when it was overwritten. -/
  leaked : List ℕ

/-- A block of memory. -/
def blk (n : ℕ) : Resource Kind := ⟨.block, n⟩

/-- The block a pointer of the caller's owns. -/
def Ptr.owned : Ptr → List (Resource Kind)
  | .caller _ => []
  | .block n => [blk n]

@[simp]
theorem Ptr.owned_caller (addr : UInt64) : (Ptr.caller addr).owned = [] := rfl

@[simp]
theorem Ptr.owned_block (n : ℕ) : (Ptr.block n).owned = [blk n] := rfl

/-- The blocks the caller's pointers own. -/
def Outs.owned (o : Outs) : List (Resource Kind) :=
  o.responseStr.owned ++ (o.headersOutStr.map Ptr.owned).getD []

/-- What the request's own variables own, in the order in which they are released at the end. -/
def Call.locals (s : Call) : List (Resource Kind) :=
  s.curl.toList.map (⟨.curl, ·⟩) ++ s.url.toList.map blk ++ s.hdrList.map (⟨.slist, ·⟩) ++
    (s.mem .body).data.toList.map blk ++ (s.mem .header).data.toList.map blk

/-- What is not released: what the request and its caller own, and what has been lost. -/
def Call.held (s : Call) : List (Resource Kind) :=
  s.locals ++ s.leaked.map (⟨.slist, ·⟩) ++ s.out.owned

/-! ### The callbacks -/

/-- The bytes of a block that is made `n` long; new ones are as memory happens to have them. -/
def resized (old : List UInt8) (n : ℕ) (junk : UInt8) : List UInt8 :=
  (old ++ List.replicate (n - old.length) junk).take n

/-- `memcpy` to the offset `off` of a block. -/
def memcpyAt (bytes : List UInt8) (off : ℕ) (src : List UInt8) : List UInt8 :=
  bytes.take off ++ src ++ bytes.drop (off + src.length)

/-- `curl_write_body_callback`, `userp` being the variable for `w`: what it returns, and what it
leaves. `ok` says whether `realloc` succeeds. -/
def curlWriteBodyCallback (contents : Option (List UInt8)) (size nmemb : UInt64) (w : Part)
    (ok : Bool) (junk : UInt8) (s : Call) : UInt64 × Call :=
  let realsize := size * nmemb
  match (s.mem w).data, contents with
  | none, _ => (0, s)
  | _, none => (0, s)
  | some data, some contents =>
    if size = 0 ∨ nmemb = 0 then (0, s)
    else if !ok then (0, s)
    else
      let old := (s.store.cell (blk data)).getD []
      let n := ((s.mem w).size + realsize + 1).toNat
      let bytes := memcpyAt (resized old n junk) (s.mem w).size.toNat (contents.take realsize.toNat)
      let newSize := (s.mem w).size + realsize
      let pData := s.store.fresh .block
      (realsize,
        { s with
          store := (s.store.alloc .block (bytes.set newSize.toNat 0)).release (blk data)
          mem := Function.update s.mem w ⟨some pData.id, newSize⟩ })

/-- `curl_read_body_callback`: what it puts at `dest`, and what it leaves. -/
def curlReadBodyCallback (size nmemb : UInt64) (m : ReadMemCtx) : List UInt8 × ReadMemCtx :=
  let maxReadSize := size * nmemb
  match m.pRead with
  | none => ([], m)
  | some p =>
    if maxReadSize = 0 ∨ m.sizeLeft = 0 then ([], m)
    else
      let sizeLeft := if m.sizeLeft > maxReadSize then maxReadSize else m.sizeLeft
      (p.take sizeLeft.toNat, ⟨some (p.drop sizeLeft.toNat), m.sizeLeft - sizeLeft⟩)

/-! ### A transfer -/

/-- One call of the write callback: `nmemb` units of `size` bytes. -/
structure Delivery where
  size : UInt64
  nmemb : UInt64
  /-- The bytes. -/
  contents : List UInt8
  /-- Whether the callback's `realloc` succeeds. -/
  realloc : Bool
  /-- What memory holds that has not been written. -/
  junk : UInt8
  /-- There are as many bytes as the callback is told. -/
  length_eq : contents.length = size.toNat * nmemb.toNat

/-- What libcurl does with the callbacks during a transfer. -/
inductive Event where
  /-- A piece of a part of the response has arrived. -/
  | write (w : Part) (d : Delivery)
  /-- There is room for `nmemb` units of `size` bytes of the request's body. -/
  | read (size nmemb : UInt64)

/-- The bytes of a part among those that arrive. -/
def Event.bytes (w : Part) : Event → List UInt8
  | .write w' d => if w' = w then d.contents else []
  | .read .. => []

/-- The option that says which function is given what arrives of a part. -/
def Part.function : Part → CurlOpt
  | .body => .writefunction
  | .header => .headerfunction

/-- The variable an option names for what arrives of a part. -/
def CurlOpt.dataOf : Part → CurlOpt → Option Part
  | .body, .writedata w => some w
  | .header, .headerdata w => some w
  | _, _ => none

/-- The variable that the write callback is given for what arrives of a part. -/
def Call.sink (s : Call) (w : Part) : Option Part :=
  if w.function ∈ s.opts then s.opts.findSome? (CurlOpt.dataOf w) else none

/-- One event: what the callback returns, and what it leaves. Without the options, libcurl writes
what arrives itself, and the callbacks are not called. -/
def deliver (s : Call) : Event → UInt64 × Call
  | .write w d =>
    match s.sink w with
    | some userp => curlWriteBodyCallback (some d.contents) d.size d.nmemb userp d.realloc d.junk s
    | none => (d.size * d.nmemb, s)
  | .read size nmemb =>
    if .readfunction ∈ s.opts ∧ .readdata ∈ s.opts then
      let (dest, m) := curlReadBodyCallback size nmemb s.readMem
      (dest.length.toUInt64, { s with readMem := m })
    else (0, s)

/-- The callback took less than it was given. -/
def Event.short (n : UInt64) : Event → Bool
  | .write _ d => n ≠ d.size * d.nmemb
  | .read .. => false

/-- `CURLE_WRITE_ERROR`. -/
def curleWriteError : ℕ := 23

/-- `curl_easy_perform`, when `evs` is what would happen and `code` how it would end. -/
def curlEasyPerform (code : ℕ) : List Event → Call → ℕ × Call
  | [], s => (code, s)
  | ev :: evs, s =>
    let (n, t) := deliver s ev
    if ev.short n then (curleWriteError, t) else curlEasyPerform code evs t

/-! ### What a buffer holds -/

/-- The buffer for `w` holds `bs`, with a NUL after it. -/
structure Holds (s : Call) (w : Part) (bs : List UInt8) : Prop where
  /-- Its size is that of `bs`. -/
  size : (s.mem w).size.toNat = bs.length
  /-- Its memory begins with `bs` and a NUL. -/
  bytes : ∃ n mem, (s.mem w).data = some n ∧ s.store.cell (blk n) = some mem ∧ bs ++ [0] <+: mem

/-- Nothing that is held is released already, and what arrives goes to the variable for its part. -/
structure Receiving (s : Call) : Prop where
  /-- The account of what is held. -/
  balanced : s.store.Balanced s.held
  /-- The options name the right variables. -/
  sink : ∀ w, s.sink w = some w

/-- What the buffer for the other part is. -/
def Part.other : Part → Part
  | .body => .header
  | .header => .body

theorem Part.eq_or_eq_other (w w' : Part) : w' = w ∨ w' = w.other := by
  cases w <;> cases w' <;> simp [other]

@[simp]
theorem Part.other_ne (w : Part) : w.other ≠ w := by cases w <;> simp [other]

/-- What is held besides the buffer for `w`. -/
def Call.besides (s : Call) (w : Part) : List (Resource Kind) :=
  s.curl.toList.map (⟨.curl, ·⟩) ++ s.url.toList.map blk ++ s.hdrList.map (⟨.slist, ·⟩) ++
    (s.mem w.other).data.toList.map blk ++ s.leaked.map (⟨.slist, ·⟩) ++ s.out.owned

theorem held_perm (s : Call) (w : Part) :
    s.held.Perm ((s.mem w).data.toList.map blk ++ s.besides w) := by
  refine List.perm_iff_count.mpr fun r => ?_
  cases w <;> simp only [Call.held, Call.locals, Call.besides, Part.other, List.count_append]
    <;> omega

theorem held_perm_of_data {s : Call} {w : Part} {n : ℕ} (h : (s.mem w).data = some n) :
    s.held.Perm (blk n :: s.besides w) := by simpa [h] using held_perm s w

/-! ### One call of the callback -/

/-- The state after a call of the callback that takes what it is given. -/
def taking (contents : List UInt8) (realsize : UInt64) (w : Part) (junk : UInt8) (data : ℕ)
    (s : Call) : Call :=
  { s with
    store := (s.store.alloc .block
      ((memcpyAt
        (resized ((s.store.cell (blk data)).getD []) ((s.mem w).size + realsize + 1).toNat junk)
        (s.mem w).size.toNat (contents.take realsize.toNat)).set
          ((s.mem w).size + realsize).toNat 0)).release (blk data)
    mem := Function.update s.mem w ⟨some s.store.obtained.length, (s.mem w).size + realsize⟩ }

/-- What a call of the callback can do: nothing, or take what it is given. -/
theorem curlWriteBodyCallback_cases (contents : List UInt8) (size nmemb : UInt64) (w : Part)
    (ok : Bool) (junk : UInt8) (s : Call) :
    curlWriteBodyCallback (some contents) size nmemb w ok junk s = (0, s) ∨
      ∃ data, (s.mem w).data = some data ∧
      curlWriteBodyCallback (some contents) size nmemb w ok junk s =
        (size * nmemb, taking contents (size * nmemb) w junk data s) := by
  cases hd : (s.mem w).data with
  | none => exact .inl (by simp [curlWriteBodyCallback, hd])
  | some data =>
    by_cases h0 : size = 0 ∨ nmemb = 0
    · exact .inl (by simp [curlWriteBodyCallback, hd, h0])
    · cases ok with
      | false => exact .inl (by simp [curlWriteBodyCallback, hd])
      | true => exact .inr ⟨data, rfl, by simp [curlWriteBodyCallback, hd, h0, taking, Store.fresh]⟩

/-- Appending to a buffer: the old bytes, the new ones and the NUL. -/
theorem append_to_buffer {bs old src : List UInt8} {junk : UInt8} (h : bs ++ [0] <+: old) :
    (memcpyAt (resized old (bs.length + src.length + 1) junk) bs.length src).set
      (bs.length + src.length) 0 = bs ++ src ++ [0] := by
  obtain ⟨rest, rfl⟩ := h
  have hlen : (resized (bs ++ [0] ++ rest) (bs.length + src.length + 1) junk).length =
      bs.length + src.length + 1 := by simp [resized]; omega
  have htake : (resized (bs ++ [0] ++ rest) (bs.length + src.length + 1) junk).take bs.length =
      bs := by
    simp [resized, List.take_take,
      Nat.min_eq_left (show bs.length ≤ bs.length + src.length + 1 by omega)]
  generalize resized (bs ++ [0] ++ rest) (bs.length + src.length + 1) junk = new at hlen htake
  obtain ⟨x, hx⟩ : ∃ x, new.drop (bs.length + src.length) = [x] :=
    List.length_eq_one_iff.mp (by rw [List.length_drop, hlen]; omega)
  rw [memcpyAt, htake, hx, List.set_append_right _ _ (by simp)]
  simp

variable {s : Call} {w : Part} {d : Delivery} {bs : List UInt8}

/-- There is room in a `size_t` for what has been received, what arrives, and the NUL. -/
def Fits (s : Call) : Event → Prop
  | .write w d => (s.mem w).size.toNat + d.contents.length + 1 < 2 ^ 64
  | .read .. => True

theorem toNat_realsize (h : d.contents.length < 2 ^ 64) :
    (d.size * d.nmemb).toNat = d.contents.length := by
  rw [UInt64.toNat_mul, ← d.length_eq, Nat.mod_eq_of_lt h]

/-- A return of `0` is short unless there was nothing to take. -/
theorem bytes_of_zero (hf : Fits s (.write w d)) (w' : Part) :
    (if (Event.write w d).short 0 then [] else (Event.write w d).bytes w') = [] := by
  have hf : (s.mem w).size.toNat + d.contents.length + 1 < 2 ^ 64 := hf
  split
  · rfl
  · next hshort =>
    have h0 : (0 : UInt64) = d.size * d.nmemb := by simpa [Event.short] using hshort
    have hlen := toNat_realsize (d := d) (by omega)
    have hnil : d.contents = [] := List.length_eq_zero_iff.mp (by rw [← hlen, ← h0]; rfl)
    simp [Event.bytes, hnil]

/-- What is held is accounted for after the callback has taken what it was given. -/
theorem balanced_taking {contents : List UInt8} {realsize : UInt64} {junk : UInt8} {data : ℕ}
    (hb : s.store.Balanced s.held) (hd : (s.mem w).data = some data) :
    (taking contents realsize w junk data s).store.Balanced
      (taking contents realsize w junk data s).held := by
  have hnew : ((taking contents realsize w junk data s).mem w).data =
      some s.store.obtained.length := by
    simp [taking]
  have hrest : (taking contents realsize w junk data s).besides w = s.besides w := by
    simp [taking, Call.besides]
  refine Store.Balanced.congr ?_ ((held_perm_of_data hnew).trans (by rw [hrest])).symm
  exact Store.Balanced.release ((hb.congr (held_perm_of_data hd)).alloc.congr (.swap ..))

theorem holds_taking {junk : UInt8} {data : ℕ} (hb : s.store.Balanced s.held)
    (hd : (s.mem w).data = some data) (hf : Fits s (.write w d)) (hs : Holds s w bs) :
    Holds (taking d.contents (d.size * d.nmemb) w junk data s) w (bs ++ d.contents) := by
  have hf : (s.mem w).size.toNat + d.contents.length + 1 < 2 ^ 64 := hf
  have hreal := toNat_realsize (d := d) (by omega)
  have hnew : ((s.mem w).size + d.size * d.nmemb).toNat = bs.length + d.contents.length := by
    rw [UInt64.toNat_add, hreal, hs.size, Nat.mod_eq_of_lt (by rw [← hs.size]; omega)]
  have hcap : ((s.mem w).size + d.size * d.nmemb + 1).toNat =
      bs.length + d.contents.length + 1 := by
    rw [UInt64.toNat_add, hnew]
    exact Nat.mod_eq_of_lt (by rw [← hs.size]; exact hf)
  obtain ⟨n, mem, hn, hm, hpre⟩ := hs.bytes
  obtain rfl : data = n := by simpa [hd] using hn
  have hne : s.store.fresh .block ≠ blk data := by
    intro he
    apply hb.fresh_not_mem (k := .block)
    exact (held_perm_of_data hd).symm.subset (he ▸ List.mem_cons_self)
  refine ⟨by simp [taking, hnew], s.store.obtained.length, bs ++ d.contents ++ [0],
    by simp [taking], ?_, List.prefix_rfl⟩
  change (Store.release _ _).cell (s.store.fresh .block) = _
  rw [Store.cell_release_of_ne hne, Store.cell_alloc, hm, hcap, hnew, hs.size, hreal,
    List.take_length, Option.getD_some, append_to_buffer hpre]

/-- The other buffer is left alone. -/
theorem cell_other_taking {contents : List UInt8} {realsize : UInt64} {junk : UInt8} {data n : ℕ}
    (hb : s.store.Balanced s.held) (hd : (s.mem w).data = some data)
    (hn : (s.mem w.other).data = some n) :
    (taking contents realsize w junk data s).store.cell (blk n) = s.store.cell (blk n) := by
  have hperm := held_perm_of_data hd
  have hmem : blk n ∈ s.besides w := by simp [Call.besides, hn]
  have hne : blk n ≠ blk data := by
    intro he
    exact (List.nodup_cons.mp (hperm.nodup_iff.mp hb.nodup_held)).1 (he ▸ hmem)
  have hfresh : blk n ≠ s.store.fresh .block := by
    intro he
    apply hb.fresh_not_mem (k := .block)
    exact he ▸ hperm.symm.subset (List.mem_cons_of_mem _ hmem)
  exact (Store.cell_release_of_ne hne).trans (Store.cell_alloc_of_ne hfresh)

theorem holds_other_taking {contents : List UInt8} {realsize : UInt64} {junk : UInt8} {data : ℕ}
    (hb : s.store.Balanced s.held) (hd : (s.mem w).data = some data) (hs : Holds s w.other bs) :
    Holds (taking contents realsize w junk data s) w.other bs := by
  have hmem : (taking contents realsize w junk data s).mem w.other = s.mem w.other := by
    simp [taking]
  obtain ⟨n, mem, hn, hm, hpre⟩ := hs.bytes
  exact ⟨by rw [hmem, hs.size], n, mem, by rw [hmem, hn], by rw [cell_other_taking hb hd hn, hm],
    hpre⟩

/-- **One call of the callback**: it takes all it was given and appends it, or takes nothing and
leaves everything as it was; the other buffer is left alone either way. -/
theorem curlWriteBodyCallback_spec (hb : s.store.Balanced s.held) (hf : Fits s (.write w d))
    {n : UInt64} {t : Call}
    (h : curlWriteBodyCallback (some d.contents) d.size d.nmemb w d.realloc d.junk s = (n, t)) :
    t.store.Balanced t.held ∧ t.opts = s.opts ∧ (t.out = s.out ∧ t.leaked = s.leaked) ∧
      (∀ bs, Holds s w.other bs → Holds t w.other bs) ∧
      (n = 0 ∧ t = s ∨ n = d.size * d.nmemb ∧ ∀ bs, Holds s w bs →
        Holds t w (bs ++ d.contents)) := by
  rcases curlWriteBodyCallback_cases d.contents d.size d.nmemb w d.realloc d.junk s with
      he | ⟨data, hd, he⟩
  · obtain ⟨rfl, rfl⟩ : 0 = n ∧ s = t := by simpa [he] using h
    exact ⟨hb, rfl, ⟨rfl, rfl⟩, fun _ h => h, .inl ⟨rfl, rfl⟩⟩
  · obtain ⟨rfl, rfl⟩ := Prod.mk.inj (he.symm.trans h)
    exact ⟨balanced_taking hb hd, rfl, ⟨rfl, rfl⟩, fun _ hs => holds_other_taking hb hd hs,
      .inr ⟨rfl, fun _ hs => holds_taking hb hd hf hs⟩⟩

/-! ### A transfer -/

/-- A transfer as far as it has come: the callbacks called, with what they returned. -/
structure Transfer where
  call : Call
  log : List (Event × UInt64)

/-- The events of a transfer, in whatever order they come. -/
def transfer : Library.Sys Transfer Event where
  init x := Receiving x.call ∧ (∀ w, Holds x.call w []) ∧ x.log = []
  step x ev := some ⟨(deliver x.call ev).2, x.log ++ [(ev, (deliver x.call ev).1)]⟩

/-- What the callback has taken of a part: all of each piece for which it returned the full
length. -/
def taken (w : Part) (log : List (Event × UInt64)) : List UInt8 :=
  log.flatMap fun (ev, n) => if ev.short n then [] else ev.bytes w

theorem sink_congr {t : Call} (h : t.opts = s.opts) (w : Part) : t.sink w = s.sink w := by
  simp [Call.sink, h]

/-- Other options do not change the variable. -/
theorem sink_cons {o : CurlOpt} (h : s.sink w = some w) (ho : o.dataOf w = none) :
    ({ s with opts := o :: s.opts } : Call).sink w = some w := by
  by_cases hf : w.function ∈ s.opts <;> simp_all [Call.sink]

/-- One event keeps the account, and adds to each buffer what is taken of its part. -/
theorem deliver_spec (hr : Receiving s) {ev : Event} (hf : Fits s ev) {bs : Part → List UInt8}
    (hs : ∀ w, Holds s w (bs w)) {n : UInt64} {t : Call} (h : deliver s ev = (n, t)) :
    Receiving t ∧ (t.out = s.out ∧ t.leaked = s.leaked) ∧
      ∀ w, Holds t w (bs w ++ if ev.short n then [] else ev.bytes w) := by
  cases ev with
  | read size nmemb =>
    simp only [deliver] at h
    split at h <;> obtain ⟨-, rfl⟩ := Prod.mk.inj h
    · exact ⟨⟨hr.balanced, hr.sink⟩, ⟨rfl, rfl⟩,
        fun w => by simpa [Event.bytes] using ⟨(hs w).size, (hs w).bytes⟩⟩
    · exact ⟨hr, ⟨rfl, rfl⟩, fun w => by simpa [Event.bytes] using hs w⟩
  | write w d =>
    simp only [deliver, hr.sink w] at h
    obtain ⟨hb, hopts, hout, hother, hcase⟩ := curlWriteBodyCallback_spec hr.balanced hf h
    refine ⟨⟨hb, fun w' => (sink_congr hopts w').trans (hr.sink w')⟩, hout, fun w' => ?_⟩
    rcases Part.eq_or_eq_other w w' with rfl | rfl
    · rcases hcase with ⟨rfl, rfl⟩ | ⟨rfl, htake⟩
      · rw [bytes_of_zero hf, List.append_nil]
        exact hs w'
      · simpa [Event.short, Event.bytes] using htake _ (hs w')
    · simpa [Event.bytes, (Part.other_ne w).symm] using hother _ (hs w.other)

/-- In a transfer each buffer holds what has been taken of its part. -/
theorem holds_taken {x : Transfer} (h : transfer.Reach (fun x ev => Fits x.call ev) x) :
    Receiving x.call ∧ ∀ w, Holds x.call w (taken w x.log) := by
  refine h.invariant (I := fun x => Receiving x.call ∧ ∀ w, Holds x.call w (taken w x.log)) ?_ ?_
  · rintro x ⟨hr, hs, hlog⟩
    exact ⟨hr, fun w => by simpa [taken, hlog] using hs w⟩
  · rintro x ev y - hf ⟨hr, hs⟩ hstep
    obtain rfl := (Option.some.inj hstep).symm
    obtain ⟨hr', -, hs'⟩ := deliver_spec hr hf hs (Prod.eta (deliver x.call ev)).symm
    exact ⟨hr', fun w => by simpa [taken] using hs' w⟩

/-! ### `curl_easy_perform` -/

/-- The bytes of a part that arrive in a transfer that is not cut short. -/
def received (w : Part) (evs : List Event) : List UInt8 := evs.flatMap (Event.bytes w)

/-- A callback called with this takes all it is given. -/
def Event.Taken : Event → Prop
  | .write _ d => d.contents = [] ∨ d.realloc = true
  | .read .. => True

theorem Delivery.contents_eq_nil_iff (d : Delivery) :
    d.contents = [] ↔ d.size = 0 ∨ d.nmemb = 0 := by
  rw [← List.length_eq_zero_iff, d.length_eq, Nat.mul_eq_zero, ← UInt64.toNat_inj,
    ← UInt64.toNat_inj]
  rfl

/-- A call of the callback is short only when `realloc` fails. -/
theorem short_iff (hr : Receiving s) {ev : Event} (hf : Fits s ev) (hs : ∀ w, ∃ bs, Holds s w bs) :
    ev.short (deliver s ev).1 = true ↔ ¬ev.Taken := by
  cases ev with
  | read => simp [Event.short, Event.Taken]
  | write w d =>
    obtain ⟨bs, -, data, -, hd, -⟩ := hs w
    have hf : (s.mem w).size.toNat + d.contents.length + 1 < 2 ^ 64 := hf
    have hreal := toNat_realsize (d := d) (by omega)
    simp only [Event.short, Event.Taken, deliver, hr.sink w, curlWriteBodyCallback, hd,
      d.contents_eq_nil_iff]
    by_cases h0 : d.size = 0 ∨ d.nmemb = 0
    · rcases h0 with h0 | h0 <;> simp [h0]
    · have hne : (0 : UInt64) ≠ d.size * d.nmemb := by
        intro he
        apply h0
        apply d.contents_eq_nil_iff.mp
        exact List.length_eq_zero_iff.mp (by rw [← hreal, ← he]; rfl)
      cases hok : d.realloc <;> simp [h0, hne]

/-- A piece is taken in full exactly if there is memory for it, or nothing in it. -/
theorem full_iff (hr : Receiving s) (hf : Fits s (.write w d)) (hs : ∀ w, ∃ bs, Holds s w bs)
    {n : UInt64} {t : Call} (h : deliver s (.write w d) = (n, t)) :
    n.toNat = d.contents.length ↔ d.contents = [] ∨ d.realloc = true := by
  have hshort := short_iff hr hf hs
  have hf : (s.mem w).size.toNat + d.contents.length + 1 < 2 ^ 64 := hf
  rw [h] at hshort
  simp only [Event.short, Event.Taken, ne_eq, decide_not, Bool.not_eq_true',
    decide_eq_false_iff_not] at hshort
  rw [← toNat_realsize (d := d) (by omega), UInt64.toNat_inj]
  exact not_iff_not.mp hshort

/-- **A whole transfer**: it ends as it would, everything received, when every call of the callback
takes what it is given; else it is cut short. -/
theorem curlEasyPerform_spec (code : ℕ) {evs : List Event} (bs : Part → List UInt8)
    (hr : Receiving s) (hs : ∀ w, Holds s w (bs w))
    (hf : ∀ w, (bs w).length + (received w evs).length + 1 < 2 ^ 64) {c : ℕ} {t : Call}
    (h : curlEasyPerform code evs s = (c, t)) :
    Receiving t ∧ (t.out = s.out ∧ t.leaked = s.leaked) ∧
      ((∀ ev ∈ evs, ev.Taken) ∧ c = code ∧ (∀ w, Holds t w (bs w ++ received w evs)) ∨
        (¬∀ ev ∈ evs, ev.Taken) ∧ c = curleWriteError) := by
  induction evs generalizing s bs with
  | nil =>
    obtain ⟨rfl, rfl⟩ := Prod.mk.inj h
    exact ⟨hr, ⟨rfl, rfl⟩, .inl ⟨by simp, rfl, by simpa [received] using hs⟩⟩
  | cons ev evs ih =>
    have hfit : Fits s ev := by
      cases ev with
      | read => trivial
      | write w d =>
        have := hf w
        simp only [received, List.flatMap_cons, Event.bytes, if_pos, List.length_append] at this
        simp only [Fits, (hs w).size]
        omega
    obtain ⟨hr', hout, hs'⟩ := deliver_spec hr hfit hs (Prod.eta (deliver s ev)).symm
    have hshort := short_iff hr hfit fun w => ⟨_, hs w⟩
    rw [curlEasyPerform] at h
    by_cases htaken : ev.Taken
    · have hn : ev.short (deliver s ev).1 = false := by
        simpa using mt hshort.mp (not_not.mpr htaken)
      simp only [hn, Bool.false_eq_true, if_false] at h hs'
      obtain ⟨hrt, hot, hcase⟩ := ih _ hr' hs' (fun w => by
        have := hf w
        simp only [received, List.flatMap_cons, List.length_append] at this ⊢
        omega) h
      refine ⟨hrt, ⟨hot.1.trans hout.1, hot.2.trans hout.2⟩, ?_⟩
      simpa [htaken, received, List.append_assoc] using hcase
    · simp only [hshort.mpr htaken, if_true] at h
      obtain ⟨rfl, rfl⟩ := Prod.mk.inj h
      exact ⟨hr', hout, .inr ⟨by simp [htaken], rfl⟩⟩

end NginxTools.LibcurlWrap
