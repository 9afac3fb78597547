import NginxTools.LibcurlWrap.Framing

/-!
# Sending a request's body

`curl_read_body_callback` is asked by libcurl for the next piece of the body, in units of its
choice, and does not know what the earlier calls were but by the two members that it moves:

    size_t max_read_size= size* nmemb;
    ...
    if(size_left> max_read_size)
        size_left= max_read_size;
    memcpy(dest, curl_read_mem_ctx->p_read, size_left);
    curl_read_mem_ctx->p_read+= size_left;
    curl_read_mem_ctx->size_left-= size_left;

The product may wrap around. What the callback goes by is the product as it is, so this only makes
for a smaller piece.

## What is proved

Any calls together deliver as much of what is to be read as they have room for (`readAll_eq`), so
that the whole of it is sent, once and in order (`sendsWhole`). `upload_whole` — this is the body of
the request, and it is as long as the request's options have declared.
-/

namespace NginxTools.LibcurlWrap

open Library

/-- What the callback returns: the number of bytes that it has put at `dest`. -/
def readReturn (size nmemb : UInt64) (m : ReadMemCtx) : UInt64 :=
  (curlReadBodyCallback size nmemb m).1.length.toUInt64

/-- After these calls: what has been sent of the body, what is left, and what the next call is going
to do. -/
structure SendsWhole (body : CStr) (m : ReadMemCtx) (reads : List (UInt64 × UInt64)) : Prop where
  inOrder : (readAll m reads).1 <+: body
  sizeLeft : (readAll m reads).1.length + (readAll m reads).2.sizeLeft.toNat = body.length
  pRead : (readAll m reads).2.pRead = some (body.drop (readAll m reads).1.length)
  fits : ∀ size nmemb, (curlReadBodyCallback size nmemb (readAll m reads).2).1.length ≤
    (size * nmemb).toNat
  /-- A zero is no sign of the end unless everything has been sent. -/
  ends : ∀ size nmemb, size * nmemb ≠ 0 → readReturn size nmemb (readAll m reads).2 = 0 →
    (readAll m reads).1 = body
  ended : (readAll m reads).1 = body → ∀ size nmemb, readReturn size nmemb (readAll m reads).2 = 0
  whole : body.length ≤ room reads → (readAll m reads).1 = body

/-- The size that the options declare is `n`; they declare none only for a POST in chunks. -/
structure SizedAs (req : ReqCtx) (s : Call) (n : ℕ) : Prop where
  declared : ∀ d, s.declared = some d → d.toUInt64.toNat = n
  undeclared : s.declared = none → req.method = libcurlWrapMethodPost ∧ AsksForChunks req

variable {m : ReadMemCtx} {p body : List UInt8}

/-! ### Any calls -/

theorem readReturn_eq_zero (h : Unread m p) (size nmemb : UInt64) :
    readReturn size nmemb m = 0 ↔ p.take (size * nmemb).toNat = [] := by
  have hlt : (p.take (size * nmemb).toNat).length < 2 ^ 64 :=
    (List.length_take_le _ _).trans_lt (UInt64.toNat_lt _)
  rw [readReturn, (read_eq h size nmemb).1, ← List.length_eq_zero_iff, ← UInt64.toNat_inj]
  show (UInt64.ofNat _).toNat = 0 ↔ _
  rw [UInt64.toNat_ofNat_of_lt' hlt]

/-- **The callback sends the whole of what is to be read**, over any calls. -/
theorem sendsWhole (h : Unread m body) (reads : List (UInt64 × UInt64)) :
    SendsWhole body m reads := by
  obtain ⟨hsent, hleft⟩ := readAll_eq h reads
  have hlen : (readAll m reads).1.length = min (room reads) body.length := by
    rw [hsent, List.length_take]
  have hdone : (readAll m reads).1 = body ↔ body.drop (room reads) = [] := by
    rw [hsent, List.take_eq_self_iff, List.drop_eq_nil_iff]
  constructor
  case inOrder => exact hsent ▸ List.take_prefix _ _
  case sizeLeft =>
    rw [hlen, hleft.sizeLeft, List.length_drop]
    omega
  case pRead =>
    rw [hleft.pRead, hlen]
    rcases Nat.le_total (room reads) body.length with hle | hle
    · rw [Nat.min_eq_left hle]
    · rw [Nat.min_eq_right hle, List.drop_of_length_le hle, List.drop_length]
  case fits =>
    intro size nmemb
    rw [(read_eq hleft size nmemb).1]
    exact List.length_take_le _ _
  case ends =>
    intro size nmemb hroom hzero
    rw [readReturn_eq_zero hleft] at hzero
    apply hdone.mpr
    refine (List.take_eq_nil_iff.mp hzero).resolve_left fun hz => hroom ?_
    exact UInt64.toNat_inj.mp hz
  case ended =>
    intro hall size nmemb
    rw [readReturn_eq_zero hleft, hdone.mp hall, List.take_nil]
  case whole =>
    intro hle
    rw [hsent, List.take_of_length_le hle]

/-! ### The body of a request -/

theorem toNat_bodySize (h : body.length < 2 ^ 64) :
    (bodySize (some body)).toInt64.toUInt64.toNat = body.length := by
  rw [UInt64.toUInt64_toInt64]
  exact UInt64.toNat_ofNat_of_lt' h

/-- **A body is sent completely, once and in order**, however libcurl asks for it, and it is as long
as the options declare. -/
theorem upload_whole {env : Env} {req : ReqCtx} {o : Outs} {s : Call} (hup : Uploads req)
    (hb : req.body = some body) (hlen : body.length < 2 ^ 64)
    (h : prepared env req (.start o) = .ok () s) (reads : List (UInt64 × UInt64)) :
    SendsWhole body s.readMem reads ∧
      (body.length ≤ room reads → SizedAs req s (readAll s.readMem reads).1.length) := by
  have hf := prepared_framing hup o _ rfl _ _ h
  have hdecl := hf.declared_eq.trans (declared_upload env req)
  have hread : Unread s.readMem body := by
    rw [hf.readMem, hb]
    exact unread_readMemOf hlen
  have hsends := sendsWhole hread reads
  refine ⟨hsends, fun hroom => ?_⟩
  rw [hsends.whole hroom]
  rw [hb] at hdecl
  constructor
  · intro d hd
    rw [hdecl, Option.map_some] at hd
    split_ifs at hd <;> cases hd <;> exact toNat_bodySize hlen
  · intro hnone
    rw [hdecl, Option.map_some] at hnone
    split_ifs at hnone with hpost hfind
    exact ⟨hpost, (asksForChunks_iff req).mpr hfind⟩

/-- A request to store ten bytes. -/
def putBodyRequest : ReqCtx := { putRequest with body := some (ascii "name=value") }

/-- It is sent to a libcurl that asks for four bytes, for none, and for more than there are. -/
theorem upload_whole_putBodyRequest :
    ∃ s, prepared allSucceeds putBodyRequest (.start (callerOuts 0 404 none none)) = .ok () s ∧
    SendsWhole (ascii "name=value") s.readMem [(1, 4), (0, 9), (3, 7)] ∧
      ((ascii "name=value").length ≤ room [(1, 4), (0, 9), (3, 7)] →
        SizedAs putBodyRequest s (readAll s.readMem [(1, 4), (0, 9), (3, 7)]).1.length) := by
  obtain ⟨s, hs⟩ : ∃ s, prepared allSucceeds putBodyRequest (.start (callerOuts 0 404 none none)) =
      .ok () s := ⟨_, rfl⟩
  exact ⟨s, hs, upload_whole (.inr rfl) rfl (by decide) hs _⟩

end NginxTools.LibcurlWrap
