import Mathlib.Data.Nat.Notation
import Mathlib.Tactic.SplitIfs
import Mathlib.Algebra.Group.Nat.Defs

/-!
# Keys in the page

The page of the module is a JSON text in which the keys of the nodes are the names of members. They
are what requests say they are, so that they are escaped, into a buffer that has room for the
longest escape of each byte:

    buf->len = dst->len * 6;
    buf->data = ngx_pcalloc(pool, buf->len);
    ...
    p = (u_char *) ngx_escape_json(p, dst->data, dst->len);
    ...
    buf->len = ngx_strlen(buf->data);

The length that is taken in the end is up to the first zero byte: that there is one is up to the
buffer not being full.

## The model

`escapeJson` is `ngx_escape_json` where it writes, and `escapeJsonLen` is the same function where it
counts. In `escapeJsonPool` reading behind the buffer is `none`; that there is no memory for it is
left out. `JsonBody` says what JSON makes of the text between two quotes, where it has escapes of
single bytes only.

## What is proved

**What is written is the body of a JSON string that means the key**, and nothing else; it fits the
buffer, and its length is what the function counts. It is found again in the buffer **exactly if not
every byte of the key took six** (`escapeJsonPool_spec`): for a key of control characters only, and
for an empty one, the length is looked for behind the buffer.
-/

namespace NginxTools.VhostTrafficStatus

/-! ### The functions -/

/-- The letter of a control character that has a short escape. -/
def shortEscape (ch : UInt8) : Option UInt8 :=
  if ch = 0x0a then some 0x6e
  else if ch = 0x0d then some 0x72
  else if ch = 0x09 then some 0x74
  else if ch = 0x08 then some 0x62
  else if ch = 0x0c then some 0x66
  else none

/-- What `ngx_escape_json` writes for a byte. -/
def escapeByte (ch : UInt8) : List UInt8 :=
  if ch > 0x1f then
    if ch = 0x5c ∨ ch = 0x22 then [0x5c, ch] else [ch]
  else
    match shortEscape ch with
    | some letter => [0x5c, letter]
    | none =>
      let low := ch &&& 0xf
      [0x5c, 0x75, 0x30, 0x30, (0x30 : UInt8) + (ch >>> 4),
        if low < 10 then (0x30 : UInt8) + low else (0x41 : UInt8) + low - 10]

/-- `ngx_escape_json`, to a buffer. -/
def escapeJson (src : List UInt8) : List UInt8 := src.flatMap escapeByte

/-- A turn of `ngx_escape_json`, where it counts. -/
def escapeLenTurn (len : ℕ) (ch : UInt8) : ℕ :=
  if ch = 0x5c ∨ ch = 0x22 then len + 1
  else if ch ≤ 0x1f then
    match shortEscape ch with
    | some _ => len + 1
    | none => len + 5
  else len

/-- `ngx_escape_json`, to no buffer: how many bytes there are more. -/
def escapeJsonLen (src : List UInt8) : ℕ := src.foldl escapeLenTurn 0

/-- `ngx_http_vhost_traffic_status_escape_json_pool`. -/
def escapeJsonPool (dst : List UInt8) : Option (List UInt8) :=
  let text := escapeJson dst
  let data := text ++ List.replicate (dst.length * 6 - text.length) 0
  (data.findIdx? (· = 0)).map fun len => data.take len

/-! ### Strings of JSON -/

/-- The value of a hexadecimal digit. -/
def hexDigit (c : UInt8) : Option UInt8 :=
  if 0x30 ≤ c ∧ c ≤ 0x39 then some (c - 0x30)
  else if 0x41 ≤ c ∧ c ≤ 0x46 then some (c - 0x41 + 10)
  else if 0x61 ≤ c ∧ c ≤ 0x66 then some (c - 0x61 + 10)
  else none

/-- The byte that a letter after a backslash stands for. -/
def letterMeans (c : UInt8) : Option UInt8 :=
  if c = 0x22 ∨ c = 0x5c ∨ c = 0x2f then some c
  else if c = 0x62 then some 0x08
  else if c = 0x66 then some 0x0c
  else if c = 0x6e then some 0x0a
  else if c = 0x72 then some 0x0d
  else if c = 0x74 then some 0x09
  else none

/-- The text between two quotes, and what it means. -/
inductive JsonBody : List UInt8 → List UInt8 → Prop where
  | nil : JsonBody [] []
  /-- A byte that stands for itself. -/
  | char {c : UInt8} {text meaning : List UInt8} : 0x1f < c → c ≠ 0x22 → c ≠ 0x5c →
      JsonBody text meaning → JsonBody (c :: text) (c :: meaning)
  /-- A backslash with a letter. -/
  | letter {c b : UInt8} {text meaning : List UInt8} : letterMeans c = some b →
      JsonBody text meaning → JsonBody (0x5c :: c :: text) (b :: meaning)
  /-- A backslash with the number of an ASCII character. -/
  | number {h l a b : UInt8} {text meaning : List UInt8} : hexDigit h = some a →
      hexDigit l = some b → a < 8 → JsonBody text meaning →
      JsonBody (0x5c :: 0x75 :: 0x30 :: 0x30 :: h :: l :: text) ((a <<< 4 ||| b) :: meaning)

theorem letterMeans_u : letterMeans 0x75 = none := rfl

/-- **A text means one thing.** -/
theorem JsonBody.unique {text m m' : List UInt8} (h : JsonBody text m) (h' : JsonBody text m') :
    m = m' := by
  induction h generalizing m' with
  | nil =>
    cases h'
    rfl
  | char _ _ hslash _ ih =>
    cases h' with
    | char _ _ _ h' => rw [ih h']
    | letter => exact absurd rfl hslash
    | number => exact absurd rfl hslash
  | letter hb _ ih =>
    cases h' with
    | char _ _ hslash => exact absurd rfl hslash
    | letter hb' h' => rw [ih h', Option.some.inj (hb.symm.trans hb')]
    | number => simp [letterMeans_u] at hb
  | number ha hb _ _ ih =>
    cases h' with
    | char _ _ hslash => exact absurd rfl hslash
    | letter hb' => simp [letterMeans_u] at hb'
    | number ha' hb' _ h' =>
      rw [ih h', Option.some.inj (ha.symm.trans ha'), Option.some.inj (hb.symm.trans hb')]

/-! ### What is written -/

/-- There are 256 bytes. -/
theorem forall_byte {p : UInt8 → Prop} (h : ∀ n < 256, p (UInt8.ofNat n)) (c : UInt8) : p c := by
  have hc := h c.toNat c.toNat_lt
  rwa [UInt8.ofNat_toNat] at hc

/-- The escape of a byte, before a text. -/
theorem JsonBody.escapeByte {text meaning : List UInt8} (ch : UInt8)
    (h : JsonBody text meaning) :
    JsonBody (VhostTrafficStatus.escapeByte ch ++ text) (ch :: meaning) := by
  have hshort : ∀ c : UInt8, ∀ l ∈ shortEscape c, letterMeans l = some c :=
    forall_byte (by decide +kernel)
  have hnumber : ∀ c : UInt8, ¬ c > 0x1f →
      hexDigit ((0x30 : UInt8) + (c >>> 4)) = some (c >>> 4) ∧
        hexDigit (if c &&& 0xf < 10 then (0x30 : UInt8) + (c &&& 0xf)
          else (0x41 : UInt8) + (c &&& 0xf) - 10) = some (c &&& 0xf) ∧
        c >>> 4 < 8 ∧ (c >>> 4) <<< 4 ||| (c &&& 0xf) = c :=
    forall_byte (by decide +kernel)
  rw [VhostTrafficStatus.escapeByte]
  split_ifs with hprint hspecial
  · refine .letter (c := ch) ?_ h
    rcases hspecial with rfl | rfl <;> rfl
  · rw [not_or] at hspecial
    exact .char hprint hspecial.2 hspecial.1 h
  · cases hletter : shortEscape ch with
    | some l => exact .letter (hshort ch l hletter) h
    | none =>
      obtain ⟨ha, hb, hlt, hch⟩ := hnumber ch hprint
      have hbody := JsonBody.number ha hb hlt h
      rw [hch] at hbody
      exact hbody

/-- **What is written means what was to be escaped.** -/
theorem jsonBody_escapeJson (src : List UInt8) : JsonBody (escapeJson src) src := by
  induction src with
  | nil => exact .nil
  | cons ch src ih =>
    rw [escapeJson, List.flatMap_cons]
    exact ih.escapeByte ch

/-- A byte takes six exactly where it is a control character without a short escape. -/
def Long (ch : UInt8) : Prop := ch ≤ 0x1f ∧ shortEscape ch = none

instance (ch : UInt8) : Decidable (Long ch) := inferInstanceAs (Decidable (_ ∧ _))

/-- A byte's escape: how long it is, and that it has no zero. -/
theorem escapeByte_spec (ch : UInt8) :
    (escapeByte ch).length ≤ 6 ∧ ((escapeByte ch).length = 6 ↔ Long ch) ∧
      (∀ len, escapeLenTurn len ch + 1 = len + (escapeByte ch).length) ∧ 0 ∉ escapeByte ch := by
  have hall : ∀ ch : UInt8, (escapeByte ch).length ≤ 6 ∧ ((escapeByte ch).length = 6 ↔ Long ch) ∧
      escapeLenTurn 0 ch + 1 = (escapeByte ch).length ∧ 0 ∉ escapeByte ch :=
    forall_byte (by decide +kernel)
  obtain ⟨hle, hlong, hlen, hzero⟩ := hall ch
  refine ⟨hle, hlong, fun len => ?_, hzero⟩
  have hshift : escapeLenTurn len ch = len + escapeLenTurn 0 ch := by
    unfold escapeLenTurn
    split_ifs
    · omega
    · cases shortEscape ch <;> simp
    · rfl
  omega

theorem length_escapeJson_le (src : List UInt8) : (escapeJson src).length ≤ src.length * 6 := by
  induction src with
  | nil => exact Nat.le_refl _
  | cons ch src ih =>
    have hle := (escapeByte_spec ch).1
    rw [escapeJson] at ih ⊢
    rw [List.flatMap_cons, List.length_append, List.length_cons]
    omega

/-- The buffer is full exactly where every byte takes six. -/
theorem length_escapeJson_eq_iff (src : List UInt8) :
    (escapeJson src).length = src.length * 6 ↔ ∀ ch ∈ src, Long ch := by
  induction src with
  | nil => simp [escapeJson]
  | cons ch src ih =>
    obtain ⟨hle, hlong, -, -⟩ := escapeByte_spec ch
    have hrest := length_escapeJson_le src
    rw [List.forall_mem_cons, ← hlong, ← ih]
    rw [escapeJson] at hrest ⊢
    rw [escapeJson, List.flatMap_cons, List.length_append, List.length_cons]
    omega

/-- **Both modes agree.** -/
theorem escapeJsonLen_eq (src : List UInt8) :
    src.length + escapeJsonLen src = (escapeJson src).length := by
  have hfold : ∀ len, src.length + src.foldl escapeLenTurn len =
      len + (escapeJson src).length := by
    induction src with
    | nil => simp [escapeJson]
    | cons ch src ih =>
      intro len
      have hturn := (escapeByte_spec ch).2.2.1 len
      have hrest := ih (escapeLenTurn len ch)
      rw [escapeJson] at hrest ⊢
      rw [List.foldl_cons, List.length_cons, List.flatMap_cons, List.length_append]
      omega
  rw [escapeJsonLen, hfold, Nat.zero_add]

theorem zero_notMem_escapeJson (src : List UInt8) : 0 ∉ escapeJson src := by
  rw [escapeJson, List.mem_flatMap]
  rintro ⟨ch, -, hch⟩
  exact (escapeByte_spec ch).2.2.2 hch

/-- The first zero is behind the text. -/
theorem findIdx?_append_zeros {text : List UInt8} (h : 0 ∉ text) (n : ℕ) :
    (text ++ List.replicate n 0).findIdx? (· = 0) = if n = 0 then none else some text.length := by
  induction text with
  | nil => cases n <;> simp [List.replicate_succ, List.findIdx?_cons]
  | cons c text ih =>
    rw [List.mem_cons, not_or] at h
    have hc : ¬ c = 0 := fun heq => h.1 heq.symm
    rw [List.cons_append, List.findIdx?_cons, ih h.2]
    cases n <;> simp [hc]

/-- **A key in the page.** What is written for it is the body of a JSON string that means the key
and nothing else; it is as long as is counted, and fits the buffer. If a length is found in the
buffer, it is that of the text; and one is found there exactly if some byte of the key did not take
six. -/
theorem escapeJsonPool_spec (dst : List UInt8) :
    JsonBody (escapeJson dst) dst ∧ (∀ m, JsonBody (escapeJson dst) m → m = dst) ∧
      (escapeJson dst).length = dst.length + escapeJsonLen dst ∧
      (escapeJson dst).length ≤ dst.length * 6 ∧
      (∀ text, escapeJsonPool dst = some text → text = escapeJson dst) ∧
      (escapeJsonPool dst = none ↔ ∀ ch ∈ dst, Long ch) := by
  have hbody := jsonBody_escapeJson dst
  have hle := length_escapeJson_le dst
  have hpool : escapeJsonPool dst =
      if dst.length * 6 - (escapeJson dst).length = 0 then none else some (escapeJson dst) := by
    rw [escapeJsonPool, findIdx?_append_zeros (zero_notMem_escapeJson dst)]
    split_ifs
    · rfl
    · rw [Option.map_some, List.take_left]
  refine ⟨hbody, fun m hm => hm.unique hbody, (escapeJsonLen_eq dst).symm, hle, ?_, ?_⟩
  · intro text htext
    rw [hpool] at htext
    split_ifs at htext
    exact (Option.some.inj htext).symm
  · rw [hpool, ← length_escapeJson_eq_iff]
    split_ifs with hfull
    · exact iff_of_true rfl (by omega)
    · exact iff_of_false (by simp) (by omega)

/-- The key `a"` in the page; a key of one control character is not found in its buffer. -/
example : escapeJsonPool [0x61, 0x22] = some [0x61, 0x5c, 0x22] ∧ escapeJsonPool [1] = none := by
  decide +kernel

end NginxTools.VhostTrafficStatus
