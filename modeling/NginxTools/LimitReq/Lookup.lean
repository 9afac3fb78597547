import NginxTools.LimitReq.BurstLevel

/-!
# The burst level and the limiter's own count

`ngx_http_limit_req_lookup` and the reader of the burst level (`BurstLevel`) both drain a node's
excess. The limiter takes care of a node whose time stamp lies ahead of the worker's cached clock,
another worker having updated it:

    ms = (ngx_msec_int_t) (now - lr->last);
    if (ms < -60000) { ms = 1; } else if (ms < 0) { ms = 0; }
    excess = lr->excess - ctx->rate * ms / 1000 + 1000;
    if (excess < 0) { excess = 0; }

The reader multiplies the negative `ms` by the unsigned rate.

## The model

`lookupMs`, `lookupDrained` and `lookupExcess` are the three lines, in the arithmetic of the C
types. `oneNode` is a zone with one key.

## What is proved

Within the bounds of `Bounded` the limiter's arithmetic is exact (`lookupDrained_toInt`,
`lookupExcess_toInt`). The reader sees no level at all on a node that is ahead of its clock
(`nodeLevel?_of_ahead`), so that it agrees with the limiter exactly when the clock has reached the
node or the limiter finds nothing left either (`level_agrees_iff`).
-/

namespace NginxTools.LimitReq

/-! ### The limiter -/

/-- The elapsed time as the limiter takes it, in milliseconds. -/
def lookupMs (now : UInt64) (lr : LimitReqNode) : Int64 :=
  let ms := (now - lr.last).toInt64
  if ms < -60000 then 1 else if ms < 0 then 0 else ms

/-- `lr->excess - ctx->rate * ms / 1000`. -/
def lookupDrained (rate now : UInt64) (lr : LimitReqNode) : Int64 :=
  (lr.excess - rate * (lookupMs now lr).toUInt64 / 1000).toInt64

/-- `excess`, with the request that is looked up. -/
def lookupExcess (rate now : UInt64) (lr : LimitReqNode) : Int64 :=
  let excess := (lr.excess - rate * (lookupMs now lr).toUInt64 / 1000 + 1000).toInt64
  if excess < 0 then 0 else excess

/-- The time from the node's last update to `now`. -/
def elapsed (now : UInt64) (lr : LimitReqNode) : ℤ := (now.toNat : ℤ) - lr.last.toNat

/-- The bounds within which nothing wraps that need not. -/
structure Bounded (rate now : UInt64) (lr : LimitReqNode) : Prop where
  /-- There is a rate. -/
  pos : 1 ≤ rate.toNat
  /-- What drains in the time between the two clocks fits. -/
  rate : rate.toNat * (elapsed now lr).natAbs < 2 ^ 63
  /-- The level fits an `int`. -/
  excess : lr.excess.toNat < 2 ^ 31 * 1000 - 1000

/-- The milliseconds for which the limiter drains. -/
def drainMs (now : UInt64) (lr : LimitReqNode) : ℕ :=
  if elapsed now lr < -60000 then 1 else (elapsed now lr).toNat

theorem natAbs_elapsed_lt {rate now : UInt64} {lr : LimitReqNode} (h : Bounded rate now lr) :
    (elapsed now lr).natAbs < 2 ^ 63 := by
  have hr := h.rate
  have hle := Nat.le_mul_of_pos_left (elapsed now lr).natAbs h.pos
  omega

/-- A difference that fits is the signed reading of the unsigned one. -/
theorem toInt_toInt64_sub {a b : UInt64} (h : ((a.toNat : ℤ) - b.toNat).natAbs < 2 ^ 63) :
    (a - b).toInt64.toInt = (a.toNat : ℤ) - b.toNat := by
  have ha := a.toNat_lt
  have hb := b.toNat_lt
  rw [← UInt64.ofNat_toNat (x := a - b), UInt64.toInt64_ofNat', Int64.toInt_ofNat',
    UInt64.toNat_sub]
  simp only [Int64.size]
  rw [Int.bmod_def]
  omega

/-- The signed difference of the two clocks is exact. -/
theorem toInt_elapsed {rate now : UInt64} {lr : LimitReqNode} (h : Bounded rate now lr) :
    (now - lr.last).toInt64.toInt = elapsed now lr := toInt_toInt64_sub (natAbs_elapsed_lt h)

theorem toNat_lookupMs {rate now : UInt64} {lr : LimitReqNode} (h : Bounded rate now lr) :
    (lookupMs now lr).toUInt64.toNat = drainMs now lr := by
  have hms := toInt_elapsed h
  have h60 : (-60000 : Int64).toInt = -60000 := by decide
  have h0 : (0 : Int64).toInt = 0 := by decide
  simp only [lookupMs, drainMs, Int64.lt_iff_toInt_lt, hms, h60, h0]
  split_ifs with hfar hneg
  · rfl
  · rw [Int.toNat_of_nonpos (by omega)]
    rfl
  · have hle : lr.last.toNat ≤ now.toNat := by unfold elapsed at hneg; omega
    rw [UInt64.toUInt64_toInt64, UInt64.toNat_sub_of_le _ _ (UInt64.le_iff_toNat_le.mpr hle)]
    unfold elapsed
    omega

theorem mul_drainMs_lt {rate now : UInt64} {lr : LimitReqNode} (h : Bounded rate now lr) :
    rate.toNat * drainMs now lr < 2 ^ 63 := by
  have hle : drainMs now lr ≤ (elapsed now lr).natAbs := by
    unfold drainMs
    split_ifs <;> omega
  exact Nat.lt_of_le_of_lt (Nat.mul_le_mul_left _ hle) h.rate

/-- What drains is exact. -/
theorem toNat_drain {rate now : UInt64} {lr : LimitReqNode} (h : Bounded rate now lr) :
    (rate * (lookupMs now lr).toUInt64 / 1000).toNat = rate.toNat * drainMs now lr / 1000 := by
  have hlt := mul_drainMs_lt h
  rw [UInt64.toNat_div, UInt64.toNat_mul, toNat_lookupMs h, Nat.mod_eq_of_lt (by omega)]
  rfl

/-- **The limiter's arithmetic is exact**: what is left of the excess, negative when more has
drained. -/
theorem lookupDrained_toInt {rate now : UInt64} {lr : LimitReqNode} (h : Bounded rate now lr) :
    (lookupDrained rate now lr).toInt =
      (lr.excess.toNat : ℤ) - (rate.toNat * drainMs now lr / 1000 : ℕ) := by
  have hd := toNat_drain h
  have hlt := mul_drainMs_lt h
  have he := h.excess
  rw [lookupDrained, toInt_toInt64_sub (by omega), hd]

/-- A request that is looked up adds its thousand to what is left, or starts from nothing. -/
theorem lookupExcess_toInt {rate now : UInt64} {lr : LimitReqNode} (h : Bounded rate now lr) :
    (lookupExcess rate now lr).toInt = max 0 ((lookupDrained rate now lr).toInt + 1000) := by
  have hd := toNat_drain h
  have hlt := mul_drainMs_lt h
  have he := h.excess
  have h0 : (0 : Int64).toInt = 0 := by decide
  have hadd : (lr.excess + 1000).toNat = lr.excess.toNat + 1000 := by
    rw [UInt64.toNat_add, Nat.mod_eq_of_lt (by simp; omega)]
    rfl
  have hsum : lr.excess - rate * (lookupMs now lr).toUInt64 / 1000 + 1000 =
      lr.excess + 1000 - rate * (lookupMs now lr).toUInt64 / 1000 := by grind
  have hexcess : (lr.excess - rate * (lookupMs now lr).toUInt64 / 1000 + 1000).toInt64.toInt =
      (lookupDrained rate now lr).toInt + 1000 := by
    rw [hsum, toInt_toInt64_sub (by omega), lookupDrained_toInt h, hadd, hd]
    omega
  simp only [lookupExcess, Int64.lt_iff_toInt_lt, hexcess, h0]
  split_ifs with hneg
  · rw [h0, max_eq_left (by omega)]
  · rw [hexcess, max_eq_right (by omega)]

/-! ### The reader -/

/-- **The reader sees no level on a node that is ahead of its clock**: the negative time
becomes a large unsigned one. -/
theorem nodeLevel?_of_ahead {rate now : UInt64} {lr : LimitReqNode} (h : Bounded rate now lr)
    (hahead : now.toNat < lr.last.toNat) : nodeLevel? rate now lr = none := by
  have hlast := lr.last.toNat_lt
  have he := h.excess
  have hr := h.rate
  have hpos := h.pos
  obtain ⟨k, hk⟩ : ∃ k, lr.last.toNat = now.toNat + k := ⟨lr.last.toNat - now.toNat, by omega⟩
  have hk0 : 0 < k := by omega
  have habs : (elapsed now lr).natAbs = k := by unfold elapsed; omega
  rw [habs] at hr
  have hrk : 0 < rate.toNat * k := Nat.mul_pos hpos hk0
  have hsub : (now - lr.last).toNat = 2 ^ 64 - k := by
    rw [UInt64.toNat_sub]
    omega
  have hmul : (rate * (now - lr.last)).toNat = 2 ^ 64 - rate.toNat * k := by
    have hsum : rate.toNat * (2 ^ 64 - k) + rate.toNat * k = rate.toNat * 2 ^ 64 := by
      rw [← Nat.mul_add, Nat.sub_add_cancel (by omega)]
    rw [UInt64.toNat_mul, hsub]
    omega
  have hval2 : (rate * (now - lr.last) / 1000).toInt64.toInt =
      ((2 ^ 64 - rate.toNat * k) / 1000 : ℕ) := by
    rw [toInt_toInt64_of_lt, UInt64.toNat_div, hmul]
    · rfl
    · rw [UInt64.toNat_div, hmul]
      show (2 ^ 64 - rate.toNat * k) / 1000 < 2 ^ 63
      omega
  have hval1 : lr.excess.toInt64.toInt = lr.excess.toNat := toInt_toInt64_of_lt (by omega)
  simp only [nodeLevel?, UInt64.toUInt64_toInt64]
  refine if_neg ?_
  rw [gt_iff_lt, Int64.lt_iff_toInt_lt, hval1, hval2]
  omega

/-! ### When they agree -/

/-- A zone with one key. -/
def oneNode (rate : UInt64) (lr stray : LimitReqNode) : LimitReqCtx :=
  ⟨rate, .node .sentinel lr .sentinel, stray⟩

/-- A level for what is left of an excess: none for nothing, and otherwise the whole requests
it amounts to, rounded either way. -/
def Agrees (level : Int32) (d : ℤ) : Prop :=
  (d ≤ 0 → level = 0) ∧
    (0 < d → 0 < level.toInt ∧ (level.toInt - 1) * 1000 ≤ d ∧ d ≤ level.toInt * 1000)

instance (level : Int32) (d : ℤ) : Decidable (Agrees level d) := inferInstanceAs (Decidable (_ ∧ _))

/-- The clock has reached the node's last update, or the limiter finds nothing left either: no
excess at all, or no more than drains in the one millisecond it takes for a clock that is far
behind. -/
def InStep (rate now : UInt64) (lr : LimitReqNode) : Prop :=
  lr.last.toNat ≤ now.toNat ∨
    if now.toNat + 60000 < lr.last.toNat then lr.excess.toNat ≤ rate.toNat / 1000
      else lr.excess.toNat = 0

theorem agrees_zero_iff {d : ℤ} : Agrees 0 d ↔ d ≤ 0 := by
  constructor
  · intro h
    by_contra hd
    have hpos := (h.2 (by omega)).1
    simp at hpos
  · intro hd
    exact ⟨fun _ => rfl, fun hpos => absurd hd (by omega)⟩

/-- The whole requests that the reader counts. -/
theorem agrees_of_toInt {v : Int32} {d : ℤ} (hd : 0 < d) (hv : v.toInt = (d + 1000) / 1000) :
    Agrees v d := by
  refine ⟨fun h => absurd h (by omega), fun _ => ⟨?_, ?_, ?_⟩⟩ <;> omega

/-- The limiter drains as the reader does when the clock has reached the node. -/
theorem lookupDrained_of_le {rate now : UInt64} {lr : LimitReqNode} (h : Bounded rate now lr)
    (hle : lr.last.toNat ≤ now.toNat) :
    (lookupDrained rate now lr).toInt = drained rate now lr := by
  have hms : drainMs now lr = now.toNat - lr.last.toNat := by
    unfold drainMs elapsed
    rw [if_neg (by omega)]
    omega
  rw [lookupDrained_toInt h, hms, drained]

theorem Bounded.sane {rate now : UInt64} {lr : LimitReqNode} (h : Bounded rate now lr)
    (hle : lr.last.toNat ≤ now.toNat) : Sane rate now lr := by
  have habs : (elapsed now lr).natAbs = now.toNat - lr.last.toNat := by unfold elapsed; omega
  have hr := h.rate
  rw [habs] at hr
  exact ⟨hle, hr, h.excess⟩

/-- Nothing is left by the limiter's count of a node that is ahead. -/
theorem lookupDrained_nonpos_iff {rate now : UInt64} {lr : LimitReqNode} (h : Bounded rate now lr)
    (hahead : now.toNat < lr.last.toNat) :
    (lookupDrained rate now lr).toInt ≤ 0 ↔ InStep rate now lr := by
  rw [lookupDrained_toInt h]
  unfold InStep drainMs elapsed
  by_cases hfar : now.toNat + 60000 < lr.last.toNat
  · rw [if_pos hfar, if_pos (by omega)]
    omega
  · rw [if_neg hfar, if_neg (by omega), Int.toNat_of_nonpos (by omega)]
    omega

/-- The reader's result for a zone with one key. -/
def levelOf (rate now : UInt64) (lr stray : LimitReqNode) : Int32 :=
  limitReqStatsGet (fun _ : Unit => oneNode rate lr stray) now (some ⟨[()]⟩)

theorem levelOf_of_none {rate now : UInt64} {lr : LimitReqNode} (stray : LimitReqNode)
    (h : nodeLevel? rate now lr = none) : levelOf rate now lr stray = 0 := by
  show limitLevel (oneNode rate lr stray) now 0 = 0
  exact limitLevel_of_none (Int32.le_refl 0) h

theorem levelOf_of_some {rate now : UInt64} {lr : LimitReqNode} (stray : LimitReqNode) {v : Int32}
    (h : nodeLevel? rate now lr = some v) (hv : 0 ≤ v) : levelOf rate now lr stray = v := by
  show limitLevel (oneNode rate lr stray) now 0 = v
  have hroot : nodeLevel? (oneNode rate lr stray).rate now (oneNode rate lr stray).root = some v :=
    h
  simp only [limitLevel, hroot, Option.getD_some]
  exact if_neg (Int32.not_lt.mpr hv)

/-- **When the burst level agrees with the limiter's own count**: for a zone with one key, exactly
when the reader's clock has reached the node, or nothing is left of it. -/
theorem level_agrees_iff {rate now : UInt64} {lr : LimitReqNode} (stray : LimitReqNode)
    (h : Bounded rate now lr) :
    Agrees (levelOf rate now lr stray) (lookupDrained rate now lr).toInt ↔ InStep rate now lr := by
  by_cases hle : lr.last.toNat ≤ now.toNat
  · refine iff_of_true ?_ (.inl hle)
    rw [lookupDrained_of_le h hle]
    rcases nodeLevel?_of_sane (h.sane hle) with ⟨hd, hnone⟩ | ⟨hd, v, hsome, hv⟩
    · rw [levelOf_of_none stray hnone]
      exact agrees_zero_iff.mpr hd
    · have hv0 : 0 ≤ v := by rw [Int32.le_iff_toInt_le, hv, Int32.toInt_zero]; omega
      rw [levelOf_of_some stray hsome hv0]
      exact agrees_of_toInt hd hv
  · have hahead : now.toNat < lr.last.toNat := by omega
    rw [levelOf_of_none stray (nodeLevel?_of_ahead h hahead), agrees_zero_iff]
    exact lookupDrained_nonpos_iff h hahead

/-- The node of a key updated one millisecond ahead of the reader's clock, with five requests. -/
theorem bounded_ahead : Bounded 10000 1000 ⟨1001, 5000⟩ := ⟨by decide, by decide, by decide⟩

/-- The condition at a node that is ahead. -/
theorem level_agrees_iff_ahead :
    Agrees (levelOf 10000 1000 ⟨1001, 5000⟩ ⟨0, 0⟩) (lookupDrained 10000 1000 ⟨1001, 5000⟩).toInt ↔
      InStep 10000 1000 ⟨1001, 5000⟩ :=
  level_agrees_iff ⟨0, 0⟩ bounded_ahead

/-- On that node the reader's level is `0` while the limiter counts five requests. -/
theorem level_zero_on_node_ahead :
    ¬ ∀ (rate now : UInt64) (lr stray : LimitReqNode), Bounded rate now lr →
      Agrees (levelOf rate now lr stray) (lookupDrained rate now lr).toInt := by
  intro h
  have hno : ¬ Agrees (levelOf 10000 1000 ⟨1001, 5000⟩ ⟨0, 0⟩)
      (lookupDrained 10000 1000 ⟨1001, 5000⟩).toInt := by decide
  exact hno (h _ _ _ ⟨0, 0⟩ bounded_ahead)

end NginxTools.LimitReq
