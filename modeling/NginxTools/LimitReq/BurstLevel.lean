import Mathlib.Algebra.Order.Ring.Int
import Mathlib.Data.List.Induction
import Mathlib.Tactic.Common

/-!
# The reported burst level

The repository patches the traffic status module so that its status document carries, as
`nowMsec`, how many requests the request limiter holds back. `_limit_req_stats_init` runs
once for each merged location and remembers the limiter's configuration there;
`_limit_req_stats_get` goes through the limits of that configuration:

    node = ctx->sh->rbtree.root;
    lr = (ngx_http_limit_req_node_t *) &node->color;
    ...
    ms = (ngx_msec_int_t) (now - lr->last);
    int64_t val1 = (int64_t)lr->excess;
    int64_t val2 = (int64_t)((ctx->rate * ms)/1000);
    if(val1 > val2) excess = (val1 - val2 + 1000)/1000;
    if(excess < 0) excess = 0;

## The model

A zone (`LimitReqCtx`) has its rate and its tree; of a node only `last` and `excess` are
read. When the tree is empty its root is the sentinel, which has no node behind it: `stray`
is whatever memory holds there. The arithmetic is that of the C types, `ngx_uint_t` times
`int64_t` being unsigned. `ζ` names the zones.

## What is proved

`drained` is the excess that is left of a node's at `now`, as the limiter itself counts it. On a
node within the bounds of `Sane` the reader's arithmetic is exact (`nodeLevel?_of_sane`). But it
looks at one node of each zone, of one location: `limitReqStatsGet_ne_zero_iff` says exactly when
its result is not `0`, and `zero_iff_not_queued_iff` exactly when that agrees with whether anything
is queued.
-/

namespace NginxTools.LimitReq

/-! ### What the reader sees -/

/-- The words of a `ngx_http_limit_req_node_t` that are read. -/
structure LimitReqNode where
  /-- When the node was last updated, in milliseconds. -/
  last : UInt64
  /-- The excess at that time, in thousandths of a request. -/
  excess : UInt64

/-- A zone's red-black tree: the sentinel, or a node between two subtrees. -/
inductive Rbtree where
  /-- The sentinel. -/
  | sentinel
  /-- A node. -/
  | node (left : Rbtree) (lr : LimitReqNode) (right : Rbtree)

/-- The nodes of a tree. -/
def Rbtree.nodes : Rbtree → List LimitReqNode
  | .sentinel => []
  | .node left lr right => left.nodes ++ lr :: right.nodes

/-- A zone of the limiter. -/
structure LimitReqCtx where
  /-- The rate, in thousandths of a request a second. -/
  rate : UInt64
  /-- The tree of the zone's keys. -/
  rbtree : Rbtree
  /-- What memory holds where a node's words would be, behind the sentinel. -/
  stray : LimitReqNode

/-- `lr`, the words at the root of the zone's tree. -/
def LimitReqCtx.root (ctx : LimitReqCtx) : LimitReqNode :=
  match ctx.rbtree with
  | .sentinel => ctx.stray
  | .node _ lr _ => lr

/-- A location's limiter configuration: the zones of its limits, in order. -/
structure LimitReqConf (ζ : Type) where
  /-- `limits`. -/
  limits : List ζ

/-! ### The two functions -/

/-- `_limit_req_stats_init`: a configuration that has limits replaces the one remembered. -/
def limitReqStatsInit {ρ : Type} (nelts : ρ → ℕ) (lrcf : ρ) (statsLrcf : Option ρ) : Option ρ :=
  if nelts lrcf ≠ 0 then some lrcf else statsLrcf

/-- The level a node shows, when the reader takes it to have any. -/
def nodeLevel? (rate now : UInt64) (lr : LimitReqNode) : Option Int32 :=
  let ms : Int64 := (now - lr.last).toInt64
  let val1 : Int64 := lr.excess.toInt64
  let val2 : Int64 := (rate * ms.toUInt64 / 1000).toInt64
  if val1 > val2 then some ((val1 - val2 + 1000) / 1000).toInt32 else none

/-- One turn of the reader's loop, on the accumulator `excess`. -/
def limitLevel (ctx : LimitReqCtx) (now : UInt64) (excess : Int32) : Int32 :=
  let excess := (nodeLevel? ctx.rate now ctx.root).getD excess
  if excess < 0 then 0 else excess

variable {ζ : Type}

/-- `_limit_req_stats_get`, with the configuration remembered and the contents of the zones. -/
def limitReqStatsGet (zone : ζ → LimitReqCtx) (now : UInt64) (statsLrcf : Option (LimitReqConf ζ)) :
    Int32 :=
  match statsLrcf with
  | none => 0
  | some lrcf => lrcf.limits.foldl (fun excess z => limitLevel (zone z) now excess) 0

/-- What is remembered after the locations have been merged, in the order of the list. -/
def mergedLrcf (confs : List (LimitReqConf ζ)) : Option (LimitReqConf ζ) :=
  confs.foldl (fun p lrcf => limitReqStatsInit (fun c => c.limits.length) lrcf p) none

/-! ### What is queued -/

/-- The excess left of a node's at `now`, in thousandths of a request. -/
def drained (rate now : UInt64) (lr : LimitReqNode) : ℤ :=
  (lr.excess.toNat : ℤ) - (rate.toNat * (now.toNat - lr.last.toNat) / 1000 : ℕ)

/-- The bounds within which the reader's arithmetic does not wrap. -/
structure Sane (rate now : UInt64) (lr : LimitReqNode) : Prop where
  /-- The node was not updated after `now`. -/
  last : lr.last.toNat ≤ now.toNat
  /-- What has drained since then fits. -/
  rate : rate.toNat * (now.toNat - lr.last.toNat) < 2 ^ 63
  /-- The level fits an `int`. -/
  excess : lr.excess.toNat < 2 ^ 31 * 1000 - 1000

/-- Some node of a zone has excess left. -/
def QueuedIn (ctx : LimitReqCtx) (now : UInt64) : Prop :=
  ∃ lr ∈ ctx.rbtree.nodes, 0 < drained ctx.rate now lr

/-- Some node of a zone that a location's configuration uses has excess left. -/
def Queued (zone : ζ → LimitReqCtx) (now : UInt64) (confs : List (LimitReqConf ζ)) : Prop :=
  ∃ lrcf ∈ confs, ∃ z ∈ lrcf.limits, QueuedIn (zone z) now

/-! ### The arithmetic on a node within bounds -/

theorem toInt_toInt64_of_lt {x : UInt64} (h : x.toNat < 2 ^ 63) : x.toInt64.toInt = x.toNat := by
  rw [← UInt64.ofNat_toNat (x := x), UInt64.toInt64_ofNat',
    Int64.toInt_ofNat_of_lt (by simpa using h)]
  simp

theorem toNat_elapsed {rate now : UInt64} {lr : LimitReqNode} (h : Sane rate now lr) :
    (rate * (now - lr.last).toInt64.toUInt64 / 1000).toNat =
      rate.toNat * (now.toNat - lr.last.toNat) / 1000 := by
  have hsub : (now - lr.last).toNat = now.toNat - lr.last.toNat :=
    UInt64.toNat_sub_of_le _ _ (UInt64.le_iff_toNat_le.mpr h.last)
  have hr := h.rate
  rw [UInt64.toUInt64_toInt64, UInt64.toNat_div, UInt64.toNat_mul, hsub,
    Nat.mod_eq_of_lt (by omega)]
  rfl

/-- **The level of a node within bounds**: none when nothing is left, otherwise what is
left in whole requests, rounded up past the next one. -/
theorem nodeLevel?_of_sane {rate now : UInt64} {lr : LimitReqNode} (h : Sane rate now lr) :
    (drained rate now lr ≤ 0 ∧ nodeLevel? rate now lr = none) ∨
      (0 < drained rate now lr ∧
        ∃ v, nodeLevel? rate now lr = some v ∧ v.toInt = (drained rate now lr + 1000) / 1000) := by
  have hval2 := toNat_elapsed h
  have hr := h.rate
  have he := h.excess
  set ms : Int64 := (now - lr.last).toInt64 with hms
  have h1 : lr.excess.toInt64.toInt = lr.excess.toNat := toInt_toInt64_of_lt (by omega)
  have h2 : (rate * ms.toUInt64 / 1000).toInt64.toInt =
      (rate.toNat * (now.toNat - lr.last.toNat) / 1000 : ℕ) := by
    rw [toInt_toInt64_of_lt (by omega), hval2]
  have hgt : lr.excess.toInt64 > (rate * ms.toUInt64 / 1000).toInt64 ↔ 0 < drained rate now lr := by
    rw [gt_iff_lt, Int64.lt_iff_toInt_lt, h1, h2, drained]
    omega
  have hthousand : (1000 : Int64).toInt = 1000 := by decide
  by_cases hd : 0 < drained rate now lr
  · refine .inr ⟨hd, _, if_pos (hgt.mpr hd), ?_⟩
    have hb : drained rate now lr ≤ lr.excess.toNat := by unfold drained; omega
    have hdiff : (lr.excess.toInt64 - (rate * ms.toUInt64 / 1000).toInt64).toInt =
        drained rate now lr := by
      rw [Int64.toInt_sub, h1, h2, ← drained]
      exact Int.bmod_eq_of_le (by omega) (by omega)
    have hsum : (lr.excess.toInt64 - (rate * ms.toUInt64 / 1000).toInt64 + 1000).toInt =
        drained rate now lr + 1000 := by
      rw [Int64.toInt_add, hdiff, hthousand]
      exact Int.bmod_eq_of_le (by omega) (by omega)
    have hdiv : ((lr.excess.toInt64 - (rate * ms.toUInt64 / 1000).toInt64 + 1000) / 1000).toInt =
        (drained rate now lr + 1000) / 1000 := by
      rw [Int64.toInt_div, hsum, hthousand, Int.tdiv_eq_ediv_of_nonneg (by omega)]
      exact Int.bmod_eq_of_le (by omega) (by omega)
    rw [Int64.toInt_toInt32, hdiv]
    exact Int.bmod_eq_of_le (by omega) (by omega)
  · exact .inl ⟨by omega, if_neg (hgt.not.mpr hd)⟩

/-! ### What the reader's result shows -/

/-- The root of the zone's tree is a node with excess left. -/
def RootQueued (ctx : LimitReqCtx) (now : UInt64) : Prop :=
  ∃ left lr right, ctx.rbtree = .node left lr right ∧ 0 < drained ctx.rate now lr

/-- The tree is empty, and the memory behind its sentinel reads as the level `v`. -/
def StrayLevel (ctx : LimitReqCtx) (now : UInt64) (v : Int32) : Prop :=
  ctx.rbtree = .sentinel ∧ nodeLevel? ctx.rate now ctx.stray = some v

/-- The zone makes the reader's accumulator positive: its root has excess left, or its
tree is empty and the memory behind the sentinel reads as a positive level. -/
def Raises (ctx : LimitReqCtx) (now : UInt64) : Prop :=
  RootQueued ctx now ∨ ∃ v, StrayLevel ctx now v ∧ 0 < v

/-- The zone clears the reader's accumulator: its tree is empty and the memory behind
the sentinel reads as a level that is not positive once cut to an `int`. -/
def Clears (ctx : LimitReqCtx) (now : UInt64) : Prop := ∃ v, StrayLevel ctx now v ∧ v ≤ 0

/-- Some zone of the list raises the accumulator, and none after it clears it. -/
def ShownBy (zone : ζ → LimitReqCtx) (now : UInt64) (limits : List ζ) : Prop :=
  ∃ pre z post, limits = pre ++ z :: post ∧ Raises (zone z) now ∧
    ∀ z' ∈ post, ¬ Clears (zone z') now

/-- Something is shown by the limits of the last merged location that has any. -/
def Shown (zone : ζ → LimitReqCtx) (now : UInt64) (confs : List (LimitReqConf ζ)) : Prop :=
  ∃ pre lrcf post, confs = pre ++ lrcf :: post ∧ (∀ c ∈ post, c.limits = []) ∧
    ShownBy zone now lrcf.limits

theorem root_mem_nodes {left right : Rbtree} {lr : LimitReqNode} :
    lr ∈ (Rbtree.node left lr right).nodes := by
  simp [Rbtree.nodes]

theorem limitLevel_nonneg (ctx : LimitReqCtx) (now : UInt64) (e : Int32) :
    0 ≤ limitLevel ctx now e := by
  simp only [limitLevel]
  split_ifs with h
  · exact Int32.le_refl 0
  · exact Int32.not_lt.mp h

/-- The accumulator after a zone whose root shows the level `v`. -/
theorem limitLevel_of_some {ctx : LimitReqCtx} {now : UInt64} {v : Int32} (e : Int32)
    (h : nodeLevel? ctx.rate now ctx.root = some v) : 0 < limitLevel ctx now e ↔ 0 < v := by
  simp only [limitLevel, h, Option.getD_some]
  split_ifs with hv
  · exact ⟨fun h0 => absurd h0 Int32.lt_irrefl,
      fun h0 => absurd (Int32.lt_trans hv h0) Int32.lt_irrefl⟩
  · rfl

/-- The accumulator after a zone whose root shows nothing. -/
theorem limitLevel_of_none {ctx : LimitReqCtx} {now : UInt64} {e : Int32} (he : 0 ≤ e)
    (h : nodeLevel? ctx.rate now ctx.root = none) : limitLevel ctx now e = e := by
  simp only [limitLevel, h, Option.getD_none]
  exact if_neg (Int32.not_lt.mpr he)

/-- **One turn of the loop**: the accumulator is positive after a zone that raises it, and
after one that does not clear a positive one. -/
theorem limitLevel_pos_iff {ctx : LimitReqCtx} {now : UInt64} {e : Int32} (he : 0 ≤ e)
    (h : ∀ lr ∈ ctx.rbtree.nodes, Sane ctx.rate now lr) :
    0 < limitLevel ctx now e ↔ Raises ctx now ∨ (0 < e ∧ ¬ Clears ctx now) := by
  cases htree : ctx.rbtree with
  | node left lr right =>
    have hroot : ctx.root = lr := by simp [LimitReqCtx.root, htree]
    have hclears : ¬ Clears ctx now := by rintro ⟨v, ⟨hs, -⟩, -⟩; simp [htree] at hs
    rcases nodeLevel?_of_sane (h lr (htree ▸ root_mem_nodes)) with ⟨hd, hn⟩ | ⟨hd, v, hv, hvi⟩
    · have hraises : ¬ Raises ctx now := by
        rintro (⟨l, lr', r, ht, hpos⟩ | ⟨v, ⟨hs, -⟩, -⟩)
        · rw [htree] at ht; cases ht; omega
        · simp [htree] at hs
      rw [limitLevel_of_none he (hroot ▸ hn)]
      constructor
      · intro hpos
        exact .inr ⟨hpos, hclears⟩
      · intro hor
        exact (hor.resolve_left hraises).1
    · rw [limitLevel_of_some e (hroot ▸ hv)]
      constructor
      · intro _
        exact .inl (.inl ⟨left, lr, right, htree, hd⟩)
      · intro _
        rw [Int32.lt_iff_toInt_lt, hvi, Int32.toInt_zero]
        omega
  | sentinel =>
    have hroot : ctx.root = ctx.stray := by simp [LimitReqCtx.root, htree]
    have hnot : ¬ RootQueued ctx now := by rintro ⟨l, lr, r, ht, -⟩; simp [htree] at ht
    cases hlevel : nodeLevel? ctx.rate now ctx.stray with
    | none =>
      have hno : ∀ v, ¬ StrayLevel ctx now v := by rintro v ⟨-, hv⟩; simp [hlevel] at hv
      rw [limitLevel_of_none he (hroot ▸ hlevel)]
      refine ⟨fun hpos => .inr ⟨hpos, fun ⟨v, hv, _⟩ => hno v hv⟩, ?_⟩
      rintro ((hq | ⟨v, hv, -⟩) | ⟨hpos, -⟩)
      · exact absurd hq hnot
      · exact absurd hv (hno v)
      · exact hpos
    | some v =>
      have hstray : StrayLevel ctx now v := ⟨htree, hlevel⟩
      rw [limitLevel_of_some e (hroot ▸ hlevel)]
      refine ⟨fun hpos => .inl (.inr ⟨v, hstray, hpos⟩), ?_⟩
      rintro ((hq | ⟨w, ⟨-, hw⟩, hpos⟩) | ⟨-, hc⟩)
      · exact absurd hq hnot
      · rw [hlevel] at hw; cases hw; exact hpos
      · by_contra hv
        exact hc ⟨v, hstray, Int32.not_lt.mp hv⟩

theorem shownBy_cons (zone : ζ → LimitReqCtx) (now : UInt64) (z : ζ) (zs : List ζ) :
    ShownBy zone now (z :: zs) ↔
      ShownBy zone now zs ∨ (Raises (zone z) now ∧ ∀ z' ∈ zs, ¬ Clears (zone z') now) := by
  constructor
  · rintro ⟨pre, w, post, heq, hr, hc⟩
    cases pre with
    | nil =>
      simp only [List.nil_append, List.cons.injEq] at heq
      obtain ⟨rfl, rfl⟩ := heq
      exact .inr ⟨hr, hc⟩
    | cons p pre =>
      simp only [List.cons_append, List.cons.injEq] at heq
      exact .inl ⟨pre, w, post, heq.2, hr, hc⟩
  · rintro (⟨pre, w, post, rfl, hr, hc⟩ | ⟨hr, hc⟩)
    · exact ⟨z :: pre, w, post, rfl, hr, hc⟩
    · exact ⟨[], z, zs, rfl, hr, hc⟩

/-- **The whole loop**: positive exactly when some zone raised the accumulator and none
after it cleared it, or it was positive and nothing cleared it. -/
theorem foldl_limitLevel_pos_iff {zone : ζ → LimitReqCtx} {now : UInt64} {limits : List ζ}
    (h : ∀ z ∈ limits, ∀ lr ∈ (zone z).rbtree.nodes, Sane (zone z).rate now lr) {e : Int32}
    (he : 0 ≤ e) :
    0 < limits.foldl (fun excess z => limitLevel (zone z) now excess) e ↔
      ShownBy zone now limits ∨ (0 < e ∧ ∀ z ∈ limits, ¬ Clears (zone z) now) := by
  induction limits generalizing e with
  | nil =>
    have hnil : ¬ ShownBy zone now [] := by rintro ⟨pre, z, post, heq, -⟩; simp at heq
    simp [hnil]
  | cons z zs ih =>
    rw [List.foldl_cons,
      ih (fun z' hz' => h z' (List.mem_cons_of_mem _ hz')) (limitLevel_nonneg _ _ _),
      limitLevel_pos_iff he (h z List.mem_cons_self), shownBy_cons]
    simp only [List.forall_mem_cons]
    tauto

/-! ### The configuration that is remembered -/

/-- What is remembered is the last merged configuration that has limits. -/
theorem mergedLrcf_append (confs : List (LimitReqConf ζ)) (lrcf : LimitReqConf ζ) :
    mergedLrcf (confs ++ [lrcf]) = if lrcf.limits = [] then mergedLrcf confs else some lrcf := by
  simp only [mergedLrcf, List.foldl_append, List.foldl_cons, List.foldl_nil, limitReqStatsInit]
  by_cases h : lrcf.limits = [] <;> simp [h]

theorem mergedLrcf_eq_some_iff (confs : List (LimitReqConf ζ)) (lrcf : LimitReqConf ζ) :
    mergedLrcf confs = some lrcf ↔
      ∃ pre post, confs = pre ++ lrcf :: post ∧ lrcf.limits ≠ [] ∧ ∀ c ∈ post, c.limits = [] := by
  induction confs using List.reverseRecOn with
  | nil => simp [mergedLrcf]
  | append_singleton confs last ih =>
    rw [mergedLrcf_append]
    split_ifs with hlast
    · rw [ih]
      constructor
      · rintro ⟨pre, post, rfl, hne, hpost⟩
        refine ⟨pre, post ++ [last], by simp, hne, fun c hc => ?_⟩
        rcases List.mem_append.mp hc with hc | hc
        · exact hpost c hc
        · rwa [List.mem_singleton.mp hc]
      · rintro ⟨pre, post, heq, hne, hpost⟩
        induction post using List.reverseRecOn with
        | nil =>
          obtain ⟨-, hl⟩ := List.append_inj' heq rfl
          rw [List.singleton_inj.mp hl] at hlast
          exact absurd hlast hne
        | append_singleton post c _ =>
          rw [← List.cons_append, ← List.append_assoc] at heq
          obtain ⟨rfl, -⟩ := List.append_inj' heq rfl
          exact ⟨pre, post, rfl, hne, fun c hc => hpost c (List.mem_append_left _ hc)⟩
    · rw [Option.some.injEq]
      constructor
      · rintro rfl
        exact ⟨confs, [], rfl, hlast, by simp⟩
      · rintro ⟨pre, post, heq, -, hpost⟩
        induction post using List.reverseRecOn with
        | nil => exact List.singleton_inj.mp (List.append_inj' heq rfl).2
        | append_singleton post c _ =>
          rw [← List.cons_append, ← List.append_assoc] at heq
          obtain ⟨-, hl⟩ := List.append_inj' heq rfl
          rw [List.singleton_inj.mp hl] at hlast
          exact absurd (hpost c (by simp)) hlast

/-! ### Level zero -/

/-- **The result is not zero exactly when something is shown** by the one configuration
that is remembered, through the roots of its zones. -/
theorem limitReqStatsGet_ne_zero_iff {zone : ζ → LimitReqCtx} {now : UInt64}
    {confs : List (LimitReqConf ζ)}
    (h : ∀ lrcf ∈ confs, ∀ z ∈ lrcf.limits, ∀ lr ∈ (zone z).rbtree.nodes,
      Sane (zone z).rate now lr) :
    limitReqStatsGet zone now (mergedLrcf confs) ≠ 0 ↔ Shown zone now confs := by
  cases hm : mergedLrcf confs with
  | none =>
    refine iff_of_false (by simp [limitReqStatsGet]) ?_
    rintro ⟨pre, lrcf, post, hconfs, hpost, hshown⟩
    have hne : lrcf.limits ≠ [] := by
      obtain ⟨pre', z, post', hl, -⟩ := hshown
      simp [hl]
    rw [(mergedLrcf_eq_some_iff confs lrcf).mpr ⟨pre, post, hconfs, hne, hpost⟩] at hm
    cases hm
  | some lrcf =>
    obtain ⟨pre, post, hconfs, hne, hpost⟩ := (mergedLrcf_eq_some_iff confs lrcf).mp hm
    have hmem : lrcf ∈ confs := by simp [hconfs]
    have hfold := foldl_limitLevel_pos_iff (h lrcf hmem) (Int32.le_refl 0)
    have hnonneg : ∀ e : Int32, 0 ≤ e →
        0 ≤ lrcf.limits.foldl (fun excess z => limitLevel (zone z) now excess) e := by
      generalize lrcf.limits = zs
      induction zs with
      | nil => exact fun e he => he
      | cons z zs ih => exact fun e _ => ih _ (limitLevel_nonneg _ _ _)
    have hpos : limitReqStatsGet zone now (some lrcf) ≠ 0 ↔
        0 < limitReqStatsGet zone now (some lrcf) := by
      constructor
      · exact fun hz => Int32.lt_of_le_of_ne (hnonneg 0 (Int32.le_refl 0)) hz.symm
      · rintro hlt hz
        rw [hz] at hlt
        exact absurd hlt Int32.lt_irrefl
    rw [hpos]
    refine hfold.trans ⟨fun hor => ?_, ?_⟩
    · exact ⟨pre, lrcf, post, hconfs, hpost, hor.resolve_right fun h0 => Int32.lt_irrefl h0.1⟩
    · rintro ⟨pre', lrcf', post', hconfs', hpost', hshown⟩
      have hne' : lrcf'.limits ≠ [] := by
        obtain ⟨p, z, q, hl, -⟩ := hshown
        simp [hl]
      have hm' := (mergedLrcf_eq_some_iff confs lrcf').mpr ⟨pre', post', hconfs', hne', hpost'⟩
      rw [hm, Option.some.injEq] at hm'
      exact .inl (hm' ▸ hshown)

/-- **When level zero means that nothing is queued**: exactly when whatever is queued in
some zone is shown by the roots of the last merged configuration that has limits, and
nothing is shown when nothing is queued. -/
theorem zero_iff_not_queued_iff (zone : ζ → LimitReqCtx) (now : UInt64)
    (confs : List (LimitReqConf ζ))
    (h : ∀ lrcf ∈ confs, ∀ z ∈ lrcf.limits, ∀ lr ∈ (zone z).rbtree.nodes,
      Sane (zone z).rate now lr) :
    (limitReqStatsGet zone now (mergedLrcf confs) = 0 ↔ ¬ Queued zone now confs) ↔
      (Queued zone now confs → Shown zone now confs) ∧
      (¬ Queued zone now confs → ¬ Shown zone now confs) := by
  have hz := limitReqStatsGet_ne_zero_iff h
  tauto

/-- A zone of 10 requests a second with two keys: that at the root has drained, and that
below it holds five requests. -/
def twoKeys : LimitReqCtx where
  rate := 10000
  rbtree := .node (.node .sentinel ⟨1000, 5000⟩ .sentinel) ⟨1000, 0⟩ .sentinel
  stray := ⟨0, 0⟩

theorem sane_twoKeys :
    ∀ lrcf ∈ [LimitReqConf.mk [()]], ∀ _z ∈ lrcf.limits, ∀ lr ∈ twoKeys.rbtree.nodes,
    Sane twoKeys.rate 1000 lr := by
  intro _ _ _ _ lr hlr
  simp only [twoKeys, Rbtree.nodes, List.nil_append, List.singleton_append, List.mem_cons,
    List.not_mem_nil, or_false] at hlr
  rcases hlr with rfl | rfl <;> exact ⟨by decide, by decide, by decide⟩

/-- The condition at the zone with two keys. -/
theorem zero_iff_not_queued_iff_twoKeys :
    (limitReqStatsGet (fun _ => twoKeys) 1000 (mergedLrcf [⟨[()]⟩]) = 0 ↔
      ¬ Queued (fun _ => twoKeys) 1000 [⟨[()]⟩]) ↔
      (Queued (fun _ => twoKeys) 1000 [⟨[()]⟩] → Shown (fun _ => twoKeys) 1000 [⟨[()]⟩]) ∧
        (¬ Queued (fun _ => twoKeys) 1000 [⟨[()]⟩] → ¬ Shown (fun _ => twoKeys) 1000 [⟨[()]⟩]) :=
  zero_iff_not_queued_iff (fun _ => twoKeys) 1000 [⟨[()]⟩] sane_twoKeys

/-- A key below the root does not count: the level is `0` while five requests are queued. -/
theorem zero_while_queued_below_root :
    (∀ lrcf ∈ [LimitReqConf.mk [()]], ∀ _z ∈ lrcf.limits, ∀ lr ∈ twoKeys.rbtree.nodes,
      Sane twoKeys.rate 1000 lr) ∧
      ¬ (limitReqStatsGet (fun _ => twoKeys) 1000 (mergedLrcf [⟨[()]⟩]) = 0 ↔
        ¬ Queued (fun _ => twoKeys) 1000 [⟨[()]⟩]) := by
  refine ⟨sane_twoKeys, fun h => ?_⟩
  have hzero : limitReqStatsGet (fun _ => twoKeys) 1000 (mergedLrcf [⟨[()]⟩]) = 0 := by decide
  refine h.mp hzero ⟨⟨[()]⟩, List.mem_singleton.mpr rfl, (), List.mem_singleton.mpr rfl,
    ⟨1000, 5000⟩, ?_, ?_⟩
  · simp [twoKeys, Rbtree.nodes]
  · decide

end NginxTools.LimitReq
