import NginxTools.Core.Rbtree
import Mathlib.Data.List.Lex
import Mathlib.Data.Prod.Lex
import Mathlib.Order.Lex

/-!
# Trees keyed by a string

The zones of the request limiter and of the traffic status module keep one node for each key, a
string of bytes, ordered by its hash and then by its bytes. Their insert functions
(`ngx_http_limit_req_rbtree_insert_value`, `ngx_http_vhost_traffic_status_rbtree_insert_value`) and
the loops that look a key up are the same:

    if (hash < node->key) { node = node->left; continue; }
    if (hash > node->key) { node = node->right; continue; }
    rc = ngx_memn2cmp(key->data, lr->data, key->len, (size_t) lr->len);
    if (rc == 0) { ... }
    node = (rc < 0) ? node->left : node->right;

## The model

`KeyedNode` is what never changes of a node while it is in the tree, with the address of what does.
`memn2cmp` is `ngx_memn2cmp`, of whose result only the sign is used.

## What is proved

`memn2cmp` is the lexicographic order (`memn2cmp_eq_lt_iff`, `memn2cmp_eq_eq_iff`). In a tree kept
in the order of the keys the loop finds a key's node exactly when there is one (`lookupNode_iff`).
-/

namespace NginxTools.Core

open NginxTools.Library
open NginxTools.Library.RbTree

/-! ### Comparing strings -/

/-- `ngx_memcmp`, of as many bytes as both have. -/
def memcmp : List UInt8 → List UInt8 → Ordering
  | a :: as, b :: bs => if a < b then .lt else if b < a then .gt else memcmp as bs
  | _, _ => .eq

/-- `ngx_memn2cmp`. -/
def memn2cmp (s1 s2 : List UInt8) : Ordering :=
  let (n, z) := if s1.length ≤ s2.length then (s1.length, Ordering.lt) else (s2.length, .gt)
  let m := memcmp (s1.take n) (s2.take n)
  if m ≠ .eq ∨ s1.length = s2.length then m else z

/-- The bytes as numbers, which are ordered. -/
def bytes (s : List UInt8) : List ℕ := s.map UInt8.toNat

theorem bytes_inj {s1 s2 : List UInt8} : bytes s1 = bytes s2 ↔ s1 = s2 :=
  (List.map_injective_iff.mpr fun _ _ => UInt8.toNat_inj.mp).eq_iff

theorem memn2cmp_cons (a b : UInt8) (as bs : List UInt8) :
    memn2cmp (a :: as) (b :: bs) =
      if a < b then .lt else if b < a then .gt else memn2cmp as bs := by
  have hcons : ∀ n, memcmp ((a :: as).take (n + 1)) ((b :: bs).take (n + 1)) =
      if a < b then .lt else if b < a then .gt else memcmp (as.take n) (bs.take n) := fun _ => rfl
  simp only [memn2cmp, List.length_cons, Nat.add_le_add_iff_right, Nat.add_right_cancel_iff]
  by_cases hle : as.length ≤ bs.length
  · simp only [hle, ↓reduceIte, hcons]
    by_cases hab : a < b
    · simp [hab]
    · by_cases hba : b < a <;> simp [hab, hba]
  · simp only [hle, ↓reduceIte, hcons]
    by_cases hab : a < b
    · simp [hab]
    · by_cases hba : b < a <;> simp [hab, hba]

theorem memn2cmp_nil_left (s : List UInt8) :
    memn2cmp [] s = if s = [] then .eq else .lt := by
  cases s <;> simp [memn2cmp, memcmp]

theorem memn2cmp_nil_right (a : UInt8) (as : List UInt8) : memn2cmp (a :: as) [] = .gt := by
  simp [memn2cmp, memcmp]

/-- `ngx_memn2cmp` is the lexicographic order, a string before those it begins. -/
theorem memn2cmp_spec (s1 s2 : List UInt8) :
    (memn2cmp s1 s2 = .lt ↔ bytes s1 < bytes s2) ∧ (memn2cmp s1 s2 = .eq ↔ s1 = s2) := by
  induction s1 generalizing s2 with
  | nil => cases s2 <;> simp [memn2cmp_nil_left, bytes]
  | cons a as ih =>
    cases s2 with
    | nil => simp [memn2cmp_nil_right, bytes]
    | cons b bs =>
      obtain ⟨ihlt, iheq⟩ := ih bs
      simp only [bytes] at ihlt
      rw [memn2cmp_cons]
      simp only [bytes, List.map_cons, List.cons_lt_cons_iff, List.cons.injEq, UInt8.toNat_inj,
        UInt8.lt_iff_toNat_lt]
      split_ifs with hab hba
      · refine ⟨by simp [hab], iff_of_false (by simp) ?_⟩
        rintro ⟨rfl, -⟩
        omega
      · refine ⟨iff_of_false (by simp) ?_, iff_of_false (by simp) ?_⟩
        · rintro (h | ⟨rfl, -⟩) <;> omega
        · rintro ⟨rfl, -⟩
          omega
      · obtain rfl : a = b := UInt8.toNat_inj.mp (by omega)
        simp [ihlt, iheq]

theorem memn2cmp_eq_lt_iff {s1 s2 : List UInt8} : memn2cmp s1 s2 = .lt ↔ bytes s1 < bytes s2 :=
  (memn2cmp_spec s1 s2).1

theorem memn2cmp_eq_eq_iff {s1 s2 : List UInt8} : memn2cmp s1 s2 = .eq ↔ s1 = s2 :=
  (memn2cmp_spec s1 s2).2

/-! ### Keyed nodes -/

/-- What never changes of a node in a tree, and where it is in memory. -/
structure KeyedNode where
  /-- Its address. -/
  addr : ℕ
  /-- `key`, the hash of its string. -/
  key : UInt32
  /-- `data`, with its length. -/
  data : List UInt8
deriving DecidableEq

/-- The place of a hash and a string in the order. -/
def place (hash : UInt32) (data : List UInt8) : ℕ ×ₗ List ℕ := toLex (hash.toNat, bytes data)

/-- The place of a node in the order. -/
def KeyedNode.place (e : KeyedNode) : ℕ ×ₗ List ℕ := Core.place e.key e.data

/-- The comparison of the insert function: the node `lrn` goes to the left of `lrnt`. -/
def insertValue (lrn lrnt : KeyedNode) : Bool :=
  if lrn.key < lrnt.key then true
  else if lrn.key > lrnt.key then false
  else memn2cmp lrn.data lrnt.data = .lt

/-- The comparison of the loop that looks a key up. -/
def lookupCmp (hash : UInt32) (key : List UInt8) (e : KeyedNode) : Ordering :=
  if hash < e.key then .lt else if hash > e.key then .gt else memn2cmp key e.data

/-- The loop that looks a key up. -/
def lookupNode (hash : UInt32) (key : List UInt8) (t : RbTree KeyedNode) : Option KeyedNode :=
  t.find? (lookupCmp hash key)

theorem place_inj {h1 h2 : UInt32} {d1 d2 : List UInt8} :
    place h1 d1 = place h2 d2 ↔ h1 = h2 ∧ d1 = d2 := by
  simp [place, bytes_inj, UInt32.toNat_inj]

theorem place_lt_iff {h1 h2 : UInt32} {d1 d2 : List UInt8} :
    place h1 d1 < place h2 d2 ↔ h1 < h2 ∨ h1 = h2 ∧ bytes d1 < bytes d2 := by
  simp [place, Prod.Lex.lt_iff, UInt32.toNat_inj, UInt32.lt_iff_toNat_lt]

/-- The insert function compares places. -/
theorem insertValue_eq (x y : KeyedNode) : insertValue x y = decide (x.place < y.place) := by
  rw [eq_comm, Bool.eq_iff_iff, decide_eq_true_iff, KeyedNode.place, KeyedNode.place, place_lt_iff]
  unfold insertValue
  split_ifs with hlt hgt
  · simp [hlt]
  · have hne : ¬ x.key = y.key := fun h => UInt32.lt_irrefl _ (h ▸ hgt)
    simp [hlt, hne]
  · have heq : x.key = y.key := by
      rw [gt_iff_lt, UInt32.lt_iff_toNat_lt] at hgt
      rw [UInt32.lt_iff_toNat_lt] at hlt
      exact UInt32.toNat_inj.mp (by omega)
    simp [heq, memn2cmp_eq_lt_iff]

theorem lookupCmp_eq_lt_iff {hash : UInt32} {key : List UInt8} {e : KeyedNode} :
    lookupCmp hash key e = .lt ↔ place hash key < e.place := by
  have h := insertValue_eq ⟨0, hash, key⟩ e
  rw [Bool.eq_iff_iff, decide_eq_true_iff] at h
  change _ ↔ place hash key < e.place at h
  rw [← h]
  simp only [lookupCmp, insertValue]
  split_ifs <;> simp

theorem lookupCmp_eq_eq_iff {hash : UInt32} {key : List UInt8} {e : KeyedNode} :
    lookupCmp hash key e = .eq ↔ e.key = hash ∧ e.data = key := by
  unfold lookupCmp
  split_ifs with hlt hgt
  · refine iff_of_false (by simp) ?_
    rintro ⟨rfl, -⟩
    exact UInt32.lt_irrefl _ hlt
  · refine iff_of_false (by simp) ?_
    rintro ⟨rfl, -⟩
    exact UInt32.lt_irrefl _ hgt
  · have heq : e.key = hash := by
      rw [gt_iff_lt, UInt32.lt_iff_toNat_lt] at hgt
      rw [UInt32.lt_iff_toNat_lt] at hlt
      exact UInt32.toNat_inj.mp (by omega)
    rw [memn2cmp_eq_eq_iff, eq_comm]
    simp [heq]

/-! ### Looking a key up -/

/-- What is kept of a keyed tree: its order and balance, and that no key has two nodes. -/
structure KeyedTree (t : RbTree KeyedNode) : Prop where
  /-- The order and the balance. -/
  kept : Kept KeyedNode.place t
  /-- A key has one node. -/
  unique : (t.toList.map KeyedNode.place).Nodup

variable {t u : RbTree KeyedNode} {hash : UInt32} {key : List UInt8} {e : KeyedNode}

theorem KeyedTree.pairwise_lt (h : KeyedTree t) :
    t.toList.Pairwise fun x y => x.place < y.place := by
  have hne : t.toList.Pairwise fun x y => x.place ≠ y.place := List.pairwise_map.mp h.unique
  exact (h.kept.ordered.and hne).imp fun ⟨hle, hne⟩ => lt_of_le_of_ne hle hne

/-- **The loop finds a key's node exactly when there is one.** -/
theorem KeyedTree.lookupNode_iff (h : KeyedTree t) :
    lookupNode hash key t = some e ↔ e ∈ t.toList ∧ e.key = hash ∧ e.data = key := by
  have hcut : Cut (lookupCmp hash key) t.toList := by
    refine h.pairwise_lt.imp fun {x y} hxy => ⟨fun hx => ?_, fun hx => ?_⟩
    · rw [lookupCmp_eq_lt_iff] at hx ⊢
      exact lt_trans hx hxy
    · obtain ⟨rfl, rfl⟩ := lookupCmp_eq_eq_iff.mp hx
      exact lookupCmp_eq_lt_iff.mpr hxy
  rw [lookupNode, find?_eq_some_iff hcut, lookupCmp_eq_eq_iff]

theorem KeyedTree.lookupNode_eq_none_iff (h : KeyedTree t) :
    lookupNode hash key t = none ↔ ∀ e ∈ t.toList, ¬ (e.key = hash ∧ e.data = key) := by
  rw [Option.eq_none_iff_forall_ne_some]
  simp only [ne_eq, h.lookupNode_iff, not_and]

/-- The loop finds a node that one tree has in addition to another, where it is the key's. -/
theorem KeyedTree.lookupNode_cons (h : KeyedTree t) (hash : UInt32) (key : List UInt8)
    (h' : KeyedTree u) (hperm : u.toList.Perm (e :: t.toList)) :
    lookupNode hash key u =
      if e.key = hash ∧ e.data = key then some e else lookupNode hash key t := by
  have hmem : ∀ e', e' ∈ u.toList ↔ e' = e ∨ e' ∈ t.toList := fun e' => by
    rw [hperm.mem_iff, List.mem_cons]
  split_ifs with hkey
  · exact h'.lookupNode_iff.mpr ⟨(hmem e).mpr (.inl rfl), hkey⟩
  · ext e'
    rw [h'.lookupNode_iff, h.lookupNode_iff, hmem]
    constructor
    · rintro ⟨rfl | he', hkey'⟩
      · exact absurd hkey' hkey
      · exact ⟨he', hkey'⟩
    · rintro ⟨he', hkey'⟩
      exact ⟨.inr he', hkey'⟩

/-- A key whose node the one tree has in addition has none in the other. -/
theorem KeyedTree.lookupNode_self (h : KeyedTree t) (h' : KeyedTree u)
    (hperm : u.toList.Perm (e :: t.toList)) : lookupNode e.key e.data t = none := by
  rw [h.lookupNode_eq_none_iff]
  intro e' he' hkey
  have hnodup := (hperm.map KeyedNode.place).nodup_iff.mp h'.unique
  rw [List.map_cons, List.nodup_cons] at hnodup
  exact hnodup.1 (List.mem_map.mpr ⟨e', he', place_inj.mpr hkey⟩)

theorem keyedTree_nil : KeyedTree .nil := ⟨kept_nil, by simp⟩

/-- A key that has no node is inserted. -/
theorem KeyedTree.insert (h : KeyedTree t) (hnew : lookupNode e.key e.data t = none) :
    ∃ u, Core.insert insertValue e t = some u ∧ KeyedTree u ∧ u.toList.Perm (e :: t.toList) := by
  obtain ⟨u, hu, hk, hperm⟩ := h.kept.insert e
  have hcompare : insertValue = fun x y => decide (x.place < y.place) := by
    funext x y
    exact insertValue_eq x y
  refine ⟨u, hcompare ▸ hu, ⟨hk, ?_⟩, hperm⟩
  rw [(hperm.map _).nodup_iff, List.map_cons, List.nodup_cons]
  refine ⟨fun hmem => ?_, h.unique⟩
  obtain ⟨e', he', hplace⟩ := List.mem_map.mp hmem
  exact h.lookupNode_eq_none_iff.mp hnew e' he' (place_inj.mp hplace)

/-- The node at an address is deleted, when one node of the tree is there. -/
theorem KeyedTree.deleteNode (h : KeyedTree t) (haddr : (t.toList.map KeyedNode.addr).Nodup)
    (he : e ∈ t.toList) :
    ∃ u, Core.deleteNode (fun e' => decide (e'.addr = e.addr)) t = some u ∧ KeyedTree u ∧
      t.toList.Perm (e :: u.toList) := by
  obtain ⟨u, e', hu, hk, he', hperm⟩ :=
    h.kept.deleteNode he (q := fun e' => decide (e'.addr = e.addr)) (by simp)
  have hmem : e' ∈ t.toList := hperm.mem_iff.mpr List.mem_cons_self
  obtain rfl : e' = e := List.inj_on_of_nodup_map haddr hmem he (of_decide_eq_true he')
  refine ⟨u, hu, ⟨hk, ?_⟩, hperm⟩
  have hnodup := (hperm.map KeyedNode.place).nodup_iff.mp h.unique
  rw [List.map_cons, List.nodup_cons] at hnodup
  exact hnodup.2

end NginxTools.Core
