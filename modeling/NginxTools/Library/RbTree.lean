import Mathlib.Algebra.Order.Ring.Nat
import Mathlib.Data.List.Nodup
import Mathlib.Tactic.Common

/-!
# Red-black trees with positions

A binary tree whose nodes have a colour, and positions in it. An implementation with parent pointers
works at a position: it goes down to it, changes what is there, and repairs the colours on the way
back up. Here a position is the subtree there with the path from it up to the root, so that such a
loop is a recursion on the path.

## The model

* `RbTree`, `toList` — the trees and their elements in order.
* `Frame` — one step up: the side the position is on, its parent's colour and element, and its
  sibling. The two sides are one definition, `on`, so that mirrored cases are one case.
* `fill` — the tree with a subtree at a position, `before` and `after` what comes before and after
  that position.
* `rotate` — the rotation towards a side.
* `find?` — the search by comparison.

## What is proved

`Balanced` is the colour invariant, with the black height, and `Fits` what it asks of the path to a
position: `Fits.fill`. A balanced tree is shallow (`Balanced.two_pow_le`, `Balanced.height_le`). A
search finds exactly what an ordered tree holds (`find?_eq_some_iff`), and `locate` a position of
an element that meets a test (`locate_spec`, `exists_locate`).
-/

namespace NginxTools.Library

universe u v

/-- The colour of a node. -/
inductive Color where
  | red
  | black
deriving DecidableEq

/-- A tree with coloured nodes. -/
inductive RbTree (α : Type u) where
  /-- The sentinel, which is black. -/
  | nil
  | node (color : Color) (left : RbTree α) (elem : α) (right : RbTree α)

/-- The two sides of a node. -/
inductive Side where
  | left
  | right
deriving DecidableEq

/-- The other side. -/
def Side.other : Side → Side
  | .left => .right
  | .right => .left

namespace RbTree

variable {α : Type u}

/-! ### Trees -/

/-- The elements from left to right. -/
def toList : RbTree α → List α
  | nil => []
  | node _ l x r => l.toList ++ x :: r.toList

/-- A walk that takes a node before its children. -/
def walk {β : Type v} (f : β → α → β) : β → RbTree α → β
  | b, nil => b
  | b, node _ l x r => walk f (walk f (f b x) l) r

/-- The elements in the order of such a walk. -/
def preorder : RbTree α → List α
  | nil => []
  | node _ l x r => x :: (l.preorder ++ r.preorder)

/-- The colour of the root. -/
def color : RbTree α → Color
  | nil => .black
  | node c _ _ _ => c

/-- The tree with its root made black. -/
def blacken : RbTree α → RbTree α
  | nil => nil
  | node _ l x r => node .black l x r

/-- The most nodes on a way down. -/
def height : RbTree α → ℕ
  | nil => 0
  | node _ l _ r => max l.height r.height + 1

/-- A node with `t` on the given side and `w` on the other. -/
def on (s : Side) (c : Color) (t : RbTree α) (x : α) (w : RbTree α) : RbTree α :=
  match s with
  | .left => node c t x w
  | .right => node c w x t

/-- The root's colour, its child on the given side, its element and its other child. -/
def view (s : Side) : RbTree α → Option (Color × RbTree α × α × RbTree α)
  | nil => none
  | node c l x r =>
    match s with
    | .left => some (c, l, x, r)
    | .right => some (c, r, x, l)

/-- The rotation towards a side: the child on the other side comes up, with its colour. -/
def rotate : Side → RbTree α → Option (RbTree α)
  | .left, node c a x (node d b y e) => some (node d (node c a x b) y e)
  | .right, node c (node d e y b) x a => some (node d e y (node c b x a))
  | _, _ => none

@[simp] theorem toList_nil : (nil : RbTree α).toList = [] := rfl

@[simp] theorem toList_node (c : Color) (l : RbTree α) (x : α) (r : RbTree α) :
    (node c l x r).toList = l.toList ++ x :: r.toList := rfl

theorem walk_eq {β : Type v} (f : β → α → β) (b : β) (t : RbTree α) :
    walk f b t = t.preorder.foldl f b := by
  induction t generalizing b with
  | nil => rfl
  | node _ l x r ihl ihr => rw [walk, ihl, ihr, preorder, List.foldl_cons, List.foldl_append]

theorem preorder_perm (t : RbTree α) : t.preorder.Perm t.toList := by
  induction t with
  | nil => exact .refl _
  | node _ l x r ihl ihr => exact ((ihl.append ihr).cons x).trans List.perm_middle.symm

@[simp] theorem toList_blacken (t : RbTree α) : t.blacken.toList = t.toList := by
  cases t <;> rfl

theorem toList_rotate {s : Side} {t u : RbTree α} (h : t.rotate s = some u) :
    u.toList = t.toList := by
  unfold rotate at h
  split at h
  · cases h; simp
  · cases h; simp
  · cases h

theorem rotate_on (s : Side) (c d : Color) (a b e : RbTree α) (x y : α) :
    rotate s (on s c a x (on s d b y e)) = some (on s d (on s c a x b) y e) := by
  cases s <;> rfl

@[simp] theorem view_on (s : Side) (c : Color) (t : RbTree α) (x : α) (w : RbTree α) :
    view s (on s c t x w) = some (c, t, x, w) := by
  cases s <;> rfl

theorem eq_on_of_view {s : Side} {c : Color} {t u w : RbTree α} {x : α}
    (h : view s u = some (c, t, x, w)) : u = on s c t x w := by
  cases u with
  | nil => cases h
  | node d l y r => cases s <;> cases h <;> rfl

/-- What a rotation needs and makes. -/
theorem exists_of_rotate_on {s : Side} {c : Color} {a u w : RbTree α} {x : α}
    (h : rotate s (on s c a x w) = some u) :
    ∃ d b y e, w = on s d b y e ∧ u = on s d (on s c a x b) y e := by
  cases w with
  | nil => cases s <;> cases h
  | node d l y r =>
    cases s with
    | left => exact ⟨d, l, y, r, rfl, (Option.some.inj h).symm⟩
    | right => exact ⟨d, r, y, l, rfl, (Option.some.inj h).symm⟩

/-- A node seen from the other side. -/
theorem on_other (s : Side) (c : Color) (t : RbTree α) (x : α) (w : RbTree α) :
    on s.other c t x w = on s c w x t := by
  cases s <;> rfl

theorem other_of_ne {s s' : Side} (h : s ≠ s') : s = s'.other := by
  cases s <;> cases s' <;> simp_all [Side.other]

@[simp] theorem color_on (s : Side) (c : Color) (t : RbTree α) (x : α) (w : RbTree α) :
    (on s c t x w).color = c := by
  cases s <;> rfl

@[simp] theorem blacken_on (s : Side) (c : Color) (t : RbTree α) (x : α) (w : RbTree α) :
    (on s c t x w).blacken = on s .black t x w := by
  cases s <;> rfl

/-- The elements of a node do not depend on colours, nor on how its children are built. -/
theorem toList_on_congr {s : Side} {c d : Color} {t t' w w' : RbTree α} {x : α}
    (ht : t.toList = t'.toList) (hw : w.toList = w'.toList) :
    (on s c t x w).toList = (on s d t' x w').toList := by
  cases s <;> simp [on, ht, hw]

/-! ### Positions -/

/-- One step up from a position. -/
structure Frame (α : Type u) where
  /-- The side of the parent that the position is on. -/
  side : Side
  /-- The parent's colour. -/
  color : Color
  /-- The parent's element. -/
  elem : α
  /-- The subtree on the parent's other side. -/
  sibling : RbTree α

/-- The path from a position up to the root. -/
abbrev Path (α : Type u) := List (Frame α)

/-- The parent's subtree, with `t` at the position. -/
def Frame.parent (f : Frame α) (t : RbTree α) : RbTree α := on f.side f.color t f.elem f.sibling

/-- The whole tree, with `t` at the position. -/
def fill (t : RbTree α) : Path α → RbTree α
  | [] => t
  | f :: p => fill (f.parent t) p

/-- What comes before the position. -/
def before : Path α → List α
  | [] => []
  | f :: p => before p ++ if f.side = .left then [] else f.sibling.toList ++ [f.elem]

/-- What comes after the position. -/
def after : Path α → List α
  | [] => []
  | f :: p => (if f.side = .left then f.elem :: f.sibling.toList else []) ++ after p

theorem before_append (p q : Path α) : before (p ++ q) = before q ++ before p := by
  induction p with
  | nil => simp [before]
  | cons f p ih => simp [before, ih]

theorem after_append (p q : Path α) : after (p ++ q) = after p ++ after q := by
  induction p with
  | nil => simp [after]
  | cons f p ih => simp [after, ih]

/-- **The elements of the whole tree** around those at a position. -/
theorem toList_fill (t : RbTree α) (p : Path α) :
    (fill t p).toList = before p ++ (t.toList ++ after p) := by
  induction p generalizing t with
  | nil => simp [fill, before, after]
  | cons f p ih =>
    obtain ⟨s, c, x, w⟩ := f
    cases s <;> simp [fill, Frame.parent, on, before, after, ih]

/-- The elements of the whole tree depend only on those at the position. -/
theorem toList_fill_congr {t u : RbTree α} (p : Path α) (h : t.toList = u.toList) :
    (fill t p).toList = (fill u p).toList := by
  rw [toList_fill, toList_fill, h]

/-! ### The search -/

/-- The search: `cmp` says where the wanted element is from the one given. -/
def find? (cmp : α → Ordering) : RbTree α → Option α
  | nil => none
  | node _ l x r =>
    match cmp x with
    | .lt => find? cmp l
    | .gt => find? cmp r
    | .eq => some x

/-- The elements are in an order along which the comparison goes from `gt` through at most
one `eq` to `lt`. -/
def Cut (cmp : α → Ordering) (xs : List α) : Prop :=
  xs.Pairwise fun x y => (cmp x = .lt → cmp y = .lt) ∧ (cmp x = .eq → cmp y = .lt)

theorem Cut.left {cmp : α → Ordering} {xs ys : List α} {x : α} (h : Cut cmp (xs ++ x :: ys)) :
    Cut cmp xs := (List.pairwise_append.mp h).1

theorem Cut.right {cmp : α → Ordering} {xs ys : List α} {x : α} (h : Cut cmp (xs ++ x :: ys)) :
    Cut cmp ys := (List.pairwise_cons.mp (List.pairwise_append.mp h).2.1).2

/-- **A search finds exactly what the tree holds.** -/
theorem find?_eq_some_iff {cmp : α → Ordering} {t : RbTree α} {x : α} (h : Cut cmp t.toList) :
    find? cmp t = some x ↔ x ∈ t.toList ∧ cmp x = .eq := by
  induction t with
  | nil => simp [find?]
  | node c l y r ihl ihr =>
    rw [toList_node] at h
    have hl := ihl h.left
    have hr := ihr h.right
    obtain ⟨-, hy, hcross⟩ := List.pairwise_append.mp h
    have hyr := (List.pairwise_cons.mp hy).1
    have hly := fun z hz => hcross z hz y List.mem_cons_self
    simp only [find?, toList_node, List.mem_append, List.mem_cons]
    cases hc : cmp y with
    | lt =>
      simp only [hl]
      constructor
      · rintro ⟨hx, he⟩
        exact ⟨.inl hx, he⟩
      · rintro ⟨hx | rfl | hx, he⟩
        · exact ⟨hx, he⟩
        · rw [hc] at he; cases he
        · rw [(hyr x hx).1 hc] at he; cases he
    | gt =>
      simp only [hr]
      constructor
      · rintro ⟨hx, he⟩
        exact ⟨.inr (.inr hx), he⟩
      · rintro ⟨hx | rfl | hx, he⟩
        · rw [(hly x hx).2 he] at hc; cases hc
        · rw [hc] at he; cases he
        · exact ⟨hx, he⟩
    | eq =>
      simp only [Option.some.injEq]
      constructor
      · rintro rfl
        exact ⟨.inr (.inl rfl), hc⟩
      · rintro ⟨hx | rfl | hx, he⟩
        · rw [(hly x hx).2 he] at hc; cases hc
        · rfl
        · rw [(hyr x hx).2 hc] at he; cases he

/-- The first position, from left to right, whose element meets the test. -/
def locate (q : α → Bool) : RbTree α → Path α → Option (RbTree α × Path α)
  | nil, _ => none
  | node c l x r, p =>
    match locate q l (⟨.left, c, x, r⟩ :: p) with
    | some found => some found
    | none => if q x then some (node c l x r, p) else locate q r (⟨.right, c, x, l⟩ :: p)

/-- **A position that is located** is one of the tree, and its element meets the test. -/
theorem locate_spec {q : α → Bool} {t u : RbTree α} {p p' : Path α}
    (h : locate q t p = some (u, p')) :
    fill u p' = fill t p ∧ ∃ c l x r, u = node c l x r ∧ q x = true := by
  induction t generalizing p with
  | nil => cases h
  | node c l x r ihl ihr =>
    simp only [locate] at h
    split at h
    · next hl =>
      cases h
      exact ihl hl
    · split at h
      · next hq =>
        cases h
        exact ⟨rfl, c, l, x, r, rfl, hq⟩
      · exact ihr h

/-- An element that meets the test is located. -/
theorem exists_locate {q : α → Bool} {t : RbTree α} {x : α} (hx : x ∈ t.toList) (hq : q x = true)
    (p : Path α) : ∃ u p', locate q t p = some (u, p') := by
  induction t generalizing p with
  | nil => cases hx
  | node c l y r ihl ihr =>
    simp only [locate]
    split
    · next found _ => exact ⟨found.1, found.2, rfl⟩
    · next hl =>
      split
      · exact ⟨_, _, rfl⟩
      · next hy =>
        simp only [toList_node, List.mem_append, List.mem_cons] at hx
        rcases hx with hx | rfl | hx
        · obtain ⟨u, p', hu⟩ := ihl hx (⟨.left, c, y, r⟩ :: p)
          rw [hl] at hu
          cases hu
        · exact absurd hq hy
        · exact ihr hx _

/-! ### Balance -/

/-- The colour invariant: a red node has black children, and every way down passes the
same number of black nodes. The tree's colour and that number are given. -/
inductive Balanced : Color → ℕ → RbTree α → Prop where
  | nil : Balanced .black 0 nil
  | red {n : ℕ} {l r : RbTree α} {x : α} :
      Balanced .black n l → Balanced .black n r → Balanced .red n (node .red l x r)
  | black {n : ℕ} {c d : Color} {l r : RbTree α} {x : α} :
      Balanced c n l → Balanced d n r → Balanced .black (n + 1) (node .black l x r)

variable {t w : RbTree α} {x : α} {s : Side} {c d : Color} {n : ℕ} {p : Path α} {f : Frame α}

theorem Balanced.color_eq (h : Balanced c n t) : t.color = c := by cases h <;> rfl

theorem Balanced.on_red (ht : Balanced .black n t) (hw : Balanced .black n w) :
    Balanced .red n (on s .red t x w) := by
  cases s
  · exact .red ht hw
  · exact .red hw ht

theorem Balanced.on_black (ht : Balanced c n t) (hw : Balanced d n w) :
    Balanced .black (n + 1) (on s .black t x w) := by
  cases s
  · exact .black ht hw
  · exact .black hw ht

/-- The black height of a node of the given colour over children of the given black height. -/
def rise : Color → ℕ → ℕ
  | .red, n => n
  | .black, n => n + 1

/-- A node of either colour over two black children. -/
theorem Balanced.on_of_black (c : Color) (ht : Balanced .black n t) (hw : Balanced .black n w) :
    Balanced c (rise c n) (on s c t x w) := by
  cases c
  · exact ht.on_red hw
  · exact ht.on_black hw

/-- A node with its children, from either side. -/
theorem Balanced.of_on (h : Balanced c n (on s c t x w)) :
    ∃ m ct cw, n = rise c m ∧ (c = .red → ct = .black ∧ cw = .black) ∧ Balanced ct m t ∧
      Balanced cw m w := by
  cases s <;> cases h
  · exact ⟨n, _, _, rfl, fun _ => ⟨rfl, rfl⟩, ‹_›, ‹_›⟩
  · exact ⟨_, _, _, rfl, fun h => (by cases h), ‹_›, ‹_›⟩
  · exact ⟨n, _, _, rfl, fun _ => ⟨rfl, rfl⟩, ‹_›, ‹_›⟩
  · exact ⟨_, _, _, rfl, fun h => (by cases h), ‹_›, ‹_›⟩

/-- A red node, from either side. -/
theorem Balanced.of_red (s : Side) (h : Balanced .red n t) :
    ∃ a x b, t = on s .red a x b ∧ Balanced .black n a ∧ Balanced .black n b := by
  cases h with
  | red hl hr => cases s <;> exact ⟨_, _, _, rfl, ‹_›, ‹_›⟩

/-- A black tree of some black height has a node, from either side. -/
theorem Balanced.of_black (s : Side) (h : Balanced .black (n + 1) t) :
    ∃ a x b c d, t = on s .black a x b ∧ Balanced c n a ∧ Balanced d n b := by
  cases h with
  | black hl hr => cases s <;> exact ⟨_, _, _, _, _, rfl, ‹_›, ‹_›⟩

/-- A balanced tree with its root made black. -/
theorem Balanced.blacken (h : Balanced c n t) : ∃ m, Balanced .black m t.blacken := by
  cases h with
  | nil => exact ⟨0, .nil⟩
  | red hl hr => exact ⟨_, .black hl hr⟩
  | black hl hr => exact ⟨_, .black hl hr⟩

theorem Balanced.blacken_red (h : Balanced .red n t) : Balanced .black (n + 1) t.blacken := by
  cases h with
  | red hl hr => exact .black hl hr

theorem Balanced.blacken_eq (h : Balanced .black n t) : t.blacken = t := by
  cases h <;> rfl

/-- A balanced tree of black height `n` has at least `2 ^ n - 1` elements. -/
theorem Balanced.two_pow_le (h : Balanced c n t) : 2 ^ n ≤ t.toList.length + 1 := by
  induction h with
  | nil => simp
  | red _ _ ihl ihr => simp only [toList_node, List.length_append, List.length_cons]; omega
  | black _ _ ihl ihr =>
    simp only [toList_node, List.length_append, List.length_cons, Nat.pow_succ]
    omega

/-- A way down has at most twice as many nodes as black ones, and one more below a red root. -/
theorem Balanced.height_le (h : Balanced c n t) :
    t.height ≤ 2 * n + if c = .red then 1 else 0 := by
  induction h with
  | nil => simp [height]
  | red _ _ ihl ihr =>
    simp only [reduceCtorEq, ↓reduceIte, Nat.add_zero] at ihl ihr
    simp only [height, ↓reduceIte]
    omega
  | black _ _ ihl ihr =>
    simp only [height, reduceCtorEq, ↓reduceIte]
    split_ifs at ihl ihr <;> omega

/-- What the colour invariant asks of a path: that a balanced tree of the given colour and
black height at the position makes a balanced tree with a black root. -/
inductive Fits : Path α → Color → ℕ → Prop where
  | root {n : ℕ} : Fits [] .black n
  | red {n : ℕ} {f : Frame α} {p : Path α} : f.color = .red → Balanced .black n f.sibling →
      Fits p .red n → Fits (f :: p) .black n
  | black {n : ℕ} {f : Frame α} {p : Path α} {c d : Color} : f.color = .black →
      Balanced d n f.sibling → Fits p .black (n + 1) → Fits (f :: p) c n

/-- Where a red tree fits, a black one fits. -/
theorem Fits.black_of (h : Fits p c n) : Fits p .black n := by
  cases h with
  | root => exact .root
  | red hf hs hp => exact .red hf hs hp
  | black hf hs hp => exact .black hf hs hp

/-- **The tree that a position is filled to is balanced**, with a black root. -/
theorem Fits.fill (h : Fits p c n) (ht : Balanced c n t) : ∃ m, Balanced .black m (fill t p) := by
  induction h generalizing t with
  | root => exact ⟨_, ht⟩
  | @red n f p hf hs _ ih =>
    obtain ⟨s, fc, x, w⟩ := f
    cases hf
    exact ih (ht.on_red hs)
  | @black n f p c d hf hs _ ih =>
    obtain ⟨s, fc, x, w⟩ := f
    cases hf
    exact ih (ht.on_black hs)

/-- The position one step down, on a side, whatever element the node has. -/
theorem Balanced.down (hb : Balanced c n (on s d t x w)) :
    ∃ c' n', Balanced c' n' t ∧ ∀ p y, Fits p c n → Fits (⟨s, d, y, w⟩ :: p) c' n' := by
  cases s with
  | left =>
    cases hb with
    | red hl hr => exact ⟨_, _, hl, fun _ _ h => .red rfl hr h⟩
    | black hl hr => exact ⟨_, _, hl, fun _ _ h => .black rfl hr h⟩
  | right =>
    cases hb with
    | red hl hr => exact ⟨_, _, hr, fun _ _ h => .red rfl hl h⟩
    | black hl hr => exact ⟨_, _, hr, fun _ _ h => .black rfl hl h⟩

/-- **Every position of a balanced tree** holds a balanced tree and fits it. -/
theorem Balanced.of_fill (h : Balanced .black n (RbTree.fill t p)) :
    ∃ c m, Balanced c m t ∧ Fits p c m := by
  induction p generalizing t with
  | nil => exact ⟨_, _, h, .root⟩
  | cons f p ih =>
    obtain ⟨c, m, hb, hf⟩ := ih h
    obtain ⟨c', m', hb', hdown⟩ := hb.down
    exact ⟨c', m', hb', hdown p f.elem hf⟩

end RbTree

end NginxTools.Library
