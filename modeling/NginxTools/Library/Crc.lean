import Mathlib.Data.Nat.Notation
import Mathlib.Logic.Function.Iterate
import Mathlib.Tactic.SplitIfs

/-!
# Cyclic redundancy checks

The register of a cyclic redundancy check is shifted to the right by one bit for each bit of the
data, and the polynomial is added to it when the bit that falls out is one:

    r = (r & 1) ? (r >> 1) ^ p : r >> 1

The data are added to the low bits of the register, some bits at a time, and then shifted through.

## The model

A register is a `BitVec w`, with the polynomial's bits reversed as above; `shifts` shifts by some
bits. A digit is a `BitVec w` of which only the low `n` bits are used (`Fits n`), and `feed` adds it
and shifts it through.

## What is proved

Shifting is linear (`shifts_xor`), and so is feeding (`feeds_xor`). **Shifting by `n` bits is
looking up the low ones** and moving the others (`shifts_eq`), which is what tables are for. Where
the polynomial has its highest bit, shifting is injective; and then **two strings that differ in
digits next to each other, no more than the register holds, leave different registers**
(`feeds_burst`).
-/

namespace NginxTools.Library.Crc

variable {w : ℕ} {p : BitVec w} {n m : ℕ} {r r' : BitVec w}

/-- The register is shifted by one bit. -/
def shift (p r : BitVec w) : BitVec w := if r.getLsbD 0 then (r >>> 1) ^^^ p else r >>> 1

/-- The register is shifted by some bits. -/
def shifts (p : BitVec w) (n : ℕ) (r : BitVec w) : BitVec w := (shift p)^[n] r

/-- A digit is added, and shifted through. -/
def feed (p : BitVec w) (n : ℕ) (r d : BitVec w) : BitVec w := shifts p n (r ^^^ d)

/-- Digits are added one after the other. -/
def feeds (p : BitVec w) (n : ℕ) (r : BitVec w) (ds : List (BitVec w)) : BitVec w :=
  ds.foldl (feed p n) r

/-- Only the low `n` bits are used. -/
def Fits (n : ℕ) (r : BitVec w) : Prop := ∀ i, n ≤ i → r.getLsbD i = false

/-! ### Shifting -/

theorem shift_xor (p a b : BitVec w) : shift p (a ^^^ b) = shift p a ^^^ shift p b := by
  simp only [shift, BitVec.getLsbD_xor, BitVec.ushiftRight_xor_distrib]
  cases a.getLsbD 0 <;> cases b.getLsbD 0
  · rfl
  · simp [BitVec.xor_assoc]
  · simp [BitVec.xor_assoc, BitVec.xor_comm p]
  · have hp : p ^^^ ((b >>> 1) ^^^ p) = b >>> 1 := by
      rw [BitVec.xor_comm _ p, ← BitVec.xor_assoc, BitVec.xor_self, BitVec.zero_xor]
    simp [BitVec.xor_assoc, hp]

theorem shifts_succ (p : BitVec w) (n : ℕ) (r : BitVec w) :
    shifts p (n + 1) r = shifts p n (shift p r) := rfl

theorem shifts_add (p : BitVec w) (n m : ℕ) (r : BitVec w) :
    shifts p (n + m) r = shifts p n (shifts p m r) := Function.iterate_add_apply _ _ _ _

/-- **Shifting is linear.** -/
theorem shifts_xor (p : BitVec w) (n : ℕ) (a b : BitVec w) :
    shifts p n (a ^^^ b) = shifts p n a ^^^ shifts p n b := by
  induction n generalizing a b with
  | zero => rfl
  | succ n ih => rw [shifts_succ, shift_xor, ih, shifts_succ, shifts_succ]

/-- Bits that are zero fall out of the register. -/
theorem shifts_of_low (p : BitVec w) (h : ∀ i < n, r.getLsbD i = false) :
    shifts p n r = r >>> n := by
  induction n generalizing r with
  | zero => exact (BitVec.ushiftRight_zero r).symm
  | succ n ih =>
    have hbit : shift p r = r >>> 1 := by rw [shift, h 0 (Nat.succ_pos n)]; rfl
    rw [shifts_succ, hbit, ih, ← BitVec.shiftRight_add, Nat.add_comm 1 n]
    intro i hi
    rw [BitVec.getLsbD_ushiftRight]
    exact h _ (by omega)

/-- **Shifting looks up the low bits, and moves the others.** -/
theorem shifts_eq (p : BitVec w) {low : BitVec w} (hlow : ∀ i < n, low.getLsbD i = r.getLsbD i)
    (hfits : Fits n low) : shifts p n r = shifts p n low ^^^ r >>> n := by
  have hhigh : ∀ i < n, (low ^^^ r).getLsbD i = false := by
    intro i hi
    rw [BitVec.getLsbD_xor, hlow i hi, Bool.xor_self]
  have hshift : low >>> n = 0#w := by
    refine BitVec.eq_of_getLsbD_eq fun i hi => ?_
    rw [BitVec.getLsbD_ushiftRight, hfits _ (Nat.le_add_right n i), BitVec.getLsbD_zero]
  have hr : r = low ^^^ (low ^^^ r) := by
    rw [← BitVec.xor_assoc, BitVec.xor_self, BitVec.zero_xor]
  calc shifts p n r = shifts p n (low ^^^ (low ^^^ r)) := by rw [← hr]
    _ = shifts p n low ^^^ (low ^^^ r) >>> n := by rw [shifts_xor, shifts_of_low p hhigh]
    _ = shifts p n low ^^^ r >>> n := by
      rw [BitVec.ushiftRight_xor_distrib, hshift, BitVec.zero_xor]

/-- The bit that falls out is seen in the highest bit. -/
theorem shift_eq_zero (hp : p.msb = true) (h : shift p r = 0#w) : r = 0#w := by
  rw [shift] at h
  split_ifs at h with hbit
  · have hmsb : (r >>> 1).msb = false := by simp [BitVec.msb_ushiftRight]
    rw [BitVec.xor_eq_zero_iff] at h
    rw [h, hp] at hmsb
    cases hmsb
  · refine BitVec.eq_of_getLsbD_eq fun i hi => ?_
    rw [BitVec.getLsbD_zero]
    cases i with
    | zero => exact Bool.eq_false_iff.mpr hbit
    | succ i =>
      have hi := congrArg (fun r => r.getLsbD i) h
      simpa [Nat.add_comm 1 i] using hi

theorem shifts_injective (hp : p.msb = true) (n : ℕ) : Function.Injective (shifts p n) := by
  refine Function.Injective.iterate (fun a b h => ?_) n
  have hzero : shift p (a ^^^ b) = 0#w := by rw [shift_xor, h, BitVec.xor_self]
  exact BitVec.xor_eq_zero_iff.mp (shift_eq_zero hp hzero)

/-! ### Feeding -/

theorem feeds_append (r : BitVec w) (ds es : List (BitVec w)) :
    feeds p n r (ds ++ es) = feeds p n (feeds p n r ds) es := List.foldl_append

/-- Feeding the same digits keeps registers apart. -/
theorem feeds_injective (hp : p.msb = true) (ds : List (BitVec w)) :
    Function.Injective (feeds p n · ds) := by
  induction ds with
  | nil => exact fun _ _ h => h
  | cons d ds ih =>
    intro a b h
    exact (BitVec.xor_left_inj d).mp (shifts_injective hp n (ih h))

/-- The digits, side by side. -/
def word (n : ℕ) : List (BitVec w) → BitVec w
  | [] => 0#w
  | d :: ds => d ^^^ (word n ds <<< n)

theorem Fits.shiftLeft (h : Fits m r) : Fits (m + n) (r <<< n) := by
  intro i hi
  rw [BitVec.getLsbD_shiftLeft, h (i - n) (by omega), Bool.and_false]

theorem shiftLeft_shiftRight (h : Fits m r) (hm : m + n ≤ w) : (r <<< n) >>> n = r := by
  refine BitVec.eq_of_getLsbD_eq fun i hi => ?_
  rw [BitVec.getLsbD_ushiftRight, BitVec.getLsbD_shiftLeft]
  rcases Nat.lt_or_ge i m with hlt | hge
  · simp [show n + i < w by omega]
  · simp [h i hge]

/-- A digit may be added as two. -/
theorem feed_add {lo hi : BitVec w} (h : Fits m hi) (hm : m + n ≤ w) (r : BitVec w) :
    feed p (m + n) r (lo ^^^ hi <<< n) = feed p m (feed p n r lo) hi := by
  have hback : shifts p n (hi <<< n) = hi := by
    rw [shifts_of_low p fun i hlt => by simp [hlt], shiftLeft_shiftRight h hm]
  calc feed p (m + n) r (lo ^^^ hi <<< n) = shifts p m (shifts p n ((r ^^^ lo) ^^^ hi <<< n)) := by
        rw [feed, shifts_add, BitVec.xor_assoc]
    _ = shifts p m (shifts p n (r ^^^ lo) ^^^ hi) := by rw [shifts_xor, hback]

theorem fits_word {ds : List (BitVec w)} (h : ∀ d ∈ ds, Fits n d) :
    Fits (ds.length * n) (word n ds) := by
  induction ds with
  | nil => exact fun i _ => BitVec.getLsbD_zero
  | cons d ds ih =>
    obtain ⟨hd, hds⟩ := List.forall_mem_cons.mp h
    intro i hi
    rw [List.length_cons, Nat.add_one_mul] at hi
    rw [word, BitVec.getLsbD_xor, hd i (by omega), (ih hds).shiftLeft i hi]
    rfl

/-- Digits side by side are fed at once. -/
theorem feeds_eq_word {ds : List (BitVec w)} (h : ∀ d ∈ ds, Fits n d) (hlen : ds.length * n ≤ w)
    (r : BitVec w) : feeds p n r ds = shifts p (ds.length * n) (r ^^^ word n ds) := by
  induction ds generalizing r with
  | nil => simp [feeds, word, shifts]
  | cons d ds ih =>
    obtain ⟨-, hds⟩ := List.forall_mem_cons.mp h
    rw [List.length_cons, Nat.add_one_mul] at hlen ⊢
    have hback : shifts p n (word n ds <<< n) = word n ds := by
      rw [shifts_of_low p fun i hi => by simp [hi],
        shiftLeft_shiftRight (fits_word hds) hlen]
    calc feeds p n r (d :: ds) = feeds p n (shifts p n (r ^^^ d)) ds := rfl
      _ = shifts p (ds.length * n) (shifts p n (r ^^^ d) ^^^ shifts p n (word n ds <<< n)) := by
        rw [ih hds (by omega), hback]
      _ = shifts p (ds.length * n + n) (r ^^^ word n (d :: ds)) := by
        rw [← shifts_xor, ← shifts_add, BitVec.xor_assoc, word]

theorem word_inj {ds es : List (BitVec w)} (hds : ∀ d ∈ ds, Fits n d) (hes : ∀ d ∈ es, Fits n d)
    (hlen : ds.length = es.length) (hw : ds.length * n ≤ w) (h : word n ds = word n es) :
    ds = es := by
  induction ds generalizing es with
  | nil => exact (List.length_eq_zero_iff.mp hlen.symm).symm
  | cons d ds ih =>
    obtain _ | ⟨e, es⟩ := es
    · simp at hlen
    · obtain ⟨hd, hds'⟩ := List.forall_mem_cons.mp hds
      obtain ⟨he, hes'⟩ := List.forall_mem_cons.mp hes
      rw [List.length_cons, List.length_cons, Nat.add_right_cancel_iff] at hlen
      rw [List.length_cons, Nat.add_one_mul] at hw
      rw [word, word] at h
      have hhead : d = e := by
        refine BitVec.eq_of_getLsbD_eq fun i hi => ?_
        rcases Nat.lt_or_ge i n with hlt | hge
        · have hi := congrArg (fun r => r.getLsbD i) h
          simpa [hlt] using hi
        · rw [hd i hge, he i hge]
      subst hhead
      have htail : word n ds = word n es := by
        have hleft := (BitVec.xor_right_inj _).mp h
        rw [← shiftLeft_shiftRight (fits_word hds') hw, hleft,
          shiftLeft_shiftRight (fits_word hes') (hlen ▸ hw)]
      rw [ih hds' hes' hlen (by omega) htail]

/-- **Digits next to each other that differ are seen**, if the register has room for them. -/
theorem feeds_burst (hp : p.msb = true) {xs ys : List (BitVec w)} (hxs : ∀ d ∈ xs, Fits n d)
    (hys : ∀ d ∈ ys, Fits n d) (hlen : xs.length = ys.length) (hw : xs.length * n ≤ w)
    (r : BitVec w) (as bs : List (BitVec w))
    (h : feeds p n r (as ++ xs ++ bs) = feeds p n r (as ++ ys ++ bs)) : xs = ys := by
  simp only [feeds_append] at h
  have hmid := feeds_injective hp bs h
  rw [feeds_eq_word hxs hw, feeds_eq_word hys (hlen ▸ hw), ← hlen] at hmid
  exact word_inj hxs hys hlen hw ((BitVec.xor_right_inj _).mp (shifts_injective hp _ hmid))

end NginxTools.Library.Crc
