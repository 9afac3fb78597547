import Mathlib.Algebra.Order.Ring.Nat
import Mathlib.Tactic.Common

/-!
# The number that a text starts with

`strtol` of C, to the base 10: blanks, a sign if there is one, and digits; the first byte that is
none of these ends the number. A number that is too large is taken for the largest there is, one
that is too small for the smallest. Without digits the result is zero, which nothing distinguishes
from that of `0`.

## The model

* `scan` — what is found of each part. `Scan.length` is how many bytes they are: all of them are
  looked at, and the one after them, but nothing beyond.
* `Scan.number` — the number, if there are digits.
* `strtol` — its result.

## What is proved

`scan_append` — what is found does not depend on what follows, once there is a byte that ends it.
-/

namespace NginxTools.Library

/-- `isspace`, in the locale `C`. -/
def isspace (b : UInt8) : Bool := b = 32 ∨ (9 ≤ b ∧ b ≤ 13)

/-- `isdigit`. -/
def isdigit (b : UInt8) : Bool := 48 ≤ b ∧ b ≤ 57

/-- `+` or `-`. -/
def issign (b : UInt8) : Bool := b = 43 ∨ b = 45

/-- What is found at the start of a text. -/
structure Scan where
  /-- How many blanks there are. -/
  spaces : ℕ
  sign : Option UInt8
  digits : List UInt8
deriving DecidableEq

/-- What comes after the blanks: the sign, and the digits. -/
def scanNumber (spaces : ℕ) (text : List UInt8) : Scan :=
  match text with
  | [] => ⟨spaces, none, []⟩
  | b :: text =>
      if issign b then ⟨spaces, some b, text.takeWhile isdigit⟩
      else ⟨spaces, none, (b :: text).takeWhile isdigit⟩

/-- What `strtol` finds in a text. -/
def scan (text : List UInt8) : Scan :=
  scanNumber (text.takeWhile isspace).length (text.dropWhile isspace)

namespace Scan

/-- How many bytes it is. -/
def length (s : Scan) : ℕ := s.spaces + s.sign.toList.length + s.digits.length

/-- The value of digits. -/
def decimal (digits : List UInt8) : ℕ := digits.foldl (fun n b => 10 * n + (b.toNat - 48)) 0

/-- The number, if there is one. -/
def number (s : Scan) : Option ℤ :=
  if s.digits = [] then none
  else if s.sign = some 45 then some (-(decimal s.digits : ℤ))
  else some (decimal s.digits)

end Scan

/-- `strtol`, to the base 10. -/
def strtol (text : List UInt8) : Int64 :=
  match (scan text).number with
  | none => 0
  | some n =>
    if n > Int64.maxValue.toInt then .maxValue
    else if n < Int64.minValue.toInt then .minValue
    else .ofInt n

/-! ### What the number depends on -/

/-- A byte that is no part of a number. -/
def EndsNumber (b : UInt8) : Prop := isspace b = false ∧ isdigit b = false ∧ issign b = false

variable {s r : List UInt8} {b : UInt8}

theorem ends_nul : EndsNumber 0 := ⟨by decide, by decide, by decide⟩

/-- What follows begins with a byte that ends a number. -/
def StartsEnding (r : List UInt8) : Prop := ∃ b t, r = b :: t ∧ EndsNumber b

theorem takeWhile_append_of_lt {p : UInt8 → Bool} (h : (s.takeWhile p).length < s.length)
    (r : List UInt8) : (s ++ r).takeWhile p = s.takeWhile p := by
  rw [List.takeWhile_append, if_neg (Nat.ne_of_lt h)]

theorem takeWhile_append_of_head {p : UInt8 → Bool} {t : List UInt8} (h : p b = false) :
    (s ++ b :: t).takeWhile p = s.takeWhile p := by
  rw [List.takeWhile_append, List.takeWhile_cons, h]
  split
  · next hlen =>
    rw [(List.takeWhile_prefix p).eq_of_length hlen]
    simp
  · rfl

theorem length_takeWhile_le (p : UInt8 → Bool) (s r : List UInt8) :
    (s.takeWhile p).length ≤ ((s ++ r).takeWhile p).length := by
  rw [List.takeWhile_append]
  split
  · next hlen =>
    rw [List.length_append]
    omega
  · exact le_rfl

/-- The digits end, in the text or right after it. -/
theorem takeDigits_append (h : (s.takeWhile isdigit).length < s.length ∨ StartsEnding r) :
    (s ++ r).takeWhile isdigit = s.takeWhile isdigit := by
  rcases h with h | ⟨b, t, rfl, -, hb, -⟩
  · exact takeWhile_append_of_lt h r
  · exact takeWhile_append_of_head hb

theorem scanNumber_append {n : ℕ} (h : (scanNumber n s).length < n + s.length ∨ StartsEnding r) :
    scanNumber n (s ++ r) = scanNumber n s := by
  cases s with
  | nil =>
    rcases h with h | ⟨b, t, rfl, -, hdigit, hsign⟩
    · simp [scanNumber, Scan.length] at h
    · simp [scanNumber, hsign, hdigit]
  | cons b s =>
    rw [List.cons_append, scanNumber, scanNumber]
    rw [scanNumber] at h
    split
    · next hb =>
      rw [takeDigits_append]
      refine h.imp_left fun hlt => ?_
      simp only [hb, if_true, Scan.length, Option.toList_some, List.length_cons,
        List.length_nil] at hlt
      omega
    · next hb =>
      rw [← List.cons_append, takeDigits_append]
      refine h.imp_left fun hlt => ?_
      simp only [hb, Bool.false_eq_true, if_false, Scan.length, Option.toList_none,
        List.length_nil] at hlt
      omega

theorem length_takeWhile_add (p : UInt8 → Bool) (s : List UInt8) :
    (s.takeWhile p).length + (s.dropWhile p).length = s.length := by
  rw [← List.length_append, List.takeWhile_append_dropWhile]

/-- **What follows the end of a number does not count.** -/
theorem scan_append (h : (scan s).length < s.length ∨ StartsEnding r) : scan (s ++ r) = scan s := by
  have hlen := length_takeWhile_add isspace s
  rw [scan] at h
  rw [scan, scan, List.dropWhile_append]
  by_cases hall : s.dropWhile isspace = []
  · -- There are blanks only.
    rw [hall, List.length_nil] at hlen
    have hr : StartsEnding r := by
      refine h.resolve_left ?_
      simp only [hall, scanNumber, Scan.length, Option.toList_none, List.length_nil]
      omega
    have happ := scanNumber_append (n := (s.takeWhile isspace).length) (s := []) (.inr hr)
    obtain ⟨b, t, rfl, hspace, -, -⟩ := hr
    rw [takeWhile_append_of_head hspace, hall, List.isEmpty_nil, if_pos rfl, List.dropWhile_cons,
      hspace]
    exact happ
  · have hlt : (s.takeWhile isspace).length < s.length := by
      have hpos := List.length_pos_iff.mpr hall
      omega
    rw [takeWhile_append_of_lt hlt, if_neg (by simpa using hall)]
    apply scanNumber_append
    rwa [hlen]

theorem length_scanNumber_le (n : ℕ) (s r : List UInt8) :
    (scanNumber n s).length ≤ (scanNumber n (s ++ r)).length := by
  cases s with
  | nil =>
    have hle : ∀ t : List UInt8, n ≤ (scanNumber n t).length := by
      intro t
      cases t with
      | nil => exact Nat.le_refl n
      | cons b t =>
        rw [scanNumber]
        split <;> exact (Nat.le_add_right _ _).trans (Nat.le_add_right _ _)
    exact hle _
  | cons b s =>
    rw [List.cons_append, scanNumber, scanNumber]
    split
    · exact Nat.add_le_add_left (length_takeWhile_le isdigit s r) _
    · exact Nat.add_le_add_left (length_takeWhile_le isdigit (b :: s) r) _

theorem le_length_scanNumber (n : ℕ) (s : List UInt8) : n ≤ (scanNumber n s).length := by
  have hle := length_scanNumber_le n [] s
  simpa [scanNumber, Scan.length] using hle

/-- More text is not less of a number. -/
theorem length_scan_le (s r : List UInt8) : (scan s).length ≤ (scan (s ++ r)).length := by
  have hlen := length_takeWhile_add isspace s
  rw [scan, scan, List.dropWhile_append]
  by_cases hall : s.dropWhile isspace = []
  · rw [hall, List.length_nil] at hlen
    have hle := length_takeWhile_le isspace s r
    refine le_trans ?_ (le_length_scanNumber _ _)
    simp only [hall, scanNumber, Scan.length, Option.toList_none, List.length_nil]
    omega
  · have hlt : (s.takeWhile isspace).length < s.length := by
      have hpos := List.length_pos_iff.mpr hall
      omega
    rw [takeWhile_append_of_lt hlt, if_neg (by simpa using hall)]
    exact length_scanNumber_le _ _ _

theorem length_scanNumber (n : ℕ) (text : List UInt8) :
    (scanNumber n text).length ≤ n + text.length := by
  cases text with
  | nil => simp [scanNumber, Scan.length]
  | cons b text =>
    rw [scanNumber]
    split
    · have hle := (List.takeWhile_prefix (l := text) isdigit).length_le
      simp only [Scan.length, Option.toList_some, List.length_cons, List.length_nil]
      omega
    · have hle := (List.takeWhile_prefix (l := b :: text) isdigit).length_le
      simp only [Scan.length, Option.toList_none, List.length_nil]
      omega

/-- A number is no longer than its text. -/
theorem length_scan (text : List UInt8) : (scan text).length ≤ text.length := by
  have hle := length_scanNumber (text.takeWhile isspace).length (text.dropWhile isspace)
  rwa [length_takeWhile_add] at hle

/-- A number in range is the result. -/
theorem toInt_strtol {n : ℤ} (h : (scan s).number = some n) (hmin : -2 ^ 63 ≤ n)
    (hmax : n < 2 ^ 63) : strtol s = .ofInt n := by
  have hM : Int64.maxValue.toInt = 2 ^ 63 - 1 := by decide
  have hm : Int64.minValue.toInt = -2 ^ 63 := by decide
  rw [strtol, h]
  simp only
  rw [if_neg (by omega), if_neg (by omega)]

end NginxTools.Library
