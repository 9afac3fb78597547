import Mathlib.Algebra.Order.Ring.Nat
import Mathlib.Tactic.Common

/-!
# Reading a file into a buffer

`utils_files_file2buf` opens a file at its end, takes the position there for its size, and reads as
much from its beginning:

    size_t file_size = fileIfStream.tellg();
    buf = (char*)calloc(1, file_size + 1);
    if(buf != nullptr)
    {
        fileIfStream.seekg(0, std::ios::beg); // rewind, opened at pos. end
        fileIfStream.read(buf, file_size);
    }

Only the file's opening and the allocation are checked. What `tellg` yields when it fails, `-1`, is
a size like any other, of which `file_size + 1` is nothing; after a `seekg` that fails nothing is
read; and a `read` that fails, or finds fewer bytes than there were, leaves the rest of the buffer
zero.

## The model

`ReadEnv` is the file with the outcome of each step, and `utilsFilesFile2buf` the buffer that is
returned.

## What is proved

`file2buf_reports_iff` — when the function returns the whole file or nothing, as `utils_files.h` has
it: "Returns NULL if any error occurred."
-/

namespace NginxTools.UtilsFiles

/-- A file, and what happens when it is read. -/
structure ReadEnv where
  /-- The bytes of the file. -/
  content : List UInt8
  /-- `is_open`. -/
  isOpen : Bool
  /-- The position that `tellg` yields; `-1` is its failure. -/
  tellg : Int64
  /-- Whether `calloc` succeeds. -/
  calloc : Bool
  /-- Whether `seekg` succeeds. -/
  seekg : Bool
  /-- How many bytes `read` can get; what there is after them is lost to an error. -/
  readable : ℕ

/-- The bytes that `read` delivers when it is asked for `n`; none after a `seekg` that has
failed. -/
def ReadEnv.read (env : ReadEnv) (n : Int64) : List UInt8 :=
  if env.seekg then env.content.take (min n.toInt.toNat env.readable) else []

/-- The bytes of a buffer that `calloc` has made, after others have been written to its
beginning. -/
def filled (size : ℕ) (bytes : List UInt8) : List UInt8 :=
  bytes ++ (List.replicate size 0).drop bytes.length

/-- `utils_files_file2buf`: the buffer, `none` for `NULL`. -/
def utilsFilesFile2buf (env : ReadEnv) (filePath : Option (List Char)) : Option (List UInt8) :=
  if filePath = none then none
  else if env.isOpen then
    let fileSize := env.tellg.toUInt64
    if env.calloc then some (filled (fileSize + 1).toNat (env.read fileSize.toInt64)) else none
  else none

/-! ### When it tells -/

/-- Each step succeeds, and as many bytes are read as are asked for. -/
structure ReadEnv.Succeeds (env : ReadEnv) : Prop where
  isOpen : env.isOpen = true
  tellg : env.tellg ≠ -1
  calloc : env.calloc = true
  seekg : env.seekg = true
  read : ((env.read env.tellg).length : ℤ) = env.tellg.toInt

/-- What is returned is the whole file with a zero after it, or `NULL`, and it is `NULL` after any
failure. -/
structure ReportsFailure (env : ReadEnv) (filePath : Option (List Char)) : Prop where
  whole : ∀ buf, utilsFilesFile2buf env filePath = some buf → buf = env.content ++ [0]
  failed : ¬env.Succeeds → utilsFilesFile2buf env filePath = none

/-- The whole of the file is read: the size found is its own, and nothing keeps the bytes back. -/
structure ReadEnv.ReadsAll (env : ReadEnv) : Prop where
  tellg : env.tellg.toInt = env.content.length
  seekg : env.seekg = true
  readable : env.content.length ≤ env.readable

variable {env : ReadEnv} {filePath : Option (List Char)}

theorem file2buf_eq (hpath : filePath ≠ none) (hopen : env.isOpen = true)
    (hcalloc : env.calloc = true) :
    utilsFilesFile2buf env filePath =
      some (filled (env.tellg.toUInt64 + 1).toNat (env.read env.tellg)) := by
  rw [utilsFilesFile2buf, if_neg hpath, if_pos hopen]
  simp only [hcalloc, if_true, Int64.toInt64_toUInt64]

theorem length_filled {size : ℕ} {bytes : List UInt8} (h : bytes.length ≤ size) :
    (filled size bytes).length = size := by
  rw [filled, List.length_append, List.length_drop, List.length_replicate, Nat.add_sub_cancel' h]

/-- The size that is asked for, where there is one. -/
theorem toNat_size {size : ℕ} (h : env.tellg.toInt = size) :
    (env.tellg.toUInt64 + 1).toNat = size + 1 := by
  have hle : (0 : Int64) ≤ env.tellg := by
    rw [Int64.le_iff_toInt_le, h]
    exact Int.natCast_nonneg size
  have hsize : env.tellg.toUInt64.toNat = size := by
    rw [Int64.toNat_toUInt64_of_le hle, Int64.toNatClampNeg, h, Int.toNat_natCast]
  have hlt := Int64.toInt_lt env.tellg
  rw [UInt64.toNat_add, hsize]
  exact Nat.mod_eq_of_lt (by simp only [UInt64.toNat_one]; omega)

theorem ReadEnv.ReadsAll.read_eq (h : env.ReadsAll) : env.read env.tellg = env.content := by
  rw [ReadEnv.read, if_pos h.seekg, h.tellg, Int.toNat_natCast, Nat.min_eq_left h.readable,
    List.take_length]

/-- **A file that is read whole** is in the buffer, with a zero after it. -/
theorem file2buf_whole (h : env.ReadsAll) (hpath : filePath ≠ none) (hopen : env.isOpen = true)
    (hcalloc : env.calloc = true) :
    utilsFilesFile2buf env filePath = some (env.content ++ [0]) := by
  rw [file2buf_eq hpath hopen hcalloc, h.read_eq, toNat_size h.tellg, filled, List.drop_replicate,
    Nat.add_sub_cancel_left]
  rfl

theorem ReadEnv.ReadsAll.succeeds (h : env.ReadsAll) (hopen : env.isOpen = true)
    (hcalloc : env.calloc = true) : env.Succeeds where
  isOpen := hopen
  tellg hminus := by
    have htellg := h.tellg
    rw [hminus] at htellg
    exact absurd (htellg ▸ Int.natCast_nonneg _) (by decide)
  calloc := hcalloc
  seekg := h.seekg
  read := by rw [h.read_eq, h.tellg]

/-- A buffer as long as the file and one more, of which as much has been read as was asked for,
holds the whole file. -/
theorem readsAll_of_whole (h : env.Succeeds)
    (hwhole : filled (env.tellg.toUInt64 + 1).toNat (env.read env.tellg) = env.content ++ [0]) :
    env.ReadsAll := by
  have hsize := toNat_size h.read.symm
  have hlen := congrArg List.length hwhole
  rw [hsize, length_filled (Nat.le_succ _), List.length_append, List.length_singleton] at hlen
  have hread : (env.read env.tellg).length = env.content.length := Nat.succ.inj hlen
  refine ⟨by rw [← h.read, hread], h.seekg, ?_⟩
  rw [ReadEnv.read, if_pos h.seekg, List.length_take] at hread
  omega

/-- **What is returned is the whole file or `NULL`**, exactly if the function gets no buffer, or
reads all of the file into it. -/
theorem file2buf_reports_iff (env : ReadEnv) (filePath : Option (List Char)) :
    ReportsFailure env filePath ↔ filePath = none ∨ env.isOpen = false ∨ env.calloc = false ∨
      env.ReadsAll := by
  by_cases hnull : filePath = none ∨ env.isOpen = false ∨ env.calloc = false
  · have hnone : utilsFilesFile2buf env filePath = none := by
      rw [utilsFilesFile2buf]
      rcases hnull with h | h | h <;> simp [h]
    refine iff_of_true ⟨fun buf hbuf => ?_, fun _ => hnone⟩ (by tauto)
    cases hnone.symm.trans hbuf
  · simp only [not_or, Bool.not_eq_false] at hnull
    obtain ⟨hpath, hopen, hcalloc⟩ := hnull
    simp only [hpath, hopen, hcalloc, Bool.true_eq_false, false_or]
    constructor
    · intro h
      have hsome := file2buf_eq hpath hopen hcalloc
      have hsucc : env.Succeeds := by
        by_contra hfail
        cases hsome.symm.trans (h.failed hfail)
      exact readsAll_of_whole hsucc (h.whole _ hsome)
    · intro h
      refine ⟨fun buf hbuf => ?_, fun hfail => absurd (h.succeeds hopen hcalloc) hfail⟩
      rw [file2buf_whole h hpath hopen hcalloc] at hbuf
      exact (Option.some.inj hbuf).symm

/-- A file of one byte, which cannot be read: an error of the disk. -/
def unreadable : ReadEnv where
  content := [65]
  isOpen := true
  tellg := 1
  calloc := true
  seekg := true
  readable := 0

/-- Then what is returned are two zeros. -/
theorem zeros_for_unreadable : ¬ReportsFailure unreadable (some []) := by
  intro h
  exact absurd (h.whole [0, 0] (by decide)) (by decide)

end NginxTools.UtilsFiles
