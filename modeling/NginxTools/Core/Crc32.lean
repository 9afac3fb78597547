import NginxTools.Library.Crc
import Mathlib.Algebra.Group.Nat.Defs

/-!
# The hash of a key

The request limiter and the traffic status module find a key by `ngx_crc32_short`, which takes the
bytes in two halves, with a table of sixteen entries:

    while (len--) {
        c = *p++;
        crc = ngx_crc32_table_short[(crc ^ (c & 0xf)) & 0xf] ^ (crc >> 4);
        crc = ngx_crc32_table_short[(crc ^ (c >> 4)) & 0xf] ^ (crc >> 4);
    }

`ngx_crc32_long` has a table of 256 entries and takes whole bytes. The traffic status module takes
two keys of one hash for the same one where it looks at the node it used last.

## The model

The functions are as in `ngx_crc32.h`, on lists of bytes, with the tables of `ngx_crc32.c`.

## What is proved

Both functions are the check of the polynomial `0xedb88320`, bit by bit, and so is the hash of a
string that is taken in pieces (`crc32_agree`). **No two keys of one length that differ only in four
bytes next to each other have the same hash** (`crc32_burst`); others may.
-/

namespace NginxTools.Core

open NginxTools.Library

/-! ### The functions -/

/-- `ngx_crc32_table16`. -/
def crc32Table16 : List UInt32 :=
  [0x00000000, 0x1db71064, 0x3b6e20c8, 0x26d930ac, 0x76dc4190, 0x6b6b51f4,
   0x4db26158, 0x5005713c, 0xedb88320, 0xf00f9344, 0xd6d6a3e8, 0xcb61b38c,
   0x9b64c2b0, 0x86d3d2d4, 0xa00ae278, 0xbdbdf21c]

/-- `ngx_crc32_table256`. -/
def crc32Table256 : List UInt32 :=
  [0x00000000, 0x77073096, 0xee0e612c, 0x990951ba, 0x076dc419, 0x706af48f,
   0xe963a535, 0x9e6495a3, 0x0edb8832, 0x79dcb8a4, 0xe0d5e91e, 0x97d2d988,
   0x09b64c2b, 0x7eb17cbd, 0xe7b82d07, 0x90bf1d91, 0x1db71064, 0x6ab020f2,
   0xf3b97148, 0x84be41de, 0x1adad47d, 0x6ddde4eb, 0xf4d4b551, 0x83d385c7,
   0x136c9856, 0x646ba8c0, 0xfd62f97a, 0x8a65c9ec, 0x14015c4f, 0x63066cd9,
   0xfa0f3d63, 0x8d080df5, 0x3b6e20c8, 0x4c69105e, 0xd56041e4, 0xa2677172,
   0x3c03e4d1, 0x4b04d447, 0xd20d85fd, 0xa50ab56b, 0x35b5a8fa, 0x42b2986c,
   0xdbbbc9d6, 0xacbcf940, 0x32d86ce3, 0x45df5c75, 0xdcd60dcf, 0xabd13d59,
   0x26d930ac, 0x51de003a, 0xc8d75180, 0xbfd06116, 0x21b4f4b5, 0x56b3c423,
   0xcfba9599, 0xb8bda50f, 0x2802b89e, 0x5f058808, 0xc60cd9b2, 0xb10be924,
   0x2f6f7c87, 0x58684c11, 0xc1611dab, 0xb6662d3d, 0x76dc4190, 0x01db7106,
   0x98d220bc, 0xefd5102a, 0x71b18589, 0x06b6b51f, 0x9fbfe4a5, 0xe8b8d433,
   0x7807c9a2, 0x0f00f934, 0x9609a88e, 0xe10e9818, 0x7f6a0dbb, 0x086d3d2d,
   0x91646c97, 0xe6635c01, 0x6b6b51f4, 0x1c6c6162, 0x856530d8, 0xf262004e,
   0x6c0695ed, 0x1b01a57b, 0x8208f4c1, 0xf50fc457, 0x65b0d9c6, 0x12b7e950,
   0x8bbeb8ea, 0xfcb9887c, 0x62dd1ddf, 0x15da2d49, 0x8cd37cf3, 0xfbd44c65,
   0x4db26158, 0x3ab551ce, 0xa3bc0074, 0xd4bb30e2, 0x4adfa541, 0x3dd895d7,
   0xa4d1c46d, 0xd3d6f4fb, 0x4369e96a, 0x346ed9fc, 0xad678846, 0xda60b8d0,
   0x44042d73, 0x33031de5, 0xaa0a4c5f, 0xdd0d7cc9, 0x5005713c, 0x270241aa,
   0xbe0b1010, 0xc90c2086, 0x5768b525, 0x206f85b3, 0xb966d409, 0xce61e49f,
   0x5edef90e, 0x29d9c998, 0xb0d09822, 0xc7d7a8b4, 0x59b33d17, 0x2eb40d81,
   0xb7bd5c3b, 0xc0ba6cad, 0xedb88320, 0x9abfb3b6, 0x03b6e20c, 0x74b1d29a,
   0xead54739, 0x9dd277af, 0x04db2615, 0x73dc1683, 0xe3630b12, 0x94643b84,
   0x0d6d6a3e, 0x7a6a5aa8, 0xe40ecf0b, 0x9309ff9d, 0x0a00ae27, 0x7d079eb1,
   0xf00f9344, 0x8708a3d2, 0x1e01f268, 0x6906c2fe, 0xf762575d, 0x806567cb,
   0x196c3671, 0x6e6b06e7, 0xfed41b76, 0x89d32be0, 0x10da7a5a, 0x67dd4acc,
   0xf9b9df6f, 0x8ebeeff9, 0x17b7be43, 0x60b08ed5, 0xd6d6a3e8, 0xa1d1937e,
   0x38d8c2c4, 0x4fdff252, 0xd1bb67f1, 0xa6bc5767, 0x3fb506dd, 0x48b2364b,
   0xd80d2bda, 0xaf0a1b4c, 0x36034af6, 0x41047a60, 0xdf60efc3, 0xa867df55,
   0x316e8eef, 0x4669be79, 0xcb61b38c, 0xbc66831a, 0x256fd2a0, 0x5268e236,
   0xcc0c7795, 0xbb0b4703, 0x220216b9, 0x5505262f, 0xc5ba3bbe, 0xb2bd0b28,
   0x2bb45a92, 0x5cb36a04, 0xc2d7ffa7, 0xb5d0cf31, 0x2cd99e8b, 0x5bdeae1d,
   0x9b64c2b0, 0xec63f226, 0x756aa39c, 0x026d930a, 0x9c0906a9, 0xeb0e363f,
   0x72076785, 0x05005713, 0x95bf4a82, 0xe2b87a14, 0x7bb12bae, 0x0cb61b38,
   0x92d28e9b, 0xe5d5be0d, 0x7cdcefb7, 0x0bdbdf21, 0x86d3d2d4, 0xf1d4e242,
   0x68ddb3f8, 0x1fda836e, 0x81be16cd, 0xf6b9265b, 0x6fb077e1, 0x18b74777,
   0x88085ae6, 0xff0f6a70, 0x66063bca, 0x11010b5c, 0x8f659eff, 0xf862ae69,
   0x616bffd3, 0x166ccf45, 0xa00ae278, 0xd70dd2ee, 0x4e048354, 0x3903b3c2,
   0xa7672661, 0xd06016f7, 0x4969474d, 0x3e6e77db, 0xaed16a4a, 0xd9d65adc,
   0x40df0b66, 0x37d83bf0, 0xa9bcae53, 0xdebb9ec5, 0x47b2cf7f, 0x30b5ffe9,
   0xbdbdf21c, 0xcabac28a, 0x53b39330, 0x24b4a3a6, 0xbad03605, 0xcdd70693,
   0x54de5729, 0x23d967bf, 0xb3667a2e, 0xc4614ab8, 0x5d681b02, 0x2a6f2b94,
   0xb40bbe37, 0xc30c8ea1, 0x5a05df1b, 0x2d02ef8d]

/-- A turn of `ngx_crc32_short`. -/
def crc32ShortTurn (crc : UInt32) (c : UInt8) : UInt32 :=
  let crc := crc32Table16.getD ((crc ^^^ (c.toUInt32 &&& 0xf)) &&& 0xf).toNat 0 ^^^ (crc >>> 4)
  crc32Table16.getD ((crc ^^^ (c.toUInt32 >>> 4)) &&& 0xf).toNat 0 ^^^ (crc >>> 4)

/-- `ngx_crc32_short`. -/
def crc32Short (p : List UInt8) : UInt32 := p.foldl crc32ShortTurn 0xffffffff ^^^ 0xffffffff

/-- A turn of `ngx_crc32_long`. -/
def crc32LongTurn (crc : UInt32) (c : UInt8) : UInt32 :=
  crc32Table256.getD ((crc ^^^ c.toUInt32) &&& 0xff).toNat 0 ^^^ (crc >>> 8)

/-- `ngx_crc32_long`. -/
def crc32Long (p : List UInt8) : UInt32 := p.foldl crc32LongTurn 0xffffffff ^^^ 0xffffffff

/-- `ngx_crc32_init`. -/
def crc32Init : UInt32 := 0xffffffff

/-- `ngx_crc32_update`. -/
def crc32Update (crc : UInt32) (p : List UInt8) : UInt32 := p.foldl crc32LongTurn crc

/-- `ngx_crc32_final`. -/
def crc32Final (crc : UInt32) : UInt32 := crc ^^^ 0xffffffff

/-! ### Bit by bit -/

/-- The polynomial. -/
def polynomial : BitVec 32 := 0xedb88320#32

/-- A byte, in the low bits of the register. -/
def digit (c : UInt8) : BitVec 32 := c.toUInt32.toBitVec

/-- The check of a string, bit by bit. -/
def crc32Bits (p : List UInt8) : BitVec 32 :=
  Crc.feeds polynomial 8 0xffffffff#32 (p.map digit) ^^^ 0xffffffff#32

theorem fits_and_low {n : ℕ} (r : BitVec 32) :
    Crc.Fits n (r &&& BitVec.ofNat 32 (2 ^ n - 1)) := by
  intro i hi
  rw [BitVec.getLsbD_and, BitVec.getLsbD_ofNat, Nat.testBit_two_pow_sub_one]
  simp [Nat.not_lt.mpr hi]

/-- An entry of a table is its index, shifted through. -/
theorem turn_eq {table : List UInt32} {n : ℕ} (hn : n ≤ 32)
    (htable : ∀ i < 2 ^ n, (table.getD i 0).toBitVec =
      Crc.shifts polynomial n (BitVec.ofNat 32 i)) (r : BitVec 32) :
    (table.getD (r &&& BitVec.ofNat 32 (2 ^ n - 1)).toNat 0).toBitVec ^^^ r >>> n =
      Crc.shifts polynomial n r := by
  have hlow : (r &&& BitVec.ofNat 32 (2 ^ n - 1)).toNat < 2 ^ n := by
    have hpow : 2 ^ n ≤ 2 ^ 32 := Nat.pow_le_pow_right (by omega) hn
    rw [BitVec.toNat_and, BitVec.toNat_ofNat, Nat.mod_eq_of_lt (by omega),
      Nat.and_two_pow_sub_one_eq_mod]
    exact Nat.mod_lt _ (Nat.two_pow_pos n)
  rw [htable _ hlow, BitVec.ofNat_toNat, BitVec.setWidth_eq, ← Crc.shifts_eq]
  · intro i hi
    rw [BitVec.getLsbD_and, BitVec.getLsbD_ofNat, Nat.testBit_two_pow_sub_one]
    simp [hi, show i < 32 by omega]
  · exact fits_and_low r

theorem crc32Table16_eq : ∀ i < 2 ^ 4, (crc32Table16.getD i 0).toBitVec =
    Crc.shifts polynomial 4 (BitVec.ofNat 32 i) := by decide +kernel

theorem crc32Table256_eq : ∀ i < 2 ^ 8, (crc32Table256.getD i 0).toBitVec =
    Crc.shifts polynomial 8 (BitVec.ofNat 32 i) := by decide +kernel

theorem fits_digit (c : UInt8) : Crc.Fits 8 (digit c) := by
  intro i hi
  rw [digit, UInt8.toBitVec_toUInt32, BitVec.getLsbD_setWidth, BitVec.getLsbD_of_ge _ _ hi,
    Bool.and_false]

theorem ushiftRight_eq_zero {n m : ℕ} {d : BitVec 32} (h : Crc.Fits n d) (hm : n ≤ m) :
    d >>> m = 0#32 := by
  refine BitVec.eq_of_getLsbD_eq fun i _ => ?_
  rw [BitVec.getLsbD_ushiftRight, h _ (by omega), BitVec.getLsbD_zero]

/-- Looking an entry up adds a digit, and shifts it through. -/
theorem turn_eq_feed {table : List UInt32} {n : ℕ} (hn : n ≤ 32)
    (htable : ∀ i < 2 ^ n, (table.getD i 0).toBitVec =
      Crc.shifts polynomial n (BitVec.ofNat 32 i)) (r : BitVec 32) {d : BitVec 32}
    (hd : Crc.Fits n d) :
    (table.getD ((r ^^^ d) &&& BitVec.ofNat 32 (2 ^ n - 1)).toNat 0).toBitVec ^^^ r >>> n =
      Crc.feed polynomial n r d := by
  have h := turn_eq hn htable (r ^^^ d)
  rw [BitVec.ushiftRight_xor_distrib, ushiftRight_eq_zero hd (Nat.le_refl n),
    BitVec.xor_zero] at h
  exact h

theorem crc32LongTurn_eq (crc : UInt32) (c : UInt8) :
    (crc32LongTurn crc c).toBitVec = Crc.feed polynomial 8 crc.toBitVec (digit c) := by
  rw [← turn_eq_feed (by omega) crc32Table256_eq crc.toBitVec (fits_digit c)]
  rfl

/-- The two halves of a byte. -/
theorem digit_eq (c : UInt8) :
    digit c = (digit c &&& BitVec.ofNat 32 (2 ^ 4 - 1)) ^^^ (digit c >>> 4) <<< 4 := by
  refine BitVec.eq_of_getLsbD_eq fun i hi => ?_
  rw [BitVec.getLsbD_xor, BitVec.getLsbD_and, BitVec.getLsbD_ofNat, Nat.testBit_two_pow_sub_one,
    BitVec.getLsbD_shiftLeft, BitVec.getLsbD_ushiftRight]
  rcases Nat.lt_or_ge i 4 with hlt | hge
  · simp [hlt, hi]
  · simp [Nat.not_lt.mpr hge, hi, Nat.add_sub_cancel' hge]

theorem fits_half (c : UInt8) : Crc.Fits 4 (digit c >>> 4) := by
  intro i hi
  rw [BitVec.getLsbD_ushiftRight]
  exact fits_digit c _ (by omega)

theorem crc32ShortTurn_eq (crc : UInt32) (c : UInt8) :
    (crc32ShortTurn crc c).toBitVec = Crc.feed polynomial 8 crc.toBitVec (digit c) := by
  rw [digit_eq, show 8 = 4 + 4 from rfl, Crc.feed_add (fits_half c) (by omega),
    ← turn_eq_feed (by omega) crc32Table16_eq _ (fits_half c),
    ← turn_eq_feed (by omega) crc32Table16_eq _ (fits_and_low _)]
  rfl

theorem foldl_toBitVec {turn : UInt32 → UInt8 → UInt32}
    (hturn : ∀ crc c, (turn crc c).toBitVec = Crc.feed polynomial 8 crc.toBitVec (digit c))
    (p : List UInt8) (crc : UInt32) :
    (p.foldl turn crc).toBitVec = Crc.feeds polynomial 8 crc.toBitVec (p.map digit) := by
  induction p generalizing crc with
  | nil => rfl
  | cons c p ih =>
    rw [List.foldl_cons, ih, hturn]
    rfl

/-- **The table of sixteen entries** takes the check bit by bit. -/
theorem crc32Short_eq (p : List UInt8) : (crc32Short p).toBitVec = crc32Bits p := by
  rw [crc32Short, UInt32.toBitVec_xor, foldl_toBitVec crc32ShortTurn_eq]
  rfl

/-- **The table of 256 entries** takes the same. -/
theorem crc32Long_eq (p : List UInt8) : (crc32Long p).toBitVec = crc32Bits p := by
  rw [crc32Long, UInt32.toBitVec_xor, foldl_toBitVec crc32LongTurn_eq]
  rfl

theorem foldl_crc32Update (ps : List (List UInt8)) (crc : UInt32) :
    ps.foldl crc32Update crc = crc32Update crc ps.flatten := by
  induction ps generalizing crc with
  | nil => rfl
  | cons p ps ih =>
    rw [List.foldl_cons, ih, List.flatten_cons]
    exact List.foldl_append.symm

/-- **The ways to take a hash agree**: by the small table, by the large one, and in pieces. -/
theorem crc32_agree (ps : List (List UInt8)) :
    crc32Short ps.flatten = crc32Long ps.flatten ∧
      crc32Final (ps.foldl crc32Update crc32Init) = crc32Long ps.flatten ∧
      (crc32Long ps.flatten).toBitVec = crc32Bits ps.flatten := by
  have hshort : crc32Short ps.flatten = crc32Long ps.flatten := by
    rw [← UInt32.toBitVec_inj, crc32Short_eq, crc32Long_eq]
  refine ⟨hshort, ?_, crc32Long_eq _⟩
  rw [foldl_crc32Update]
  rfl

/-! ### Collisions -/

theorem digit_injective : Function.Injective digit := by
  intro a b h
  have h32 : a.toUInt32 = b.toUInt32 := UInt32.toBitVec_inj.mp h
  simpa using congrArg UInt32.toUInt8 h32

/-- **Keys that differ in four bytes next to each other have different hashes**, if they are of one
length. -/
theorem crc32_burst {x y : List UInt8} (hlen : x.length = y.length) (hx : x.length ≤ 4)
    (hne : x ≠ y) (a b : List UInt8) : crc32Short (a ++ x ++ b) ≠ crc32Short (a ++ y ++ b) := by
  intro h
  have hbits : crc32Bits (a ++ x ++ b) = crc32Bits (a ++ y ++ b) := by
    rw [← crc32Short_eq, ← crc32Short_eq, h]
  have hfeeds := (BitVec.xor_left_inj _).mp hbits
  simp only [List.map_append] at hfeeds
  have hfits : ∀ p : List UInt8, ∀ d ∈ p.map digit, Crc.Fits 8 d := by
    intro p d hd
    obtain ⟨c, -, rfl⟩ := List.mem_map.mp hd
    exact fits_digit c
  have hmap : x.map digit = y.map digit := by
    refine Crc.feeds_burst (by decide) (hfits x) (hfits y) (by simp [hlen]) ?_ _ _ _ hfeeds
    rw [List.length_map]
    omega
  exact hne ((List.map_inj_right digit_injective).mp hmap)

/-- The servers `a.example` and `b.example` have nodes of their own. -/
theorem crc32_burst_twoServers :
    crc32Short ("NO\x1f".toUTF8.toList ++ [97] ++ ".example".toUTF8.toList) ≠
      crc32Short ("NO\x1f".toUTF8.toList ++ [98] ++ ".example".toUTF8.toList) :=
  crc32_burst (x := [97]) (y := [98]) rfl (by decide) (by decide) _ _

/-- Where they differ in more, they may have the same. -/
theorem crc32Short_collision : ∃ x y : List UInt8,
    x.length = y.length ∧ x ≠ y ∧ crc32Short x = crc32Short y :=
  ⟨[112, 108, 117, 109, 108, 101, 115, 115], [98, 117, 99, 107, 101, 114, 111, 111], rfl,
    by decide, by decide +kernel⟩

end NginxTools.Core
