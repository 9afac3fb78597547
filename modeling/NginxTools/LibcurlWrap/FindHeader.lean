import NginxTools.LibcurlWrap.Request

/-!
# Looking for a header

`find_header` goes through the request's headers for one of a given name, and, if that is asked for,
a value:

    p= (char*)strchr(hdr, ':');
    ...
    hdr_tag_size= p- hdr;
    ...
    if(strncasecmp(hdr_needle, hdr, hdr_tag_size)== 0) {
        if(val_needle== NULL || strstr(p, val_needle)!= NULL) {

The length of the comparison is that of the header's name, not of the needle.

## The model

`headerName` and `headerRest` split a header at its first colon. `Named` is the header looked for;
`Abbreviated` one whose name stops short of the needle. `IsFirst` says of a result that it is the
first index with a property, or `-1` for none.

## What is proved

`headerMatches_iff` — a header is accepted if it is `Named` or `Abbreviated`, and an extension of
the needle never is (`not_headerMatches_of_extends`). Hence `findHeader_named_iff`: the result
is the first header so named exactly when every abbreviated one comes after one that is.
-/

namespace NginxTools.LibcurlWrap

/-! ### Headers -/

/-- The name of a header, up to its first colon. -/
def headerName (hdr : CStr) : CStr := hdr.take (hdr.idxOf 58)

/-- The text of a header from its first colon on. -/
def headerRest (hdr : CStr) : CStr := hdr.drop (hdr.idxOf 58)

/-- A string without regard to case. -/
def foldCase (s : CStr) : CStr := s.map tolower

/-- A header of the form `name: value`, the name of proper length, with the value that is asked
for. -/
structure Formed (hdr : CStr) (valNeedle : Option CStr) : Prop where
  colon : 58 ∈ hdr
  nonempty : headerName hdr ≠ []
  short : (headerName hdr).length ≤ hdrsMaxSize
  value : ∀ val, valNeedle = some val → val <:+: headerRest hdr

/-- The header looked for. -/
structure Named (hdr hdrNeedle : CStr) (valNeedle : Option CStr) : Prop where
  formed : Formed hdr valNeedle
  name : foldCase (headerName hdr) = foldCase hdrNeedle

/-- A header whose name is a proper prefix of the needle. -/
structure Abbreviated (hdr hdrNeedle : CStr) (valNeedle : Option CStr) : Prop where
  formed : Formed hdr valNeedle
  pre : foldCase (headerName hdr) <+: foldCase hdrNeedle
  ne : foldCase (headerName hdr) ≠ foldCase hdrNeedle

/-! ### Comparing -/

theorem tolower_eq_zero {b : UInt8} : tolower b = 0 ↔ b = 0 := by
  unfold tolower
  split_ifs with h
  · rw [← UInt8.toNat_inj, ← UInt8.toNat_inj, UInt8.toNat_add]
    obtain ⟨h1, h2⟩ := h
    rw [UInt8.le_iff_toNat_le] at h1 h2
    simp at h1 h2 ⊢
    omega
  · rfl

/-- Strings that differ at their first place differ. -/
theorem strncasecmp_ne_zero {a b : CStr} {n : ℕ} (h : tolower (a.headD 0) ≠ tolower (b.headD 0)) :
    strncasecmp a b (n + 1) ≠ 0 := by
  have hne : (tolower (a.headD 0)).toNat ≠ (tolower (b.headD 0)).toNat :=
    fun he => h (UInt8.toNat_inj.mp he)
  simp only [strncasecmp]
  rw [if_pos h]
  omega

/-- **What the comparison says**: the first `n` bytes of a string without NULs begin the other. -/
theorem strncasecmp_eq_zero_iff {a b : CStr} {n : ℕ} (hb : 0 ∉ b) (hn : n ≤ b.length) :
    strncasecmp a b n = 0 ↔ foldCase (b.take n) <+: foldCase a := by
  induction n generalizing a b with
  | zero => simp [strncasecmp, foldCase]
  | succ n ih =>
    cases b with
    | nil => simp at hn
    | cons y b =>
      obtain ⟨hy, hb'⟩ : 0 ≠ y ∧ 0 ∉ b := by simpa using hb
      have hy0 : tolower y ≠ 0 := fun h => hy (tolower_eq_zero.mp h).symm
      cases a with
      | nil =>
        have h0 : tolower 0 ≠ tolower y := by
          rw [tolower_eq_zero.mpr rfl]
          exact hy0.symm
        exact iff_of_false (strncasecmp_ne_zero h0) (by simp [foldCase])
      | cons x a =>
        by_cases hxy : tolower x = tolower y
        · have hrec := ih (a := a) (b := b) hb' (by simpa using hn)
          simp [strncasecmp, hxy, hy0, hrec, foldCase]
        · have hyx : ¬ tolower y = tolower x := fun h => hxy h.symm
          exact iff_of_false (strncasecmp_ne_zero hxy) (by simp [foldCase, hyx])

theorem length_headerName (hdr : CStr) : (headerName hdr).length = hdr.idxOf 58 := by
  rw [headerName, List.length_take, Nat.min_eq_left List.idxOf_le_length]

/-- The tests of the form and the value of a header. -/
theorem formed_iff {hdr : CStr} {valNeedle : Option CStr} :
    Formed hdr valNeedle ↔ ¬ (hdr.idxOf 58 = hdr.length ∨ hdr.idxOf 58 = 0) ∧
      ¬ hdr.idxOf 58 > hdrsMaxSize ∧ ∀ val, valNeedle = some val →
      val <:+: hdr.drop (hdr.idxOf 58) := by
  have hlen := length_headerName hdr
  constructor
  · rintro ⟨hc, hne, hs, hv⟩
    have h1 := List.idxOf_lt_length_of_mem hc
    have h2 := List.length_pos_of_ne_nil hne
    exact ⟨by omega, by omega, hv⟩
  · rintro ⟨h1, h2, hv⟩
    have hle : hdr.idxOf 58 ≤ hdr.length := List.idxOf_le_length
    refine ⟨List.idxOf_lt_length_iff.mp (by omega), List.ne_nil_of_length_pos (by omega), by omega,
      hv⟩

/-- **Which headers are accepted.** -/
theorem headerMatches_iff {hdr hdrNeedle : CStr} {valNeedle : Option CStr} (h0 : 0 ∉ hdr) :
    headerMatches hdr hdrNeedle valNeedle = true ↔
      Named hdr hdrNeedle valNeedle ∨ Abbreviated hdr hdrNeedle valNeedle := by
  have hcmp : strncasecmp hdrNeedle hdr (hdr.idxOf 58) = 0 ↔
      foldCase (headerName hdr) <+: foldCase hdrNeedle :=
    strncasecmp_eq_zero_iff h0 List.idxOf_le_length
  have hboth : Named hdr hdrNeedle valNeedle ∨ Abbreviated hdr hdrNeedle valNeedle ↔
      Formed hdr valNeedle ∧ foldCase (headerName hdr) <+: foldCase hdrNeedle := by
    constructor
    · rintro (⟨hf, hn⟩ | ⟨hf, hp, -⟩)
      · exact ⟨hf, hn ▸ List.prefix_rfl⟩
      · exact ⟨hf, hp⟩
    · rintro ⟨hf, hp⟩
      by_cases hn : foldCase (headerName hdr) = foldCase hdrNeedle
      · exact .inl ⟨hf, hn⟩
      · exact .inr ⟨hf, hp, hn⟩
  rw [hboth, formed_iff]
  simp only [headerMatches]
  split_ifs with h1 h2 h3
  · exact iff_of_false (by simp) fun h => h.1.1 h1
  · exact iff_of_false (by simp) fun h => h.1.2.1 h2
  · have hp := hcmp.mp h3
    cases valNeedle with
    | none => simpa [h1, h2] using hp
    | some val => simpa [h1, h2] using fun _ => hp
  · exact iff_of_false (by simp) fun h => h3 (hcmp.mpr h.2)

/-- An extension of the needle is not accepted. -/
theorem not_headerMatches_of_extends {hdr hdrNeedle : CStr} {valNeedle : Option CStr} (h0 : 0 ∉ hdr)
    (hp : foldCase hdrNeedle <+: foldCase (headerName hdr))
    (hne : foldCase hdrNeedle ≠ foldCase (headerName hdr)) :
    ¬ headerMatches hdr hdrNeedle valNeedle = true := by
  intro h
  rcases (headerMatches_iff h0).mp h with ⟨-, hn⟩ | ⟨-, hp', -⟩
  · exact hne hn.symm
  · exact hne (hp.eq_of_length_le hp'.length_le)

/-! ### The first header -/

/-- The header at an index, among the first `HDRS_MAX_NUM`, has a property. -/
def HeaderAt (headers : Option (List CStr)) (P : CStr → Prop) (i : ℕ) : Prop :=
  i < hdrsMaxNum ∧ ∃ hdr, (headers.getD [])[i]? = some hdr ∧ P hdr

/-- The result is the first index with a property, or `-1` for none. -/
def IsFirst (P : ℕ → Prop) (r : ℤ) : Prop :=
  (∃ i, P i ∧ (∀ j < i, ¬ P j) ∧ r = i) ∨ ((∀ i, ¬ P i) ∧ r = -1)

/-- What is first with one of two properties is first with the first of them exactly when
whatever has the other comes after something that has it. -/
theorem isFirst_or_iff {P Q : ℕ → Prop} {r : ℤ} (h : IsFirst (fun i => P i ∨ Q i) r)
    (hPQ : ∀ i, P i → ¬ Q i) :
    IsFirst P r ↔ ∀ i, Q i → ∃ j < i, P j := by
  rcases h with ⟨k, hk, hfirst, rfl⟩ | ⟨hnone, rfl⟩
  · constructor
    · rintro (⟨j, hj, -, hjk⟩ | ⟨-, hneg⟩) i hi
      · obtain rfl : k = j := by omega
        have hki : ¬ i < k := fun hlt => hfirst i hlt (.inr hi)
        have hne : k ≠ i := by rintro rfl; exact hPQ k hj hi
        exact ⟨k, by omega, hj⟩
      · omega
    · intro hall
      rcases hk with hP | hQ
      · exact .inl ⟨k, hP, fun j hj hPj => hfirst j hj (.inl hPj), rfl⟩
      · obtain ⟨j, hj, hPj⟩ := hall k hQ
        exact absurd (.inl hPj) (hfirst j hj)
  · refine iff_of_true (.inr ⟨fun i hi => hnone i (.inl hi), rfl⟩) fun i hi => ?_
    exact absurd (.inr hi) (hnone i)

/-- The loop from an index on finds the first header that is accepted. -/
theorem findHeaderFrom_spec (hdrNeedle : CStr) (valNeedle : Option CStr) (hdrs : List CStr)
    (i : ℕ) :
    (∃ k hdr, hdrs[k]? = some hdr ∧ i + k < hdrsMaxNum ∧
      headerMatches hdr hdrNeedle valNeedle = true ∧
      (∀ j < k, ∀ h, hdrs[j]? = some h → ¬ headerMatches h hdrNeedle valNeedle = true) ∧
      findHeaderFrom hdrNeedle valNeedle i hdrs = (i + k : ℕ)) ∨
    ((∀ k hdr, hdrs[k]? = some hdr → i + k < hdrsMaxNum →
      ¬ headerMatches hdr hdrNeedle valNeedle = true) ∧
      findHeaderFrom hdrNeedle valNeedle i hdrs = -1) := by
  induction hdrs generalizing i with
  | nil => exact .inr ⟨by simp, rfl⟩
  | cons hdr hdrs ih =>
    by_cases hi : i < hdrsMaxNum
    · by_cases hm : headerMatches hdr hdrNeedle valNeedle = true
      · refine .inl ⟨0, hdr, rfl, hi, hm, by simp, ?_⟩
        simp [findHeaderFrom, hi, hm]
      · have hnext : findHeaderFrom hdrNeedle valNeedle i (hdr :: hdrs) =
            findHeaderFrom hdrNeedle valNeedle (i + 1) hdrs := by
          simp [findHeaderFrom, hi, hm]
        rw [hnext]
        rcases ih (i + 1) with ⟨k, h, hk, hlt, hmk, hfirst, hr⟩ | ⟨hnone, hr⟩
        · refine .inl ⟨k + 1, h, hk, by omega, hmk, fun j hj h' hj' => ?_, by rw [hr]; omega⟩
          cases j with
          | zero =>
            obtain rfl : hdr = h' := by simpa using hj'
            exact hm
          | succ j => exact hfirst j (by omega) h' (by simpa using hj')
        · refine .inr ⟨fun k h hk hlt => ?_, hr⟩
          cases k with
          | zero =>
            obtain rfl : hdr = h := by simpa using hk
            exact hm
          | succ k => exact hnone k h (by simpa using hk) (by omega)
    · exact .inr ⟨fun k h _ hlt => absurd hlt (by omega), by simp [findHeaderFrom, hi]⟩

/-- **`find_header` finds the first header that is accepted.** -/
theorem findHeader_isFirst (headers : Option (List CStr)) (hdrNeedle : CStr)
    (valNeedle : Option CStr) :
    IsFirst (HeaderAt headers fun hdr => headerMatches hdr hdrNeedle valNeedle = true)
      (findHeader headers hdrNeedle valNeedle) := by
  rcases findHeaderFrom_spec hdrNeedle valNeedle (headers.getD []) 0 with
      ⟨k, hdr, hk, hlt, hm, hfirst, hr⟩ | ⟨hnone, hr⟩
  · refine .inl ⟨k, ⟨by omega, hdr, hk, hm⟩, ?_, by rw [findHeader, hr, Nat.zero_add]⟩
    rintro j hj ⟨-, h, hjh, hmj⟩
    exact hfirst j hj h hjh hmj
  · refine .inr ⟨?_, hr⟩
    rintro k ⟨hlt, hdr, hk, hm⟩
    exact hnone k hdr hk (by omega) hm

/-- The header found, if one is, has the needle for its whole name. -/
def WholeName (headers : Option (List CStr)) (hdrNeedle : CStr) (r : ℤ) : Prop :=
  ∀ (i : ℕ) (hdr : CStr), r = i → (headers.getD [])[i]? = some hdr →
    foldCase (headerName hdr) = foldCase hdrNeedle

theorem wholeName_of_isFirst {headers : Option (List CStr)} {hdrNeedle : CStr}
    {valNeedle : Option CStr} {r : ℤ}
    (h : IsFirst (HeaderAt headers (Named · hdrNeedle valNeedle)) r) :
    WholeName headers hdrNeedle r := by
  intro i hdr hr hi
  rcases h with ⟨k, ⟨-, h, hk, hn⟩, -, rfl⟩ | ⟨-, rfl⟩
  · obtain rfl : k = i := by omega
    obtain rfl : h = hdr := by simpa [hk] using hi
    exact hn.name
  · omega

/-- The headers accepted are those named and those abbreviated. -/
theorem headerAt_accepted_iff {headers : Option (List CStr)} (hdrNeedle : CStr)
    (valNeedle : Option CStr) (h0 : ∀ hdr ∈ headers.getD [], 0 ∉ hdr) (i : ℕ) :
    HeaderAt headers (fun hdr => headerMatches hdr hdrNeedle valNeedle = true) i ↔
      HeaderAt headers (Named · hdrNeedle valNeedle) i ∨
      HeaderAt headers (Abbreviated · hdrNeedle valNeedle) i := by
  constructor
  · rintro ⟨hi, hdr, hk, hm⟩
    refine ((headerMatches_iff (h0 hdr (List.mem_of_getElem? hk))).mp hm).imp ?_ ?_
    · exact fun hn => ⟨hi, hdr, hk, hn⟩
    · exact fun ha => ⟨hi, hdr, hk, ha⟩
  · rintro (⟨hi, hdr, hk, hn⟩ | ⟨hi, hdr, hk, ha⟩)
    · exact ⟨hi, hdr, hk, (headerMatches_iff (h0 hdr (List.mem_of_getElem? hk))).mpr (.inl hn)⟩
    · exact ⟨hi, hdr, hk, (headerMatches_iff (h0 hdr (List.mem_of_getElem? hk))).mpr (.inr ha)⟩

/-- **When `find_header` finds exactly the named header**: exactly when every header that
abbreviates the needle comes after one that is so named. -/
theorem findHeader_named_iff {headers : Option (List CStr)} (hdrNeedle : CStr)
    (valNeedle : Option CStr) (h0 : ∀ hdr ∈ headers.getD [], 0 ∉ hdr) :
    IsFirst (HeaderAt headers (Named · hdrNeedle valNeedle))
      (findHeader headers hdrNeedle valNeedle) ∧
      WholeName headers hdrNeedle (findHeader headers hdrNeedle valNeedle) ↔
      ∀ i, HeaderAt headers (Abbreviated · hdrNeedle valNeedle) i →
        ∃ j < i, HeaderAt headers (Named · hdrNeedle valNeedle) j := by
  have hfirst := findHeader_isFirst headers hdrNeedle valNeedle
  have haccepted : HeaderAt headers (fun hdr => headerMatches hdr hdrNeedle valNeedle = true) =
      fun i => HeaderAt headers (Named · hdrNeedle valNeedle) i ∨
        HeaderAt headers (Abbreviated · hdrNeedle valNeedle) i :=
    funext fun i => propext (headerAt_accepted_iff hdrNeedle valNeedle h0 i)
  rw [haccepted] at hfirst
  rw [and_iff_left_of_imp wholeName_of_isFirst]
  refine isFirst_or_iff hfirst ?_
  rintro i ⟨-, hdr, hk, hn⟩ ⟨-, hdr', hk', ha⟩
  obtain rfl : hdr = hdr' := by simpa [hk] using hk'
  exact ha.ne hn.name

/-- Headers of which the second is the one looked for, after one whose name begins the needle. -/
def abbreviatedHeaders : List CStr := [ascii "T: chunked", ascii "Transfer-Encoding: chunked"]

theorem abbreviatedHeaders_noNul :
    ∀ hdr ∈ (some abbreviatedHeaders).getD [], (0 : UInt8) ∉ hdr := by decide

/-- The condition at those headers. -/
theorem findHeader_named_iff_abbreviatedHeaders :
    IsFirst (HeaderAt (some abbreviatedHeaders)
      (Named · (ascii "Transfer-Encoding") (some (ascii "chunked"))))
        (findHeader (some abbreviatedHeaders) (ascii "Transfer-Encoding")
          (some (ascii "chunked"))) ∧
      WholeName (some abbreviatedHeaders) (ascii "Transfer-Encoding")
        (findHeader (some abbreviatedHeaders) (ascii "Transfer-Encoding")
          (some (ascii "chunked"))) ↔
      ∀ i, HeaderAt (some abbreviatedHeaders)
          (Abbreviated · (ascii "Transfer-Encoding") (some (ascii "chunked"))) i →
        ∃ j < i, HeaderAt (some abbreviatedHeaders)
          (Named · (ascii "Transfer-Encoding") (some (ascii "chunked"))) j :=
  findHeader_named_iff _ _ abbreviatedHeaders_noNul

/-- The header that is found there is not of the name looked for. -/
theorem abbreviated_header_found :
    ¬ ∀ (headers : Option (List CStr)) (hdrNeedle : CStr) (valNeedle : Option CStr),
      (∀ hdr ∈ headers.getD [], 0 ∉ hdr) →
      IsFirst (HeaderAt headers (Named · hdrNeedle valNeedle))
        (findHeader headers hdrNeedle valNeedle) ∧
          WholeName headers hdrNeedle (findHeader headers hdrNeedle valNeedle) := by
  intro h
  obtain ⟨-, hwhole⟩ :=
    h (some abbreviatedHeaders) (ascii "Transfer-Encoding") (some (ascii "chunked"))
    abbreviatedHeaders_noNul
  have hname := hwhole 0 (ascii "T: chunked") (by decide) rfl
  revert hname
  decide

end NginxTools.LibcurlWrap
