import CoreOS.FileSys.Names
import CoreOS.Kernel.Chars
import Mathlib.Data.Nat.Digits.Lemmas

/-!
# Numbers as text

`itoa` writes the digits of a number from the lowest to the highest, ends the string and then turns it
around in place, with two indices that move towards each other.  The loops of `strlen`, `strrev` and
`itoa` itself run for as many rounds as they are given; one more than the string has bytes is enough.

What is in the buffer afterwards denotes the number, without a leading zero, and `atoi` gets the number
back from it, also where it is too large for an `int32_t` (`itoa_spec`): there the digits are added up
modulo `2 ^ 32`, and the result has the bits of the number.
-/

namespace CoreOS

open FileSys

/-! ## The functions -/

/-- `strlen`, from byte `len` on. -/
def strlenFrom (s : CStr) : ℕ → ℕ → Option ℕ
  | 0, _ => none
  | fuel + 1, len => if s len ≠ 0 then strlenFrom s fuel (len + 1) else some len

/-- `strlen`. -/
def strlen (fuel : ℕ) (s : CStr) : Option ℕ := strlenFrom s fuel 0

/-- The loop of `strrev`, from the indices `beg` and `last` on. -/
def strrevLoop : ℕ → CStr → ℤ → ℤ → Option CStr
  | 0, _, _, _ => none
  | fuel + 1, s, beg, last =>
    if beg < last then
      let tmp := s last.toNat
      let s := Function.update s last.toNat (s beg.toNat)
      let s := Function.update s beg.toNat tmp
      strrevLoop fuel s (beg + 1) (last - 1)
    else some s

/-- `strrev`. -/
def strrev (fuel : ℕ) (s : CStr) : Option CStr :=
  (strlen fuel s).bind fun len => strrevLoop fuel s 0 (len - 1)

/-- The characters of `lookup`. -/
def lookupChars : List Char :=
  ['0', '1', '2', '3', '4', '5', '6', '7', '8', '9',
    'A', 'B', 'C', 'D', 'E', 'F', 'G', 'H', 'I', 'J', 'K', 'L', 'M',
    'N', 'O', 'P', 'Q', 'R', 'S', 'T', 'U', 'V', 'W', 'X', 'Y', 'Z']

/-- `lookup`, with the `NUL` at its end. -/
def lookup : List (BitVec 8) := lookupChars.map ch ++ [0]

/-- The loop of `itoa`, from byte `n` of the buffer on.  There is no result if it divides by zero or
reads beyond `lookup`. -/
def itoaLoop (radix : BitVec 32) : ℕ → CStr → ℕ → BitVec 32 → Option (CStr × ℕ)
  | 0, _, _, _ => none
  | fuel + 1, buf, n, newval =>
    if newval = 0 then some (buf, n)
    else if radix = 0 then none
    else
      match lookup[(newval % radix).toNat]? with
      | none => none
      | some c => itoaLoop radix fuel (Function.update buf n c) (n + 1) (newval / radix)

/-- `itoa`: the buffer afterwards. -/
def itoa (fuel : ℕ) (value : BitVec 32) (buf : CStr) (radix : BitVec 32) : Option CStr :=
  if value = 0 then some (Function.update (Function.update buf 0 (ch '0')) 1 0)
  else
    (itoaLoop radix fuel buf 0 value).bind fun r => strrev fuel (Function.update r.1 r.2 0)

/-! ## Digits -/

/-- The character for a digit. -/
def digitChar (d : ℕ) : BitVec 8 := lookup.getD d 0

/-- The string consists of digits, and `n` is the number that they denote. -/
def Denotes (radix : ℕ) (u : List (BitVec 8)) (n : ℕ) : Prop :=
  ∃ ds : List ℕ, (∀ d ∈ ds, d < radix) ∧ u = ds.map digitChar ∧ Nat.ofDigits radix ds.reverse = n

theorem digitChar_spec : ∀ d < 36, lookup[d]? = some (digitChar d) ∧ digitChar d ≠ 0 ∧
    (digitChar d = ch '0' → d = 0) ∧ digit (digitChar d) = d := by
  decide

/-- **`atoi` adds up the digits**, modulo `2 ^ 32`. -/
theorem atoi_map_digitChar {radix : ℕ} {ds : List ℕ} (hds : ∀ d ∈ ds, d < 36) :
    atoi (ds.reverse.map digitChar) radix = BitVec.ofNat 32 (Nat.ofDigits radix ds) := by
  induction ds with
  | nil => rfl
  | cons d ds ih =>
    obtain ⟨hd, hds⟩ := List.forall_mem_cons.mp hds
    have hlast : atoi ((d :: ds).reverse.map digitChar) radix =
        atoi (ds.reverse.map digitChar) radix * BitVec.ofInt 32 radix +
          BitVec.ofInt 32 (digit (digitChar d)) := by
      rw [atoi, List.reverse_cons, List.map_append, List.foldl_append]
      rfl
    rw [hlast, ih hds, (digitChar_spec d hd).2.2.2, BitVec.ofInt_natCast, BitVec.ofInt_natCast,
      Nat.ofDigits_cons, ← BitVec.ofNat_mul, ← BitVec.ofNat_add, Nat.add_comm, Nat.mul_comm]

/-! ## Writing the digits -/

theorem toNat_radix {radix : ℕ} (h₃₆ : radix ≤ 36) : (BitVec.ofNat 32 radix).toNat = radix := by
  rw [BitVec.toNat_ofNat]
  exact Nat.mod_eq_of_lt (by omega)

/-- One round writes the lowest digit and goes on with the others. -/
theorem itoaLoop_of_ne {radix : ℕ} (h₂ : 2 ≤ radix) (h₃₆ : radix ≤ 36) (fuel : ℕ) (buf : CStr) (n : ℕ)
    {newval : BitVec 32} (h : newval ≠ 0) :
    itoaLoop (BitVec.ofNat 32 radix) (fuel + 1) buf n newval =
      itoaLoop (BitVec.ofNat 32 radix) fuel
        (Function.update buf n (digitChar (newval.toNat % radix))) (n + 1)
        (newval / BitVec.ofNat 32 radix) := by
  have hradix := toNat_radix h₃₆
  have hne : ¬ BitVec.ofNat 32 radix = 0 := by
    intro hzero
    have hradix₀ : radix = 0 := hradix.symm.trans (congrArg BitVec.toNat hzero)
    omega
  have hlt : newval.toNat % radix < 36 := (Nat.mod_lt _ (by omega)).trans_le h₃₆
  have hmod : (newval % BitVec.ofNat 32 radix).toNat = newval.toNat % radix := by
    rw [BitVec.toNat_umod, hradix]
  rw [itoaLoop, if_neg h, if_neg hne, hmod, (digitChar_spec _ hlt).1]

/-- **The loop of `itoa`** writes the digits, the lowest first. -/
theorem itoaLoop_eq {radix : ℕ} (h₂ : 2 ≤ radix) (h₃₆ : radix ≤ 36) {fuel : ℕ} (buf : CStr) (n : ℕ)
    (newval : BitVec 32) (hfuel : (Nat.digits radix newval.toNat).length < fuel) :
    ∃ buf', itoaLoop (BitVec.ofNat 32 radix) fuel buf n newval =
        some (buf', n + (Nat.digits radix newval.toNat).length) ∧
      (∀ j < n, buf' j = buf j) ∧
      ∀ (k : ℕ) (hk : k < (Nat.digits radix newval.toNat).length),
        buf' (n + k) = digitChar (Nat.digits radix newval.toNat)[k] := by
  induction fuel generalizing buf n newval with
  | zero => omega
  | succ fuel ih =>
    by_cases hzero : newval = 0
    · subst hzero
      have hdigits : Nat.digits radix (0 : BitVec 32).toNat = [] := Nat.digits_zero radix
      rw [hdigits]
      exact ⟨buf, if_pos rfl, fun j _ => rfl, fun k hk => absurd hk (Nat.not_lt_zero k)⟩
    · have hpos : 0 < newval.toNat :=
        Nat.pos_of_ne_zero fun h => hzero (BitVec.eq_of_toNat_eq h)
      have hdigits := Nat.digits_def' h₂ hpos
      have hdiv : (newval / BitVec.ofNat 32 radix).toNat = newval.toNat / radix := by
        rw [BitVec.toNat_udiv, toNat_radix h₃₆]
      rw [hdigits, List.length_cons] at hfuel
      obtain ⟨buf', hloop, hbefore, hdigit⟩ := ih
        (Function.update buf n (digitChar (newval.toNat % radix))) (n + 1)
        (newval / BitVec.ofNat 32 radix) (by rw [hdiv]; omega)
      rw [hdiv] at hloop hdigit
      rw [itoaLoop_of_ne h₂ h₃₆ fuel buf n hzero]
      refine ⟨buf', ?_, fun j hj => ?_, fun k hk => ?_⟩
      · rw [hloop, hdigits, List.length_cons]
        congr 2
        omega
      · rw [hbefore j (by omega), Function.update_of_ne (by omega)]
      · simp only [hdigits, List.length_cons] at hk ⊢
        cases k with
        | zero =>
          rw [Nat.add_zero, hbefore n (Nat.lt_succ_self n), Function.update_self]
          rfl
        | succ k =>
          have hnext := hdigit k (by omega)
          rw [Nat.add_right_comm] at hnext
          exact hnext

/-! ## Turning the string around -/

theorem strlenFrom_eq {s : CStr} {u : List (BitVec 8)} (h : IsString s u) {fuel len : ℕ}
    (hlen : len ≤ u.length) (hfuel : u.length - len < fuel) :
    strlenFrom s fuel len = some u.length := by
  induction fuel generalizing len with
  | zero => omega
  | succ fuel ih =>
    rw [strlenFrom]
    rcases Nat.eq_or_lt_of_le hlen with rfl | hlt
    · exact if_neg fun hne => hne h.nul
    · have hne : s len ≠ 0 := by
        rw [h.byte len hlt]
        exact h.byte_ne _ (List.getElem_mem hlt)
      rw [if_pos hne]
      exact ih hlt (by omega)

/-- One round exchanges the outer two bytes and goes on with the others. -/
theorem strrevLoop_exchange (fuel : ℕ) (s : CStr) (beg m : ℕ) :
    strrevLoop (fuel + 1) s beg (beg + (m + 2 : ℕ) - 1) =
      strrevLoop fuel
        (Function.update (Function.update s (beg + m + 1) (s beg)) beg (s (beg + m + 1)))
        (beg + 1 : ℕ) ((beg + 1 : ℕ) + m - 1) := by
  have hlast : ((beg : ℤ) + (m + 2 : ℕ) - 1).toNat = beg + m + 1 := by omega
  have hnext : (beg : ℤ) + (m + 2 : ℕ) - 1 - 1 = (beg + 1 : ℕ) + m - 1 := by omega
  rw [strrevLoop, if_pos (by omega), hlast, hnext, Int.toNat_natCast]
  rfl

/-- **The loop of `strrev`** turns around the `m` bytes from `beg` on. -/
theorem strrevLoop_eq {fuel : ℕ} (s : CStr) (beg m : ℕ) (hfuel : m < fuel) :
    ∃ s', strrevLoop fuel s beg (beg + m - 1) = some s' ∧
      (∀ j < m, s' (beg + j) = s (beg + (m - 1 - j))) ∧
      ∀ j, j < beg ∨ beg + m ≤ j → s' j = s j := by
  induction fuel generalizing s beg m with
  | zero => omega
  | succ fuel ih =>
    by_cases hm : 2 ≤ m
    · obtain ⟨m, rfl⟩ := Nat.exists_eq_add_of_le' hm
      -- the bytes after the exchange
      obtain ⟨s₁, hs₁⟩ : ∃ s₁, s₁ = Function.update (Function.update s (beg + m + 1) (s beg)) beg
        (s (beg + m + 1)) := ⟨_, rfl⟩
      have hfirst : s₁ beg = s (beg + m + 1) := by rw [hs₁, Function.update_self]
      have hlast : s₁ (beg + m + 1) = s beg := by
        rw [hs₁, Function.update_of_ne (by omega), Function.update_self]
      have hrest : ∀ j, j ≠ beg → j ≠ beg + m + 1 → s₁ j = s j := by
        intro j hj hj'
        rw [hs₁, Function.update_of_ne hj, Function.update_of_ne hj']
      obtain ⟨s', hloop, hinside, houtside⟩ := ih s₁ (beg + 1) m (by omega)
      rw [strrevLoop_exchange, ← hs₁]
      refine ⟨s', hloop, fun j hj => ?_, fun j hj => ?_⟩
      · rcases Nat.eq_zero_or_pos j with rfl | hpos
        · rw [Nat.add_zero, houtside beg (Or.inl (Nat.lt_succ_self beg)), hfirst]
          rfl
        · obtain ⟨j, rfl⟩ := Nat.exists_eq_add_of_le' hpos
          rcases Nat.lt_or_ge j m with hlt | hge
          · have hj := hinside j hlt
            rw [hrest _ (by omega) (by omega)] at hj
            rw [show beg + (j + 1) = beg + 1 + j by omega, hj]
            congr 1
            omega
          · obtain rfl : j = m := by omega
            rw [← Nat.add_assoc, houtside _ (Or.inr (by omega)), hlast]
            congr 1
            omega
      · rw [houtside j (by omega), hrest j (by omega) (by omega)]
    · rw [strrevLoop, if_neg (by omega)]
      refine ⟨s, rfl, fun j hj => ?_, fun j _ => rfl⟩
      rw [show m - 1 - j = j by omega]

/-- **`strrev`.** -/
theorem strrev_eq {s : CStr} {u : List (BitVec 8)} (h : IsString s u) {fuel : ℕ}
    (hfuel : u.length < fuel) : ∃ s', strrev fuel s = some s' ∧ IsString s' u.reverse := by
  have hlen : strlen fuel s = some u.length := strlenFrom_eq h (Nat.zero_le _) (by omega)
  obtain ⟨s', hloop, hinside, houtside⟩ := strrevLoop_eq s 0 u.length hfuel
  refine ⟨s', ?_, fun k hk => ?_, fun c hc => h.byte_ne c (List.mem_reverse.mp hc), ?_⟩
  · rw [strrev, hlen]
    show strrevLoop fuel s 0 (u.length - 1) = some s'
    rw [← hloop, Nat.cast_zero, zero_add]
  · rw [List.length_reverse] at hk
    have hbyte := hinside k hk
    rw [Nat.zero_add, Nat.zero_add] at hbyte
    rw [hbyte, h.byte _ (by omega), List.getElem_reverse]
  · rw [List.length_reverse, houtside _ (Or.inr (Nat.zero_add _).le), h.nul]

/-! ## The number as text -/

/-- A row of digits as a string. -/
theorem denotes_digits {radix : ℕ} (h₃₆ : radix ≤ 36) {ds : List ℕ} (hds : ∀ d ∈ ds, d < radix) :
    Denotes radix (ds.reverse.map digitChar) (Nat.ofDigits radix ds) ∧
      atoi (ds.reverse.map digitChar) radix = BitVec.ofNat 32 (Nat.ofDigits radix ds) := by
  refine ⟨⟨ds.reverse, fun d hd => hds d (List.mem_reverse.mp hd), rfl, ?_⟩, ?_⟩
  · rw [List.reverse_reverse]
  · exact atoi_map_digitChar fun d hd => (hds d hd).trans_le h₃₆

/-- **`itoa` of a number other than zero.** -/
theorem itoa_of_ne {value : BitVec 32} (hvalue : value ≠ 0) {radix : ℕ} (h₂ : 2 ≤ radix)
    (h₃₆ : radix ≤ 36) (buf : CStr) {fuel : ℕ}
    (hfuel : (Nat.digits radix value.toNat).length < fuel) :
    ∃ buf', itoa fuel value buf (BitVec.ofNat 32 radix) = some buf' ∧
      IsString buf' ((Nat.digits radix value.toNat).reverse.map digitChar) := by
  obtain ⟨buf₁, hloop, -, hdigit⟩ := itoaLoop_eq h₂ h₃₆ buf 0 value hfuel
  rw [Nat.zero_add] at hloop
  have hstring : IsString (Function.update buf₁ (Nat.digits radix value.toNat).length 0)
      ((Nat.digits radix value.toNat).map digitChar) := by
    refine ⟨fun k hk => ?_, fun c hc => ?_, ?_⟩
    · rw [List.length_map] at hk
      have hbyte := hdigit k hk
      rw [Nat.zero_add] at hbyte
      rw [Function.update_of_ne hk.ne, hbyte, List.getElem_map]
    · obtain ⟨d, hd, rfl⟩ := List.mem_map.mp hc
      exact (digitChar_spec d ((Nat.digits_lt_base h₂ hd).trans_le h₃₆)).2.1
    · rw [List.length_map, Function.update_self]
  obtain ⟨buf', hrev, hstring'⟩ := strrev_eq hstring (by rwa [List.length_map])
  refine ⟨buf', ?_, ?_⟩
  · rw [itoa, if_neg hvalue, hloop]
    exact hrev
  · rw [List.map_reverse]
    exact hstring'

/-- **`itoa` and `atoi`.**  For every number and every radix from 2 to 36, `itoa` leaves a string in the
buffer: at least one and at most 32 digits that denote the number, the first of them not `0` unless it
is the only one.  `atoi` of this string has the bits of the number. -/
theorem itoa_spec (value : BitVec 32) {radix : ℕ} (h₂ : 2 ≤ radix) (h₃₆ : radix ≤ 36) (buf : CStr)
    {fuel : ℕ} (hfuel : 33 ≤ fuel) :
    ∃ buf' u, itoa fuel value buf (BitVec.ofNat 32 radix) = some buf' ∧ IsString buf' u ∧
      1 ≤ u.length ∧ u.length ≤ 32 ∧ (u.head? = some (ch '0') → u = [ch '0']) ∧
      Denotes radix u value.toNat ∧ atoi u radix = value := by
  by_cases hvalue : value = 0
  · subst hvalue
    have hzero : ∀ d ∈ [0], d < radix := by
      intro d hd
      rw [List.mem_singleton.mp hd]
      omega
    obtain ⟨hdenotes, hatoi⟩ := denotes_digits h₃₆ hzero
    refine ⟨_, [ch '0'], if_pos rfl, ⟨fun k hk => ?_, fun c hc => ?_, rfl⟩, Nat.le_refl 1, by decide,
      fun _ => rfl, hdenotes, hatoi⟩
    · obtain rfl : k = 0 := Nat.lt_one_iff.mp hk
      rfl
    · rw [List.mem_singleton.mp hc]
      decide
  · have hpos : value.toNat ≠ 0 := fun h => hvalue (BitVec.eq_of_toNat_eq h)
    have hnil := Nat.digits_ne_nil_iff_ne_zero (b := radix).mpr hpos
    have hlast := Nat.getLast_digit_ne_zero radix hpos
    have hdigits : ∀ d ∈ Nat.digits radix value.toNat, d < radix := fun d hd => Nat.digits_lt_base h₂ hd
    have hlen : (Nat.digits radix value.toNat).length ≤ 32 := by
      refine (Nat.digits_length_le_iff h₂ _).mpr (value.isLt.trans_le ?_)
      exact Nat.pow_le_pow_left h₂ 32
    obtain ⟨buf', hitoa, hstring⟩ := itoa_of_ne hvalue h₂ h₃₆ buf (hlen.trans_lt hfuel)
    obtain ⟨hdenotes, hatoi⟩ := denotes_digits h₃₆ hdigits
    rw [Nat.ofDigits_digits] at hdenotes hatoi
    refine ⟨buf', _, hitoa, hstring, ?_, ?_, fun hhead => ?_, hdenotes, ?_⟩
    · rw [List.length_map, List.length_reverse]
      exact List.length_pos_iff.mpr hnil
    · rwa [List.length_map, List.length_reverse]
    · -- the highest digit is not zero
      rw [List.head?_map, List.head?_reverse, List.getLast?_eq_some_getLast hnil] at hhead
      have hlt := (hdigits _ (List.getLast_mem hnil)).trans_le h₃₆
      exact absurd ((digitChar_spec _ hlt).2.2.1 (Option.some.inj hhead)) hlast
    · rw [hatoi, BitVec.ofNat_toNat, BitVec.setWidth_eq]

/-- The largest number, in decimal digits. -/
theorem itoa_max : ∃ buf' u, itoa 33 0xFFFFFFFF (fun _ => 0) (BitVec.ofNat 32 10) = some buf' ∧
    IsString buf' u ∧ 1 ≤ u.length ∧ u.length ≤ 32 ∧ (u.head? = some (ch '0') → u = [ch '0']) ∧
      Denotes 10 u 4294967295 ∧ atoi u (10 : ℕ) = 0xFFFFFFFF :=
  itoa_spec 0xFFFFFFFF (by decide) (by decide) (fun _ => 0) (by decide)

end CoreOS
