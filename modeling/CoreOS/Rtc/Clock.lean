import CoreOS.Rtc.Driver

/-!
# One clock

Everything the driver does to a single `FILE`, as functions of that `FILE` alone, and the three
numbers packed in its `inode` read as numbers.

`ClockOk pow` is what a registered clock satisfies when the chip runs at `2 ^ pow`.  The driver
changes a clock in three ways: it sets it up again (`resetFile`), an interrupt counts it down
(`tick`), a read consumes a tick (`consume`); each of them keeps `ClockOk`.
-/

namespace CoreOS
namespace Rtc

open Driver

/-! ## The packed numbers -/

/-- The exponent of the rate of a clock. -/
def freq (v : FILE) : ℕ := (getRtcFreq v.inode).toNat

/-- The exponent of the ratio between the rate of the chip and that of a clock. -/
def ratio (v : FILE) : ℕ := (getRtcRatio v.inode).toNat

/-- The ticks a clock has not consumed. -/
def count (v : FILE) : ℕ := (getRtcCount v.inode).toNat

theorem getRtcCount_eq_zero_iff {v : FILE} : getRtcCount v.inode = 0 ↔ count v = 0 :=
  ⟨fun h => congrArg BitVec.toNat h, fun h => BitVec.eq_of_toNat_eq h⟩

section fields

theorem rtcFreqMsk_eq : rtcFreqMsk = BitField.mask 32 0 5 := by decide

theorem rtcRatioMsk_eq : rtcRatioMsk = BitField.mask 32 5 5 := by decide

theorem rtcCountMsk_eq : rtcCountMsk = BitField.mask 32 10 10 := by decide

theorem getRtcFreq_eq (x : BitVec 32) : getRtcFreq x = BitField.get 0 5 x := by
  rw [getRtcFreq, rtcFreqMsk_eq, BitField.get]

theorem getRtcRatio_eq (x : BitVec 32) : getRtcRatio x = BitField.get 5 5 x := by
  rw [getRtcRatio, rtcRatioMsk_eq, BitField.get]

theorem getRtcCount_eq (x : BitVec 32) : getRtcCount x = BitField.get 10 10 x := by
  rw [getRtcCount, rtcCountMsk_eq, BitField.get]

theorem setRtcFreqField_eq (x v : BitVec 32) : setRtcFreqField x v = BitField.set 0 5 x v := by
  rw [setRtcFreqField, rtcFreqMsk_eq, BitField.set]

theorem setRtcRatioField_eq (x v : BitVec 32) : setRtcRatioField x v = BitField.set 5 5 x v := by
  rw [setRtcRatioField, rtcRatioMsk_eq, BitField.set]

theorem setRtcCountField_eq (x v : BitVec 32) :
    setRtcCountField x v = BitField.set 10 10 x v := by
  rw [setRtcCountField, rtcCountMsk_eq, BitField.set]

variable {x v : BitVec 32}

theorem getRtcFreq_lt (x : BitVec 32) : (getRtcFreq x).toNat < 32 := by
  rw [getRtcFreq_eq]
  exact BitField.toNat_get_lt 0 5 x

theorem getRtcFreq_setRtcFreqField (hv : v.toNat < 32) : getRtcFreq (setRtcFreqField x v) = v := by
  rw [getRtcFreq_eq, setRtcFreqField_eq, BitField.get_set (by omega) x hv]

theorem getRtcRatio_setRtcRatioField (hv : v.toNat < 32) :
    getRtcRatio (setRtcRatioField x v) = v := by
  rw [getRtcRatio_eq, setRtcRatioField_eq, BitField.get_set (by omega) x hv]

theorem getRtcCount_setRtcCountField (hv : v.toNat < 1024) :
    getRtcCount (setRtcCountField x v) = v := by
  rw [getRtcCount_eq, setRtcCountField_eq, BitField.get_set (by omega) x hv]

@[simp] theorem getRtcFreq_setRtcRatioField :
    getRtcFreq (setRtcRatioField x v) = getRtcFreq x := by
  rw [getRtcFreq_eq, getRtcFreq_eq, setRtcRatioField_eq,
    BitField.get_set_of_disjoint (Or.inr (by omega))]

@[simp] theorem getRtcFreq_setRtcCountField :
    getRtcFreq (setRtcCountField x v) = getRtcFreq x := by
  rw [getRtcFreq_eq, getRtcFreq_eq, setRtcCountField_eq,
    BitField.get_set_of_disjoint (Or.inr (by omega))]

@[simp] theorem getRtcRatio_setRtcCountField :
    getRtcRatio (setRtcCountField x v) = getRtcRatio x := by
  rw [getRtcRatio_eq, getRtcRatio_eq, setRtcCountField_eq,
    BitField.get_set_of_disjoint (Or.inr (by omega))]

end fields

/-! ## Setting a clock up -/

/-- What `reset_rtc_info` makes of a `FILE` while the chip runs at `2 ^ pow`. -/
def resetFile (pow : ℕ) (p : BitVec 32) (v : FILE) : FILE :=
  let inodeVal := setRtcCountField (setRtcRatioField (setRtcFreqField 0 p) (BitVec.ofNat 32 pow - p)) 0
  { v with inode := inodeVal, pos := 1 <<< (getRtcRatio inodeVal).toNat }

theorem resetRtcInfo_eq (s : Driver) (f : FilePtr) (p : BitVec 32) :
    s.resetRtcInfo f p = s.setFile f (resetFile s.sysFreqPow p (s.files f)) := rfl

section resetFile

variable {pow : ℕ} {p : BitVec 32} {v : FILE}

theorem freq_resetFile (hp : p.toNat < 32) : freq (resetFile pow p v) = p.toNat := by
  rw [freq, resetFile, getRtcFreq_setRtcCountField, getRtcFreq_setRtcRatioField,
    getRtcFreq_setRtcFreqField hp]

theorem ratio_resetFile (hp : p.toNat ≤ pow) (hpow : pow < 32) :
    ratio (resetFile pow p v) = pow - p.toNat := by
  have hsub : (BitVec.ofNat 32 pow - p).toNat = pow - p.toNat := by
    rw [BitVec.toNat_sub_of_le, BitVec.toNat_ofNat, Nat.mod_eq_of_lt (by omega)]
    rw [BitVec.le_def, BitVec.toNat_ofNat, Nat.mod_eq_of_lt (by omega)]
    exact hp
  rw [ratio, resetFile, getRtcRatio_setRtcCountField, getRtcRatio_setRtcRatioField (by omega), hsub]

theorem count_resetFile : count (resetFile pow p v) = 0 := by
  rw [count, resetFile, getRtcCount_setRtcCountField (by decide)]
  rfl

theorem pos_resetFile : (resetFile pow p v).pos = 1 <<< ratio (resetFile pow p v) := rfl

end resetFile

/-- A power of two below the sign bit, shifted into a word. -/
theorem toNat_one_shiftLeft {n : ℕ} (hn : n < 32) : ((1 : BitVec 32) <<< n).toNat = 2 ^ n := by
  rw [BitVec.toNat_shiftLeft, Nat.shiftLeft_eq, show (1 : BitVec 32).toNat = 1 from rfl, Nat.one_mul,
    Nat.mod_eq_of_lt]
  exact Nat.pow_lt_pow_right (by omega) hn

/-- **What a registered clock satisfies** when the chip runs at `2 ^ pow`. -/
structure ClockOk (pow : ℕ) (v : FILE) : Prop where
  freq_pos : 1 ≤ freq v
  freq_le : freq v ≤ pow
  ratio_eq : ratio v = pow - freq v
  count_le : count v ≤ 32
  pos_pos : 1 ≤ v.pos.toInt
  pos_le : v.pos.toInt ≤ 2 ^ ratio v

/-- Positions are small, so that reading them as signed or unsigned numbers is the same. -/
theorem toInt_eq_toNat {x : BitVec 32} (h : x.toNat < 2 ^ 31) : x.toInt = x.toNat := by
  rw [BitVec.toInt_eq_toNat_cond, if_pos (by omega)]

theorem toInt_eq_toNat_of_pos {x : BitVec 32} (h : 1 ≤ x.toInt) : x.toInt = x.toNat := by
  have hlt := x.isLt
  rw [BitVec.toInt_eq_toNat_cond] at h ⊢
  split at h
  · rename_i hsmall
    rw [if_pos hsmall]
  · omega

theorem ClockOk.ratio_lt {pow : ℕ} {v : FILE} (h : ClockOk pow v) (hpow : pow ≤ 10) :
    ratio v < 10 := by
  have h₁ := h.freq_pos
  have h₂ := h.freq_le
  rw [h.ratio_eq]
  omega

theorem toInt_one_shiftLeft {n : ℕ} (hn : n < 31) : ((1 : BitVec 32) <<< n).toInt = 2 ^ n := by
  have hnat := toNat_one_shiftLeft (n := n) (by omega)
  rw [toInt_eq_toNat, hnat]
  · simp
  · rw [hnat]
    exact Nat.pow_lt_pow_right (by omega) hn

theorem clockOk_resetFile {pow : ℕ} {p : BitVec 32} (v : FILE) (hp : 1 ≤ p.toNat)
    (hle : p.toNat ≤ pow) (hpow : pow ≤ 10) : ClockOk pow (resetFile pow p v) := by
  have hfreq : freq (resetFile pow p v) = p.toNat := freq_resetFile (by omega)
  have hratio := ratio_resetFile (v := v) hle (by omega)
  have hpos : (resetFile pow p v).pos.toInt = 2 ^ ratio (resetFile pow p v) := by
    rw [pos_resetFile]
    exact toInt_one_shiftLeft (by omega)
  refine ⟨by omega, by omega, by omega, by rw [count_resetFile]; omega, ?_, hpos.le⟩
  rw [hpos]
  exact_mod_cast Nat.one_le_two_pow

/-! ## Counting down -/

/-- The countdown of a clock is expiring when it arrives at zero with the next interrupt. -/
theorem expires_iff {v : FILE} (hpos : 1 ≤ v.pos.toNat) (hle : v.pos.toNat ≤ 2 ^ 31) :
    (v.pos - 1).toInt ≤ 0 ↔ v.pos.toNat = 1 := by
  have hsub : (v.pos - 1).toNat = v.pos.toNat - 1 :=
    BitVec.toNat_sub_of_le (by rw [BitVec.le_def]; exact hpos)
  rw [toInt_eq_toNat (by omega), hsub]
  omega

theorem ratio_lt (v : FILE) : ratio v < 32 := by
  rw [ratio, getRtcRatio_eq]
  exact BitField.toNat_get_lt 5 5 v.inode

/-- What an interrupt does to a clock, as numbers. -/
theorem tick_cases {v : FILE} (hpos : 1 ≤ v.pos.toNat) (hle : v.pos.toNat ≤ 2 ^ ratio v) :
    freq (tick v) = freq v ∧ ratio (tick v) = ratio v ∧
      ((v.pos.toNat = 1 ∧ (tick v).pos.toNat = 2 ^ ratio v ∧
          count (tick v) = min 32 (count v + 1)) ∨
        (1 < v.pos.toNat ∧ (tick v).pos.toNat = v.pos.toNat - 1 ∧ count (tick v) = count v)) := by
  have hratio := ratio_lt v
  have hsmall : v.pos.toNat ≤ 2 ^ 31 :=
    Nat.le_trans hle (Nat.pow_le_pow_right (by omega) (by omega))
  have hexp := expires_iff hpos hsmall
  by_cases h1 : v.pos.toNat = 1
  · have hcount : (if 32 < count v + 1 then 32 else count v + 1) = min 32 (count v + 1) := by
      split <;> omega
    have htick : tick v = { v with
        pos := 1 <<< ratio v
        inode := setRtcCountField v.inode (BitVec.ofNat 32 (min 32 (count v + 1))) } := by
      unfold tick
      simp only
      rw [if_pos (hexp.mpr h1), ← hcount]
      rfl
    rw [htick]
    refine ⟨?_, ?_, Or.inl ⟨h1, toNat_one_shiftLeft hratio, ?_⟩⟩
    · rw [freq, getRtcFreq_setRtcCountField, freq]
    · rw [ratio, getRtcRatio_setRtcCountField, ratio]
    · rw [count, getRtcCount_setRtcCountField]
      · rw [BitVec.toNat_ofNat, Nat.mod_eq_of_lt (by omega)]
      · rw [BitVec.toNat_ofNat, Nat.mod_eq_of_lt (by omega)]
        omega
  · have htick : tick v = { v with pos := v.pos - 1 } := by
      unfold tick
      simp only
      rw [if_neg (fun h => h1 (hexp.mp h))]
    rw [htick]
    refine ⟨rfl, rfl, Or.inr ⟨by omega, ?_, rfl⟩⟩
    exact BitVec.toNat_sub_of_le (by rw [BitVec.le_def]; exact hpos)

/-- What an interrupt does to a registered clock. -/
theorem tick_spec {pow : ℕ} {v : FILE} (h : ClockOk pow v) (hpow : pow ≤ 10) :
    freq (tick v) = freq v ∧ ratio (tick v) = ratio v ∧
      ((v.pos.toInt = 1 ∧ (tick v).pos.toInt = 2 ^ ratio v ∧
          count (tick v) = min 32 (count v + 1)) ∨
        (1 < v.pos.toInt ∧ (tick v).pos.toInt = v.pos.toInt - 1 ∧ count (tick v) = count v)) := by
  have hratio := h.ratio_lt hpow
  have hlow : 2 ^ ratio v < 2 ^ 31 := Nat.pow_lt_pow_right (by omega) (by omega)
  have hpos := h.pos_pos
  have hle := h.pos_le
  have hint : v.pos.toInt = v.pos.toNat := toInt_eq_toNat_of_pos hpos
  have hcast : ((2 ^ ratio v : ℕ) : ℤ) = 2 ^ ratio v := by push_cast; rfl
  obtain ⟨hf, hr, hcase⟩ := tick_cases (v := v) (by omega) (by omega)
  refine ⟨hf, hr, ?_⟩
  rcases hcase with ⟨h1, hp, hc⟩ | ⟨h1, hp, hc⟩
  · have hint' : (tick v).pos.toInt = (tick v).pos.toNat := toInt_eq_toNat (by omega)
    exact Or.inl ⟨by omega, by rw [hint', hp, hcast], hc⟩
  · have hint' : (tick v).pos.toInt = (tick v).pos.toNat := toInt_eq_toNat (by omega)
    exact Or.inr ⟨by omega, by omega, hc⟩

/-- **An interrupt keeps a clock in order.** -/
theorem clockOk_tick {pow : ℕ} {v : FILE} (h : ClockOk pow v) (hpow : pow ≤ 10) :
    ClockOk pow (tick v) := by
  obtain ⟨hf, hr, hcase⟩ := tick_spec h hpow
  have hone : (1 : ℤ) ≤ 2 ^ ratio v := by exact_mod_cast Nat.one_le_two_pow
  have hle := h.pos_le
  have hcount := h.count_le
  refine ⟨hf ▸ h.freq_pos, hf ▸ h.freq_le, by rw [hf, hr, h.ratio_eq], ?_, ?_, ?_⟩
  · rcases hcase with ⟨-, -, hc⟩ | ⟨-, -, hc⟩ <;> omega
  · rcases hcase with ⟨-, hp, -⟩ | ⟨h1, hp, -⟩ <;> omega
  · rw [hr]
    rcases hcase with ⟨-, hp, -⟩ | ⟨h1, hp, -⟩ <;> omega

/-- What `rtc_read` does to a clock that has a tick to consume. -/
def consume (v : FILE) : FILE :=
  { v with inode := setRtcCountField v.inode (getRtcCount v.inode - 1) }

theorem consume_spec {v : FILE} (h : count v ≠ 0) :
    freq (consume v) = freq v ∧ ratio (consume v) = ratio v ∧ count (consume v) = count v - 1 := by
  have hlt : count v < 1024 := by
    rw [count, getRtcCount_eq]
    exact BitField.toNat_get_lt 10 10 v.inode
  have hsub : (getRtcCount v.inode - 1).toNat = count v - 1 := by
    have hge : (1 : BitVec 32) ≤ getRtcCount v.inode := by
      rw [BitVec.le_def]
      exact Nat.one_le_iff_ne_zero.mpr h
    rw [BitVec.toNat_sub_of_le hge]
    rfl
  refine ⟨?_, ?_, ?_⟩
  · rw [freq, consume, getRtcFreq_setRtcCountField, freq]
  · rw [ratio, consume, getRtcRatio_setRtcCountField, ratio]
  · rw [count, consume, getRtcCount_setRtcCountField (by omega), hsub]

theorem clockOk_consume {pow : ℕ} {v : FILE} (h : ClockOk pow v) (hc : count v ≠ 0) :
    ClockOk pow (consume v) := by
  obtain ⟨hf, hr, hcount⟩ := consume_spec hc
  have hle := h.count_le
  exact ⟨hf ▸ h.freq_pos, hf ▸ h.freq_le, by rw [hf, hr, h.ratio_eq], by omega, h.pos_pos,
    by rw [hr]; exact h.pos_le⟩

/-! ## A whole period -/

/-- As long as the countdown has not reached its end, interrupts only count down. -/
theorem iterate_tick_of_lt {pow : ℕ} {v : FILE} (h : ClockOk pow v) (hpow : pow ≤ 10) {n : ℕ}
    (hn : (n : ℤ) < v.pos.toInt) :
    (tick^[n] v).pos.toInt = v.pos.toInt - n ∧ count (tick^[n] v) = count v ∧
      ratio (tick^[n] v) = ratio v ∧ ClockOk pow (tick^[n] v) := by
  induction n with
  | zero => exact ⟨by simp, rfl, rfl, h⟩
  | succ n ih =>
    obtain ⟨hp, hc, hr, hok⟩ := ih (by omega)
    rw [Function.iterate_succ_apply']
    obtain ⟨-, hr', hcase⟩ := tick_spec hok hpow
    refine ⟨?_, ?_, hr'.trans hr, clockOk_tick hok hpow⟩
    · rcases hcase with ⟨h1, -⟩ | ⟨-, hp', -⟩ <;> omega
    · rcases hcase with ⟨h1, -⟩ | ⟨-, -, hc'⟩ <;> omega

/-- **A clock ticks once in `2 ^ ratio` interrupts.**  After that many of them the countdown is
where it was, and one tick has been credited, unless 32 were already waiting. -/
theorem iterate_tick_period {pow : ℕ} {v : FILE} (h : ClockOk pow v) (hpow : pow ≤ 10) :
    (tick^[2 ^ ratio v] v).pos.toInt = v.pos.toInt ∧
      count (tick^[2 ^ ratio v] v) = min 32 (count v + 1) := by
  have hpos := h.pos_pos
  have hle := h.pos_le
  obtain ⟨p, hp⟩ : ∃ p : ℕ, v.pos.toInt = p + 1 := ⟨(v.pos.toInt - 1).toNat, by omega⟩
  -- `p` interrupts bring the countdown to 1, one more reloads it, the others count down again
  obtain ⟨hp₁, hc₁, hr₁, hok₁⟩ := iterate_tick_of_lt h hpow (n := p) (by omega)
  obtain ⟨-, hr₂, hcase⟩ := tick_spec hok₁ hpow
  rw [← Function.iterate_succ_apply' tick] at hr₂ hcase
  have hok₂ : ClockOk pow (tick^[p + 1] v) := by
    rw [Function.iterate_succ_apply']
    exact clockOk_tick hok₁ hpow
  rcases hcase with ⟨-, hp₂, hc₂⟩ | ⟨h1, -⟩
  swap
  · omega
  have hcast : ((2 ^ ratio v : ℕ) : ℤ) = 2 ^ ratio v := by push_cast; rfl
  have hrest : 2 ^ ratio v = (2 ^ ratio v - (p + 1)) + (p + 1) := by omega
  obtain ⟨hp₃, hc₃, -⟩ := iterate_tick_of_lt hok₂ hpow (n := 2 ^ ratio v - (p + 1))
    (by rw [hp₂, hr₁]; omega)
  rw [hrest, Function.iterate_add_apply]
  refine ⟨?_, by rw [hc₃, hc₂, hc₁]⟩
  rw [hp₃, hp₂, hr₁]
  omega

end Rtc
end CoreOS
