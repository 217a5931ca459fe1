import CoreOS.Lib.Registry
import CoreOS.Lib.Runs
import CoreOS.Rtc.Clock

/-!
# Every clock runs at its own rate

The chip has one rate and each clock has another, and the driver keeps three copies of the relation
between them: the two variables `sys_freq` and `sys_freq_pow`, and the ratio packed in every `FILE`.
`Virtualised` says that they agree, and `always_virtualised` that they do in every state of every
history, so that each clock gets exactly one tick in `2 ^ ratio` interrupts.

The first half of the file says once what each call does to the whole driver.  Raising the rate of
the chip rewrites every registered `FILE`, and an interrupt counts every registered `FILE` down;
both loops are visits of the registry, and no `FILE` is visited twice because none is registered
twice.
-/

namespace CoreOS
namespace Rtc

open Runs Registry Driver

/-! ## What the calls do -/

theorem setFile_files_self (s : Driver) (f : FilePtr) (v : FILE) : (s.setFile f v).files f = v :=
  Function.update_self ..

theorem setFile_files_of_ne (s : Driver) {f g : FilePtr} (h : g ≠ f) (v : FILE) :
    (s.setFile f v).files g = s.files g :=
  Function.update_of_ne h ..

/-- `f` is one of the clocks the driver keeps track of. -/
def Registered (s : Driver) (f : FilePtr) : Prop := ∃ i, s.rtcFiles i = some f

instance (s : Driver) (f : FilePtr) : Decidable (Registered s f) :=
  inferInstanceAs (Decidable (∃ i : Fin maxProcNum, s.rtcFiles i = some f))

/-- A clock set up again at its own rate, while the chip runs at `2 ^ pow`. -/
def renew (pow : ℕ) (v : FILE) : FILE := resetFile pow (getRtcFreq v.inode) v

/-- The state after register A and the three variables have been set for the rate `2 ^ p`. -/
def programmed (s : Driver) (p : ℕ) : Driver :=
  { s with
    sysFreqPow := p
    sysFreq := 2 ^ p
    sysCounterStep := rtcSysMaxFreq >>> p
    regA := (s.regA &&& 0xF0) ||| (BitVec.ofNat 8 (16 - p) &&& 0xF) }

theorem foldl_updateRtc (s : Driver) (l : List (Fin maxProcNum)) :
    l.foldl updateRtc s =
      { s with files := l.foldl (visit s.rtcFiles (renew s.sysFreqPow)) s.files } := by
  induction l generalizing s with
  | nil => rfl
  | cons i l ih =>
    have hround : updateRtc s i =
        { s with files := visit s.rtcFiles (renew s.sysFreqPow) s.files i } := by
      unfold updateRtc visit
      cases s.rtcFiles i <;> rfl
    rw [List.foldl_cons, hround, ih]
    rfl

/-- **One round of the loop of `rtc_isr`** counts its slot, raises the alarm when the counter is full,
and ticks the clock in the slot. -/
theorem isrRound_eq (cur : ℕ) (s : Driver) (i : Fin maxProcNum) :
    let elapsed := s.timeElasped i + s.sysCounterStep
    isrRound cur s i =
      { s with
        timeElasped :=
          Function.update s.timeElasped i (if sysCounterMax ≤ elapsed then 0 else elapsed)
        signals :=
          if sysCounterMax ≤ elapsed then
            Function.update s.signals cur (s.signals cur ||| sigAlarm)
          else s.signals
        files := visit s.rtcFiles tick s.files i } := by
  unfold isrRound visit
  by_cases hfull : sysCounterMax ≤ s.timeElasped i + s.sysCounterStep
  · simp only [if_pos hfull]
    cases s.rtcFiles i <;> rfl
  · simp only [if_neg hfull]
    cases s.rtcFiles i <;> rfl

/-- The parts of the state an interrupt does not touch. -/
theorem rtcIsr_eq (s : Driver) (cur : ℕ) :
    (s.rtcIsr cur).files = (List.finRange maxProcNum).foldl (visit s.rtcFiles tick) s.files ∧
      (s.rtcIsr cur).rtcFiles = s.rtcFiles ∧ (s.rtcIsr cur).sysFreqPow = s.sysFreqPow ∧
      (s.rtcIsr cur).sysFreq = s.sysFreq ∧ (s.rtcIsr cur).sysCounterStep = s.sysCounterStep := by
  unfold rtcIsr
  generalize List.finRange maxProcNum = l
  induction l generalizing s with
  | nil => exact ⟨rfl, rfl, rfl, rfl, rfl⟩
  | cons i l ih =>
    have hround := ih (isrRound cur s i)
    rw [isrRound_eq] at hround
    rw [List.foldl_cons, List.foldl_cons, isrRound_eq]
    exact hround

theorem le_freqPowFrom (x : ℤ) (k p : ℕ) : p ≤ freqPowFrom x k p := by
  induction k generalizing p with
  | zero => exact Nat.le_refl _
  | succ k ih =>
    unfold freqPowFrom
    split
    · exact Nat.le_trans (Nat.le_succ p) (ih (p + 1))
    · exact Nat.le_refl _

/-- The exponent of the rate a write asks for, if `rtc_write` accepts it. -/
def askedPow (buf : Option (BitVec 32)) (length : BitVec 32) : Option ℕ :=
  match buf with
  | none => none
  | some x =>
    if length.toNat < 4 ∨ rtcUserMaxFreq < x.toNat ∨ x.toNat ≠ 2 ^ freqPow x.toNat then none
    else some (freqPow x.toNat)

theorem askedPow_bounds {buf : Option (BitVec 32)} {length : BitVec 32} {p : ℕ}
    (h : askedPow buf length = some p) : 1 ≤ p ∧ p ≤ 10 := by
  unfold askedPow at h
  split at h
  · simp at h
  · rename_i x
    split at h
    · simp at h
    · rename_i hx
      rw [not_or, not_or, not_not, Nat.not_lt, Nat.not_lt] at hx
      obtain ⟨-, hmax, hpow⟩ := hx
      obtain rfl : freqPow x.toNat = p := by simpa using h
      refine ⟨le_freqPowFrom _ _ _, ?_⟩
      rw [hpow] at hmax
      exact (Nat.pow_le_pow_iff_right (by omega)).mp hmax

/-- A clock with its rate changed, before the driver brings its ratio in line. -/
def withFreq (p : ℕ) (v : FILE) : FILE :=
  { v with inode := setRtcFreqField v.inode (BitVec.ofNat 32 p) }

/-- The state after a write that raises the rate of the chip to `2 ^ p`. -/
def raised (s : Driver) (f : FilePtr) (p : ℕ) : Driver :=
  (List.finRange maxProcNum).foldl updateRtc
    (programmed (s.setFile f (withFreq p (s.files f))) p)

theorem rtcSetPiFreq_of_lt {s : Driver} {x : BitVec 32} (hmax : x.toNat ≤ rtcUserMaxFreq)
    (hpow : x.toNat = 2 ^ freqPow x.toNat) (hlt : s.sysFreq < x.toNat) :
    s.rtcSetPiFreq x =
      (0, (List.finRange maxProcNum).foldl updateRtc (programmed s (freqPow x.toNat))) := by
  have hint : x.toInt = x.toNat := toInt_eq_toNat (by
    unfold rtcUserMaxFreq at hmax
    omega)
  have hne : ¬ (x.toNat : ℤ) = s.sysFreq := by omega
  have heq : ¬ (x.toNat : ℤ) ≠ 2 ^ freqPow x.toNat := by
    rw [not_not]
    exact_mod_cast hpow
  unfold rtcSetPiFreq
  rw [hint, if_neg hne, if_neg heq]
  rfl

/-- **`rtc_write`**: rejected, a rise of the rate of the chip, or a change of this clock alone. -/
theorem rtcWrite_eq (s : Driver) (buf : Option (BitVec 32)) (length : BitVec 32) (f : FilePtr) :
    s.rtcWrite buf length f =
      match askedPow buf length with
      | none => (-1, s)
      | some p =>
        if s.sysFreq < 2 ^ p then (0, raised s f p)
        else (0, s.resetRtcInfo f (BitVec.ofNat 32 p)) := by
  unfold rtcWrite askedPow
  cases buf with
  | none => rfl
  | some x =>
    simp only
    by_cases hlen : length.toNat < 4
    · rw [if_pos hlen, if_pos (Or.inl hlen)]
    by_cases hmax : rtcUserMaxFreq < x.toNat
    · rw [if_neg hlen, if_pos hmax, if_pos (Or.inr (Or.inl hmax))]
    by_cases hpow : x.toNat ≠ 2 ^ freqPow x.toNat
    · rw [if_neg hlen, if_neg hmax, if_pos hpow, if_pos (Or.inr (Or.inr hpow))]
    have hvalid : ¬ (length.toNat < 4 ∨ rtcUserMaxFreq < x.toNat ∨
        x.toNat ≠ 2 ^ freqPow x.toNat) := by tauto
    rw [if_neg hlen, if_neg hmax, if_neg hpow, if_neg hvalid]
    rw [not_not] at hpow
    show _ = if s.sysFreq < 2 ^ freqPow x.toNat then (0, raised s f (freqPow x.toNat)) else _
    by_cases hlt : s.sysFreq < x.toNat
    · rw [if_pos hlt, if_pos (by rw [← hpow]; exact hlt), rtcSetPiFreq_of_lt (Nat.not_lt.mp hmax) hpow]
      · rfl
      · exact hlt
    · rw [if_neg hlt, if_neg (by rw [← hpow]; exact hlt)]

/-- The state after `f` has been taken out of the registry. -/
def closed (s : Driver) (f : FilePtr) : Driver :=
  { s with rtcFiles := fun i => if s.rtcFiles i = some f then none else s.rtcFiles i }

theorem closed_rtcFiles {s : Driver} {f g : FilePtr} {i : Fin maxProcNum} :
    (closed s f).rtcFiles i = some g ↔ s.rtcFiles i = some g ∧ g ≠ f := by
  show (if s.rtcFiles i = some f then none else s.rtcFiles i) = some g ↔ _
  split
  · rename_i h
    rw [h]
    simp [eq_comm]
  · rename_i h
    refine ⟨fun hg => ⟨hg, ?_⟩, fun hg => hg.1⟩
    rintro rfl
    exact h hg

/-- **`rtc_close`** only takes the clock out of the registry.  Its search compares exponents with
`max_freq = -1`, the largest unsigned number, and never finds anything. -/
theorem rtcClose_eq (s : Driver) (f : FilePtr) :
    s.rtcClose f = (0, closed s f) := by
  have hsearch : ∀ (s : Driver) (l : List (Fin maxProcNum)),
      l.foldl s.maxRound (-1, -1) = (-1, -1) := by
    intro s l
    induction l with
    | nil => rfl
    | cons i l ih =>
      have hround : s.maxRound (-1, -1) i = (-1, -1) := by
        unfold maxRound
        cases s.rtcFiles i with
        | none => rfl
        | some g =>
          simp only
          rw [if_neg]
          rw [BitVec.lt_def, show (-1 : BitVec 32).toNat = 2 ^ 32 - 1 from rfl]
          have := getRtcFreq_lt (s.files g).inode
          omega
      rw [List.foldl_cons, hround, ih]
  unfold rtcClose
  simp only [hsearch]
  rw [if_neg (by simp)]
  rfl

/-- The state after `rtc_open` has put `f` in entry `i`. -/
def opened (s : Driver) (f : FilePtr) (i : Fin maxProcNum) : Driver :=
  { s with
    files := Function.update s.files f
      { resetFile s.sysFreqPow 1 (s.files f) with fileOps := .rtc, type := .rtc }
    rtcFiles := Function.update s.rtcFiles i (some f)
    timeElasped := Function.update s.timeElasped i 0 }

theorem opened_files_self (s : Driver) (f : FilePtr) (i : Fin maxProcNum) :
    (opened s f i).files f =
      { resetFile s.sysFreqPow 1 (s.files f) with fileOps := .rtc, type := .rtc } :=
  Function.update_self ..

theorem opened_files_of_ne (s : Driver) {f g : FilePtr} (h : g ≠ f) (i : Fin maxProcNum) :
    (opened s f i).files g = s.files g :=
  Function.update_of_ne h ..

theorem opened_rtcFiles_self (s : Driver) (f : FilePtr) (i : Fin maxProcNum) :
    (opened s f i).rtcFiles i = some f :=
  Function.update_self ..

theorem opened_rtcFiles_of_ne (s : Driver) (f : FilePtr) {i j : Fin maxProcNum} (h : j ≠ i) :
    (opened s f i).rtcFiles j = s.rtcFiles j :=
  Function.update_of_ne h ..

/-- **`rtc_open`** registers the clock in the first free entry, at 2 Hz. -/
theorem rtcOpen_eq (s : Driver) (f : FilePtr) :
    s.rtcOpen f = ((List.finRange maxProcNum).find? fun i => (s.rtcFiles i).isNone).map
      fun i => (0, opened s f i) := by
  have hp : freqPow rtcUserDefFreq = 1 := by decide
  have hdef : ¬ rtcUserDefFreq ≠ 2 ^ freqPow rtcUserDefFreq := by decide
  unfold rtcOpen
  rw [if_neg hdef, hp, resetRtcInfo_eq]
  simp only [setFile]
  cases (List.finRange maxProcNum).find? fun i => (s.rtcFiles i).isNone with
  | none => rfl
  | some i =>
    simp only [Option.map_some, opened, Function.update_self, Function.update_idem]
    rfl

/-- **`rtc_read`** waits or consumes a tick. -/
theorem exec_read (s : Driver) (f : FilePtr) :
    exec s (.read f) =
      if count (s.files f) = 0 then s else s.setFile f (consume (s.files f)) := by
  have hread : s.rtcRead f = if getRtcCount (s.files f).inode = 0 then none
      else some (0, s.setFile f (consume (s.files f))) := rfl
  rw [exec, hread]
  by_cases hc : count (s.files f) = 0
  · rw [if_pos (getRtcCount_eq_zero_iff.mpr hc), if_pos hc]
    rfl
  · rw [if_neg (fun h => hc (getRtcCount_eq_zero_iff.mp h)), if_neg hc]
    rfl

/-! ## The invariant -/

/-- **The variables of the driver and the registered clocks agree.** -/
structure Virtualised (s : Driver) : Prop where
  pow_pos : 1 ≤ s.sysFreqPow
  pow_le : s.sysFreqPow ≤ 10
  freq_eq : s.sysFreq = 2 ^ s.sysFreqPow
  step_eq : s.sysCounterStep = 8192 / s.sysFreq
  clock : ∀ f, Registered s f → ClockOk s.sysFreqPow (s.files f)

/-- The invariant of the driver: the agreement above, and no clock is registered twice. -/
structure Sound (s : Driver) : Prop extends Virtualised s where
  distinct : Distinct s.rtcFiles

/-- The calls the driver can receive: a clock is opened only when it is not registered and there is
room for it, and written only when it is registered. -/
def Allowed (s : Driver) : Call → Prop
  | .open f => ¬ Registered s f ∧ ∃ i, s.rtcFiles i = none
  | .write _ _ f => Registered s f
  | _ => True

instance (s : Driver) : (c : Call) → Decidable (Allowed s c)
  | .open f => inferInstanceAs (Decidable (¬ Registered s f ∧ ∃ i, s.rtcFiles i = none))
  | .write _ _ f => inferInstanceAs (Decidable (Registered s f))
  | .read _ | .close _ | .isr _ => inferInstanceAs (Decidable True)

/-- The state `init_rtc` leaves. -/
def start (files : FilePtr → FILE) (signals : ℕ → BitVec 8) (regA : BitVec 8) : Driver :=
  (boot files signals regA).initRtc

theorem sound_start (files : FilePtr → FILE) (signals : ℕ → BitVec 8) (regA : BitVec 8) :
    Sound (start files signals regA) where
  pow_pos := Nat.le_refl 1
  pow_le := by
    show 1 ≤ 10
    omega
  freq_eq := rfl
  step_eq := rfl
  clock := by
    rintro f ⟨i, hi⟩
    simp [start, boot, initRtc] at hi
  distinct := by
    intro i j f hi
    simp [start, boot, initRtc] at hi

section steps

variable {s : Driver}

theorem files_of_registered {g : FILE → FILE} (hs : Distinct s.rtcFiles) {f : FilePtr}
    (hf : Registered s f) (files : FilePtr → FILE) :
    (List.finRange maxProcNum).foldl (visit s.rtcFiles g) files f = g (files f) := by
  obtain ⟨i, hi⟩ := hf
  exact foldl_visit hs (List.nodup_finRange _) (List.mem_finRange i) hi files

theorem freq_renew (pow : ℕ) (v : FILE) : freq (renew pow v) = freq v :=
  freq_resetFile (getRtcFreq_lt v.inode)

theorem toNat_ofNat_pow {p : ℕ} (hp : p ≤ 10) : (BitVec.ofNat 32 p).toNat = p := by
  rw [BitVec.toNat_ofNat, Nat.mod_eq_of_lt (by omega)]

theorem freq_withFreq {p : ℕ} (hp : p ≤ 10) (v : FILE) : freq (withFreq p v) = p := by
  have hval := toNat_ofNat_pow hp
  rw [freq, withFreq, getRtcFreq_setRtcFreqField (by omega), hval]

/-- Raising the rate of the chip sets up every registered clock again: `f` at the rate just written,
every other one at its own. -/
theorem raised_files (hs : Distinct s.rtcFiles) {f g : FilePtr} {p : ℕ} (hg : Registered s g) :
    (raised s f p).files g =
      renew p (if g = f then withFreq p (s.files f) else s.files g) := by
  have hvisit := files_of_registered (g := renew p) hs hg
    (s.setFile f (withFreq p (s.files f))).files
  rw [raised, foldl_updateRtc]
  refine hvisit.trans (congrArg (renew p) ?_)
  split
  · rename_i hfg
    rw [hfg, setFile_files_self]
  · rename_i hfg
    rw [setFile_files_of_ne _ hfg]

theorem raised_eq (s : Driver) (f : FilePtr) (p : ℕ) :
    (raised s f p).rtcFiles = s.rtcFiles ∧ (raised s f p).sysFreqPow = p ∧
      (raised s f p).sysFreq = 2 ^ p ∧ (raised s f p).sysCounterStep = 8192 / 2 ^ p := by
  have hstep : rtcSysMaxFreq >>> p = 8192 / 2 ^ p := by
    rw [Nat.shiftRight_eq_div_pow]
    rfl
  rw [raised, foldl_updateRtc, ← hstep]
  exact ⟨rfl, rfl, rfl, rfl⟩

theorem sound_raised (hs : Sound s) {f : FilePtr} {p : ℕ} (hp : p ≤ 10) (hlt : s.sysFreq < 2 ^ p) :
    Sound (raised s f p) := by
  have hpow : s.sysFreqPow < p := by
    rw [hs.freq_eq] at hlt
    exact (Nat.pow_lt_pow_iff_right (by omega)).mp hlt
  obtain ⟨hreg, hpow', hfreq', hstep'⟩ := raised_eq s f p
  refine ⟨⟨by omega, by omega, by rw [hfreq', hpow'], by rw [hstep', hfreq'], fun g hg => ?_⟩,
    by rw [hreg]; exact hs.distinct⟩
  have hg' : Registered s g := by
    obtain ⟨i, hi⟩ := hg
    exact ⟨i, by rw [← hreg]; exact hi⟩
  have hclock := hs.clock g hg'
  have h₁ := hclock.freq_pos
  have h₂ := hclock.freq_le
  rw [hpow', raised_files hs.distinct hg']
  have hfreq : ∀ v, 1 ≤ freq v → freq v ≤ p → ClockOk p (renew p v) := fun v hv hv' =>
    clockOk_resetFile v hv hv' hp
  split
  · exact hfreq _ (by rw [freq_withFreq hp]; omega) (by rw [freq_withFreq hp])
  · exact hfreq _ (by omega) (by omega)

/-- A change of one registered clock that keeps it in order. -/
theorem sound_setFile (hs : Sound s) {f : FilePtr} {v : FILE}
    (hv : Registered s f → ClockOk s.sysFreqPow v) : Sound (s.setFile f v) where
  pow_pos := hs.pow_pos
  pow_le := hs.pow_le
  freq_eq := hs.freq_eq
  step_eq := hs.step_eq
  clock := by
    intro g hg
    by_cases hfg : g = f
    · subst hfg
      rw [setFile_files_self]
      exact hv hg
    · rw [setFile_files_of_ne _ hfg]
      exact hs.clock g hg
  distinct := hs.distinct

theorem sound_rtcWrite (hs : Sound s) (buf : Option (BitVec 32)) (length : BitVec 32)
    (f : FilePtr) : Sound (s.rtcWrite buf length f).2 := by
  rw [rtcWrite_eq]
  cases hp : askedPow buf length with
  | none => exact hs
  | some p =>
    obtain ⟨h₁, h₂⟩ := askedPow_bounds hp
    simp only
    split
    · rename_i hlt
      exact sound_raised hs h₂ hlt
    · rename_i hlt
      have hle : p ≤ s.sysFreqPow := by
        rw [hs.freq_eq, Nat.not_lt] at hlt
        exact (Nat.pow_le_pow_iff_right (by omega)).mp hlt
      have hval := toNat_ofNat_pow h₂
      rw [resetRtcInfo_eq]
      exact sound_setFile hs fun _ =>
        clockOk_resetFile _ (by omega) (by omega) hs.pow_le

theorem registered_opened {f g : FilePtr} {i : Fin maxProcNum} (hi : s.rtcFiles i = none) :
    Registered (opened s f i) g ↔ g = f ∨ Registered s g := by
  constructor
  · rintro ⟨j, hj⟩
    by_cases hij : j = i
    · subst hij
      rw [opened_rtcFiles_self] at hj
      exact Or.inl (Option.some.inj hj).symm
    · rw [opened_rtcFiles_of_ne _ _ hij] at hj
      exact Or.inr ⟨j, hj⟩
  · rintro (rfl | ⟨j, hj⟩)
    · exact ⟨i, opened_rtcFiles_self ..⟩
    · refine ⟨j, ?_⟩
      rw [opened_rtcFiles_of_ne, hj]
      rintro rfl
      rw [hi] at hj
      exact absurd hj (by simp)

theorem distinct_opened (hs : Distinct s.rtcFiles) {f : FilePtr} (hf : ¬ Registered s f)
    {i : Fin maxProcNum} : Distinct (opened s f i).rtcFiles := by
  intro j k g hj hk
  have hother : ∀ {j : Fin maxProcNum}, j ≠ i → (opened s f i).rtcFiles j = some g →
      s.rtcFiles j = some g ∧ g ≠ f := by
    intro j hji hj
    rw [opened_rtcFiles_of_ne _ _ hji] at hj
    exact ⟨hj, fun hgf => hf ⟨j, hgf ▸ hj⟩⟩
  have hself : (opened s f i).rtcFiles i = some g → g = f := by
    intro h
    rw [opened_rtcFiles_self] at h
    exact (Option.some.inj h).symm
  by_cases hji : j = i
  · by_cases hki : k = i
    · rw [hji, hki]
    · subst hji
      exact absurd (hself hj) (hother hki hk).2
  · by_cases hki : k = i
    · subst hki
      exact absurd (hself hk) (hother hji hj).2
    · exact hs (hother hji hj).1 (hother hki hk).1

theorem sound_opened (hs : Sound s) {f : FilePtr} (hf : ¬ Registered s f) {i : Fin maxProcNum}
    (hi : s.rtcFiles i = none) : Sound (opened s f i) where
  pow_pos := hs.pow_pos
  pow_le := hs.pow_le
  freq_eq := hs.freq_eq
  step_eq := hs.step_eq
  clock := by
    intro g hg
    rcases (registered_opened hi).mp hg with rfl | hold
    · have h := clockOk_resetFile (p := 1) (s.files g) (by decide) hs.pow_pos hs.pow_le
      rw [opened_files_self]
      exact ⟨h.freq_pos, h.freq_le, h.ratio_eq, h.count_le, h.pos_pos, h.pos_le⟩
    · have hne : g ≠ f := fun hgf => hf (hgf ▸ hold)
      rw [opened_files_of_ne _ hne]
      exact hs.clock g hold
  distinct := distinct_opened hs.distinct hf

theorem sound_rtcRead (hs : Sound s) (f : FilePtr) : Sound (exec s (.read f)) := by
  rw [exec_read]
  split
  · exact hs
  · rename_i hc
    exact sound_setFile hs fun hf => clockOk_consume (hs.clock f hf) hc

theorem distinct_closed (hs : Distinct s.rtcFiles) (f : FilePtr) :
    Distinct (closed s f).rtcFiles := by
  intro i j g hi hj
  exact hs (closed_rtcFiles.mp hi).1 (closed_rtcFiles.mp hj).1

theorem registered_closed {f g : FilePtr} : Registered (closed s f) g ↔ Registered s g ∧ g ≠ f := by
  constructor
  · rintro ⟨i, hi⟩
    exact ⟨⟨i, (closed_rtcFiles.mp hi).1⟩, (closed_rtcFiles.mp hi).2⟩
  · rintro ⟨⟨i, hi⟩, hne⟩
    exact ⟨i, closed_rtcFiles.mpr ⟨hi, hne⟩⟩

theorem sound_rtcClose (hs : Sound s) (f : FilePtr) : Sound (s.rtcClose f).2 := by
  rw [rtcClose_eq]
  refine ⟨⟨hs.pow_pos, hs.pow_le, hs.freq_eq, hs.step_eq, ?_⟩, ?_⟩
  · intro g hg
    exact hs.clock g (registered_closed.mp hg).1
  · exact distinct_closed hs.distinct f

theorem sound_rtcIsr (hs : Sound s) (cur : ℕ) : Sound (s.rtcIsr cur) := by
  obtain ⟨hfiles, hreg, hpow, hfreq, hstep⟩ := rtcIsr_eq s cur
  refine ⟨⟨by rw [hpow]; exact hs.pow_pos, by rw [hpow]; exact hs.pow_le,
    by rw [hfreq, hpow]; exact hs.freq_eq, by rw [hstep, hfreq]; exact hs.step_eq, ?_⟩,
    by rw [hreg]; exact hs.distinct⟩
  rintro f ⟨i, hi⟩
  have hf : Registered s f := ⟨i, by rw [← hreg]; exact hi⟩
  rw [hfiles, hpow, files_of_registered hs.distinct hf]
  exact clockOk_tick (hs.clock f hf) hs.pow_le

/-- **One call keeps the invariant.** -/
theorem sound_exec (hs : Sound s) (c : Call) (hc : Allowed s c) : Sound (exec s c) := by
  cases c with
  | «open» f =>
    rw [exec, rtcOpen_eq]
    cases hi : (List.finRange maxProcNum).find? fun i => (s.rtcFiles i).isNone with
    | none => exact hs
    | some i =>
      have hfree : s.rtcFiles i = none := by simpa using List.find?_some hi
      exact sound_opened hs hc.1 hfree
  | write buf length f => exact sound_rtcWrite hs buf length f
  | read f => exact sound_rtcRead hs f
  | close f => exact sound_rtcClose hs f
  | isr cur => exact sound_rtcIsr hs cur

end steps

/-! ## Whole histories -/

/-- **A clock ticks at its own rate**: the chip's rate divided by its ratio is its rate, and in every
`2 ^ ratio` interrupts, whichever processes they interrupt, its countdown goes round once and it
gets one tick. -/
structure OwnRate (s : Driver) (f : FilePtr) : Prop where
  rate : s.sysFreq / 2 ^ ratio (s.files f) = 2 ^ freq (s.files f)
  whole : 2 ^ ratio (s.files f) ∣ s.sysFreq
  round : ∀ curs : List ℕ, curs.length = 2 ^ ratio (s.files f) →
    ((curs.foldl rtcIsr s).files f).pos.toInt = (s.files f).pos.toInt ∧
      count ((curs.foldl rtcIsr s).files f) = min 32 (count (s.files f) + 1)

theorem foldl_rtcIsr_files {s : Driver} (hs : Distinct s.rtcFiles) {f : FilePtr}
    (hf : Registered s f) (curs : List ℕ) :
    (curs.foldl rtcIsr s).files f = tick^[curs.length] (s.files f) := by
  induction curs generalizing s with
  | nil => rfl
  | cons cur curs ih =>
    obtain ⟨hfiles, hreg, -⟩ := rtcIsr_eq s cur
    have hf' : Registered (s.rtcIsr cur) f := by
      obtain ⟨i, hi⟩ := hf
      exact ⟨i, by rw [hreg]; exact hi⟩
    rw [List.foldl_cons, ih (by rw [hreg]; exact hs) hf', hfiles, files_of_registered hs hf,
      List.length_cons, Function.iterate_succ_apply]

theorem Sound.ownRate {s : Driver} (hs : Sound s) {f : FilePtr} (hf : Registered s f) :
    OwnRate s f := by
  have hclock := hs.clock f hf
  have hle := hclock.freq_le
  have hsplit : s.sysFreq = 2 ^ freq (s.files f) * 2 ^ ratio (s.files f) := by
    rw [hs.freq_eq, ← Nat.pow_add, hclock.ratio_eq, Nat.add_sub_cancel' hle]
  refine ⟨?_, ?_, fun curs hcurs => ?_⟩
  · rw [hsplit, Nat.mul_div_cancel _ (Nat.two_pow_pos _)]
  · rw [hsplit]
    exact Nat.dvd_mul_left ..
  · rw [foldl_rtcIsr_files hs.distinct hf, hcurs]
    exact iterate_tick_period hclock hs.pow_le

/-- **The clocks are virtualised in every state.**  After `init_rtc`, whatever is opened, written,
read, closed and interrupted, the variables of the driver agree with each other and with every
registered clock, and each clock ticks at its own rate. -/
theorem always_virtualised (files : FilePtr → FILE) (signals : ℕ → BitVec 8) (regA : BitVec 8)
    (calls : List Call) (h : Meets exec Allowed (start files signals regA) calls) :
    Always exec (fun s => Virtualised s ∧ ∀ f, Registered s f → OwnRate s f)
      (start files signals regA) calls := by
  have hsound := always_of_meets (I := Sound) (fun _ c hs hc => sound_exec hs c hc)
    (sound_start files signals regA) h
  exact fun calls' hpre =>
    ⟨(hsound calls' hpre).toVirtualised, fun f hf => (hsound calls' hpre).ownRate hf⟩

/-- Two clocks, the second raised to 8 Hz, one interrupt, a read that has to wait and a close. -/
theorem always_virtualised_two_clocks :
    let v : FILE := ⟨.file, 0, 0, .reg, false⟩
    let s := start (fun _ => v) (fun _ => 0) 0
    let calls : List Call := [.open ⟨1, 2⟩, .open ⟨2, 2⟩, .write (some 8) 4 ⟨2, 2⟩, .isr 1,
      .read ⟨1, 2⟩, .close ⟨1, 2⟩]
    Meets exec Allowed s calls ∧
      Always exec (fun s => Virtualised s ∧ ∀ f, Registered s f → OwnRate s f) s calls := by
  intro v s calls
  have h : Meets exec Allowed s calls :=
    ⟨by decide, by decide, by decide, trivial, trivial, trivial, trivial⟩
  exact ⟨h, always_virtualised _ _ _ _ h⟩

end Rtc
end CoreOS
