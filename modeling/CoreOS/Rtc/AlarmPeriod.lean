import CoreOS.Rtc.Alarm
import CoreOS.Rtc.TickCount

/-!
# The period of the alarm

`rtc_isr` adds `sys_counter_step` to a counter, and when the counter is at or above `SYS_COUNTER_MAX`
it sets it to zero.  Whatever the counter has gone beyond the bound would be lost.  Nothing is: it
never goes beyond.

The step is `8192 / sys_freq`, a power of two that divides 81920, and `sys_freq` only ever grows, so
that each step divides all the earlier ones.  The counter is therefore a multiple of the step at
all times, also when the step has changed on the way, and it arrives at the bound exactly.
-/

namespace CoreOS
namespace Rtc

open Runs Driver

/-- The loop of `rtc_isr` finds counter `i` full in this state. -/
def Resets (i : Fin maxProcNum) (s : Driver) : Prop :=
  sysCounterMax ≤ s.timeElasped i + s.sysCounterStep

instance (i : Fin maxProcNum) (s : Driver) : Decidable (Resets i s) := Nat.decLe _ _

/-- What a call adds to the counters, before any of them is reset. -/
def stepAdded (s : Driver) (c : Call) : ℕ := if IsIsr s c then s.sysCounterStep else 0

/-- **The counters are multiples of the step**, and below the bound. -/
def Divided (s : Driver) : Prop :=
  ∀ i, s.sysCounterStep ∣ s.timeElasped i ∧ s.timeElasped i < sysCounterMax

/-- The step is a power of two, and the counters are multiples of it. -/
structure InPhase (s : Driver) : Prop where
  pow_pos : 1 ≤ s.sysFreqPow
  pow_le : s.sysFreqPow ≤ 10
  freq_eq : s.sysFreq = 2 ^ s.sysFreqPow
  step_eq : s.sysCounterStep = 2 ^ (13 - s.sysFreqPow)
  divided : Divided s

theorem timeElasped_raised (s : Driver) (f : FilePtr) (p : ℕ) (i : Fin maxProcNum) :
    (raised s f p).timeElasped i = s.timeElasped i := by
  rw [raised, foldl_updateRtc]
  rfl

namespace InPhase

variable {s : Driver}

theorem sysCounterMax_pos : 0 < sysCounterMax := by decide

theorem step_dvd_max (h : InPhase s) : s.sysCounterStep ∣ sysCounterMax := by
  have hmax : sysCounterMax = 2 ^ 14 * 5 := by decide
  rw [h.step_eq, hmax]
  exact Dvd.dvd.mul_right (Nat.pow_dvd_pow 2 (by omega)) 5

/-- **A counter that is full is full exactly.** -/
theorem full (h : InPhase s) {i : Fin maxProcNum} (hfull : Resets i s) :
    s.timeElasped i + s.sysCounterStep = sysCounterMax := by
  obtain ⟨hdvd, hlt⟩ := h.divided i
  obtain ⟨m, hm⟩ := h.step_dvd_max
  obtain ⟨e, he⟩ := hdvd
  unfold Resets at hfull
  rw [hm, he] at hlt hfull
  have hme : e < m := Nat.lt_of_mul_lt_mul_left hlt
  have hle : s.sysCounterStep * (e + 1) ≤ s.sysCounterStep * m := Nat.mul_le_mul_left _ hme
  rw [Nat.mul_add, Nat.mul_one] at hle
  rw [hm, he]
  omega

/-- A change of state that keeps the rates, and leaves the counters alone or sets them to zero. -/
theorem of_rates {t : Driver} (h : InPhase s) (hrates : rates t = rates s)
    (hstep : t.sysCounterStep = s.sysCounterStep)
    (hcounters : ∀ i, t.timeElasped i = s.timeElasped i ∨ t.timeElasped i = 0) : InPhase t := by
  obtain ⟨-, hfreq, hpow⟩ : t.regA = s.regA ∧ t.sysFreq = s.sysFreq ∧
      t.sysFreqPow = s.sysFreqPow := by simpa [rates] using hrates
  refine ⟨by rw [hpow]; exact h.pow_pos, by rw [hpow]; exact h.pow_le, by rw [hfreq, hpow, h.freq_eq],
    by rw [hstep, hpow, h.step_eq], fun i => ?_⟩
  rw [hstep]
  rcases hcounters i with hi | hi
  · rw [hi]
    exact h.divided i
  · rw [hi]
    exact ⟨Nat.dvd_zero _, sysCounterMax_pos⟩

/-- An interrupt counts on, or resets. -/
theorem isr (h : InPhase s) (cur : ℕ) : InPhase (s.rtcIsr cur) := by
  obtain ⟨-, -, hpow, hfreq, hstep⟩ := rtcIsr_eq s cur
  refine ⟨by rw [hpow]; exact h.pow_pos, by rw [hpow]; exact h.pow_le, by rw [hfreq, hpow, h.freq_eq],
    by rw [hstep, hpow, h.step_eq], fun i => ?_⟩
  rw [hstep, timeElasped_rtcIsr, counted]
  split
  · exact ⟨Nat.dvd_zero _, sysCounterMax_pos⟩
  · rename_i hlow
    exact ⟨Nat.dvd_add (h.divided i).1 (Nat.dvd_refl _), Nat.not_le.mp hlow⟩

/-- A write that raises the rate makes the step smaller, by a power of two. -/
theorem raised (h : InPhase s) (f : FilePtr) {p : ℕ} (hp : p ≤ 10) (hlt : s.sysFreq < 2 ^ p) :
    InPhase (Rtc.raised s f p) := by
  have hpow : s.sysFreqPow < p := by
    rw [h.freq_eq] at hlt
    exact (Nat.pow_lt_pow_iff_right (by omega)).mp hlt
  obtain ⟨-, hpow', hfreq', hstep'⟩ := raised_eq s f p
  have hstep : (Rtc.raised s f p).sysCounterStep = 2 ^ (13 - p) := by
    rw [hstep', Nat.div_eq_of_eq_mul_left (Nat.two_pow_pos p)]
    rw [← Nat.pow_add, Nat.sub_add_cancel (by omega)]
  refine ⟨by omega, by omega, by rw [hfreq', hpow'], by rw [hstep, hpow'], fun i => ?_⟩
  have hdvd : 2 ^ (13 - p) ∣ s.sysCounterStep := by
    rw [h.step_eq]
    exact Nat.pow_dvd_pow 2 (by omega)
  rw [hstep, timeElasped_raised]
  exact ⟨Nat.dvd_trans hdvd (h.divided i).1, (h.divided i).2⟩

end InPhase

/-! ## The calls -/

section calls

variable {s : Driver}

/-- The calls that leave the step alone, and count nothing. -/
structure Idle (s t : Driver) : Prop where
  rates_eq : rates t = rates s
  step_eq : t.sysCounterStep = s.sysCounterStep
  counters : ∀ i, t.timeElasped i = s.timeElasped i ∨ t.timeElasped i = 0

theorem Idle.refl (s : Driver) : Idle s s := ⟨rfl, rfl, fun _ => Or.inl rfl⟩

/-- **What a call can do to the counters**: an interrupt counts, a write may raise the rate of the
chip, and an `rtc_open` that takes a slot starts the counter of the slot again. -/
theorem exec_cases (s : Driver) (c : Call) :
    (∃ cur, c = .isr cur) ∨
      (∃ f p, p ≤ 10 ∧ s.sysFreq < 2 ^ p ∧ ¬ IsIsr s c ∧ exec s c = raised s f p) ∨
      (¬ IsIsr s c ∧ Idle s (exec s c)) := by
  cases c with
  | «open» f =>
    refine Or.inr (Or.inr ⟨id, ?_⟩)
    rw [exec, rtcOpen_eq]
    cases (List.finRange maxProcNum).find? fun j => (s.rtcFiles j).isNone with
    | none => exact Idle.refl s
    | some j =>
      refine ⟨rfl, rfl, fun i => ?_⟩
      by_cases hij : i = j
      · subst hij
        exact Or.inr (Function.update_self ..)
      · exact Or.inl (Function.update_of_ne hij _ _)
  | write buf length f =>
    rw [exec, rtcWrite_eq]
    cases hask : askedPow buf length with
    | none => exact Or.inr (Or.inr ⟨id, Idle.refl s⟩)
    | some p =>
      simp only
      by_cases hlt : s.sysFreq < 2 ^ p
      · rw [if_pos hlt]
        exact Or.inr (Or.inl ⟨f, p, (askedPow_bounds hask).2, hlt, id, rfl⟩)
      · rw [if_neg hlt]
        exact Or.inr (Or.inr ⟨id, rfl, rfl, fun _ => Or.inl rfl⟩)
  | read f =>
    refine Or.inr (Or.inr ⟨id, ?_⟩)
    rw [exec_read]
    split
    · exact Idle.refl s
    · exact ⟨rfl, rfl, fun _ => Or.inl rfl⟩
  | close f =>
    rw [exec, rtcClose_eq]
    exact Or.inr (Or.inr ⟨id, rfl, rfl, fun _ => Or.inl rfl⟩)
  | isr cur => exact Or.inl ⟨cur, rfl⟩

/-- **One call keeps the counters in phase.** -/
theorem inPhase_exec (h : InPhase s) (c : Call) : InPhase (exec s c) := by
  rcases exec_cases s c with ⟨cur, rfl⟩ | ⟨f, p, hp, hlt, -, heq⟩ | ⟨-, hidle⟩
  · exact h.isr cur
  · rw [heq]
    exact h.raised f hp hlt
  · exact h.of_rates hidle.rates_eq hidle.step_eq hidle.counters

theorem inPhase_start (files : FilePtr → FILE) (signals : ℕ → BitVec 8) (regA : BitVec 8) :
    InPhase (start files signals regA) where
  pow_pos := Nat.le_refl 1
  pow_le := by
    show 1 ≤ 10
    omega
  freq_eq := rfl
  step_eq := rfl
  divided := fun i => ⟨Nat.dvd_zero _, InPhase.sysCounterMax_pos⟩

/-- A call after which a counter is not zero has added its step to the counter. -/
theorem timeElasped_exec {c : Call} {i : Fin maxProcNum} (hne : (exec s c).timeElasped i ≠ 0) :
    (exec s c).timeElasped i = s.timeElasped i + stepAdded s c := by
  rcases exec_cases s c with ⟨cur, rfl⟩ | ⟨f, p, -, -, hno, heq⟩ | ⟨hno, hidle⟩
  · have hcount : (exec s (.isr cur)).timeElasped i = counted (s.timeElasped i) s.sysCounterStep := by
      rw [exec, timeElasped_rtcIsr]
    have hlow : ¬ sysCounterMax ≤ s.timeElasped i + s.sysCounterStep := fun hfull => hne (hcount.trans (if_pos hfull))
    rw [hcount, stepAdded, if_pos (show IsIsr s (.isr cur) from trivial), counted, if_neg hlow]
  · rw [heq, timeElasped_raised, stepAdded, if_neg hno, Nat.add_zero]
  · rw [stepAdded, if_neg hno, Nat.add_zero]
    exact (hidle.counters i).resolve_right hne

/-- **Between two zeros a counter holds what has been added.** -/
theorem timeElasped_run {calls : List Call} {i : Fin maxProcNum}
    (hne : ∀ calls', calls' <+: calls → calls' ≠ [] → (run exec s calls').timeElasped i ≠ 0) :
    (run exec s calls).timeElasped i = s.timeElasped i + sumAlong exec stepAdded s calls := by
  induction calls generalizing s with
  | nil => rfl
  | cons c calls ih =>
    have hfirst : (exec s c).timeElasped i ≠ 0 :=
      hne [c] (List.cons_prefix_cons.mpr ⟨rfl, List.nil_prefix⟩) (by simp)
    have hrest := ih (s := exec s c) fun calls' hpre _ =>
      hne (c :: calls') (List.cons_prefix_cons.mpr ⟨rfl, hpre⟩) (by simp)
    rw [run_cons, hrest, timeElasped_exec hfirst, sumAlong_cons, Nat.add_assoc]

end calls

/-- **The period of the alarm is exact.**  In every run from `init_rtc` the counters are multiples of
the step and below the bound, and when an interrupt resets a counter, the steps added since the
counter was last zero, this interrupt's included, sum to `SYS_COUNTER_MAX`. -/
theorem alarm_period_exact (files : FilePtr → FILE) (signals : ℕ → BitVec 8) (regA : BitVec 8) :
    (∀ calls, Always exec Divided (start files signals regA) calls) ∧
      ∀ pre mid cur i,
        let s := run exec (start files signals regA) pre
        s.timeElasped i = 0 →
        (∀ mid', mid' <+: mid → mid' ≠ [] → (run exec s mid').timeElasped i ≠ 0) →
        Resets i (run exec s mid) →
        sumAlong exec stepAdded s (mid ++ [.isr cur]) = sysCounterMax := by
  have hphase : ∀ calls, Always exec InPhase (start files signals regA) calls := fun calls =>
    always_of_meets (C := fun _ _ => True) (fun _ c h _ => inPhase_exec h c)
      (inPhase_start files signals regA) (meets_of_forall (fun _ _ _ => trivial) _)
  refine ⟨fun calls calls' hpre => (hphase calls calls' hpre).divided, ?_⟩
  intro pre mid cur i s hzero hne hfull
  have hend : InPhase (run exec s mid) := by
    have h := (hphase (pre ++ mid)).last
    rw [run_append] at h
    exact h
  have hcounted := timeElasped_run hne
  rw [hzero, Nat.zero_add] at hcounted
  have hlast : stepAdded (run exec s mid) (.isr cur) = (run exec s mid).sysCounterStep :=
    if_pos trivial
  rw [sumAlong_append, sumAlong_cons, sumAlong_nil, Nat.add_zero, hlast, ← hcounted]
  exact hend.full hfull

/-- Nine seconds of a period at 2 Hz, and the last one at 4 Hz. -/
theorem alarm_period_exact_raised :
    let v : FILE := ⟨.file, 0, 0, .reg, false⟩
    let s := start (fun _ => v) (fun _ => 0) 0
    let mid : List Call := List.replicate 18 (.isr 1) ++ [.write (some 4) 4 ⟨1, 2⟩] ++
      List.replicate 3 (.isr 1)
    sumAlong exec stepAdded s (mid ++ [.isr 1]) = sysCounterMax := by
  intro v s mid
  refine (alarm_period_exact (fun _ => v) (fun _ => 0) 0).2 [] mid 1 ⟨1, by decide⟩ rfl ?_ ?_
  · have h : ∀ mid' ∈ mid.inits, mid' ≠ [] → (run exec s mid').timeElasped ⟨1, by decide⟩ ≠ 0 := by
      decide +kernel
    exact fun mid' hpre => h mid' ((List.mem_inits ..).mpr hpre)
  · decide +kernel

end Rtc
end CoreOS
