import CoreOS.Rtc.Virtual

/-!
# Who gets the alarm

Every ten seconds the driver wants to send `SIG_ALARM` to the processes.  It keeps one counter for
each of ten slots, adds `sys_counter_step` to all of them at every interrupt, and when one of them
reaches `SYS_COUNTER_MAX` it is set to zero and the alarm is raised.  But the alarm is raised in the
PCB of the process that was interrupted, whatever the slot.

From zeroed counters all ten run in step.  They expire together, once in ten seconds, and at each
expiry one process gets the alarm: the one that happens to be running.  `alarm_reaches_iff` says so
for every schedule.
-/

namespace CoreOS
namespace Rtc

open Runs Driver

/-- A clock interrupt: the value of `sys_counter_step` and the process that is interrupted. -/
structure Interrupt where
  step : ℕ
  cur : ℕ
  deriving DecidableEq

/-- The state after an interrupt. -/
def interrupt (s : Driver) (e : Interrupt) : Driver :=
  rtcIsr { s with sysCounterStep := e.step } e.cur

/-- The interrupt raises `SIG_ALARM` in the PCB of process `p`: the flag is set after it, whatever
flags were set before. -/
def RaisesAlarm (s : Driver) (e : Interrupt) (p : ℕ) : Prop :=
  ∀ signals, (interrupt { s with signals := signals } e).signals p &&& sigAlarm = sigAlarm

/-- Some interrupt of the run raises `SIG_ALARM` in the PCB of process `p`. -/
def AlarmRaised (s : Driver) (es : List Interrupt) (p : ℕ) : Prop :=
  ∃ pre e post, es = pre ++ e :: post ∧ RaisesAlarm (run interrupt s pre) e p

/-- The processes interrupted at the expiries of a schedule, when `acc` has been counted already. -/
def expiries : ℕ → List Interrupt → List ℕ
  | _, [] => []
  | acc, e :: es =>
    if sysCounterMax ≤ acc + e.step then e.cur :: expiries 0 es else expiries (acc + e.step) es

/-! ## One interrupt -/

/-- A counter after an interrupt. -/
def counted (elapsed step : ℕ) : ℕ := if sysCounterMax ≤ elapsed + step then 0 else elapsed + step

/-- One round of the loop counts one slot, and raises the alarm when it expires. -/
theorem counted_isrRound (cur : ℕ) (s : Driver) (i : Fin maxProcNum) :
    (isrRound cur s i).timeElasped =
        Function.update s.timeElasped i (counted (s.timeElasped i) s.sysCounterStep) ∧
      (isrRound cur s i).signals =
        (if sysCounterMax ≤ s.timeElasped i + s.sysCounterStep then
          Function.update s.signals cur (s.signals cur ||| sigAlarm) else s.signals) ∧
      (isrRound cur s i).sysCounterStep = s.sysCounterStep := by
  rw [isrRound_eq]
  exact ⟨rfl, rfl, rfl⟩

theorem sigAlarm_or_idem (x : BitVec 8) : (x ||| sigAlarm) ||| sigAlarm = x ||| sigAlarm := by
  rw [BitVec.or_assoc, BitVec.or_self]

/-- **The loop counts every slot once.** -/
theorem timeElasped_foldl_isrRound (cur : ℕ) {l : List (Fin maxProcNum)} (hl : l.Nodup) (s : Driver)
    (j : Fin maxProcNum) :
    (l.foldl (isrRound cur) s).timeElasped j =
      if j ∈ l then counted (s.timeElasped j) s.sysCounterStep else s.timeElasped j := by
  induction l generalizing s with
  | nil => simp
  | cons i l ih =>
    obtain ⟨hi, hl⟩ := List.nodup_cons.mp hl
    obtain ⟨htime, -, hstep⟩ := counted_isrRound cur s i
    rw [List.foldl_cons, ih hl, hstep, htime]
    by_cases hji : j = i
    · subst hji
      rw [if_neg hi, if_pos List.mem_cons_self, Function.update_self]
    · rw [Function.update_of_ne hji]
      simp only [List.mem_cons, hji, false_or]

theorem timeElasped_rtcIsr (s : Driver) (cur : ℕ) (i : Fin maxProcNum) :
    (s.rtcIsr cur).timeElasped i = counted (s.timeElasped i) s.sysCounterStep := by
  rw [rtcIsr, timeElasped_foldl_isrRound cur (List.nodup_finRange _), if_pos (List.mem_finRange i)]

/-- The loop over slots that have all counted the same raises the alarm once or not at all. -/
theorem signals_foldl_isrRound (cur acc : ℕ) {l : List (Fin maxProcNum)} (hl : l.Nodup)
    (s : Driver) (hs : ∀ i ∈ l, s.timeElasped i = acc) :
    (l.foldl (isrRound cur) s).signals =
      if l ≠ [] ∧ sysCounterMax ≤ acc + s.sysCounterStep then
        Function.update s.signals cur (s.signals cur ||| sigAlarm) else s.signals := by
  induction l generalizing s with
  | nil => simp
  | cons i l ih =>
    obtain ⟨hi, hl⟩ := List.nodup_cons.mp hl
    obtain ⟨htime, hsig, hstep⟩ := counted_isrRound cur s i
    have hacc : s.timeElasped i = acc := hs i List.mem_cons_self
    have hrest : ∀ j ∈ l, (isrRound cur s i).timeElasped j = acc := by
      intro j hj
      have hne : j ≠ i := fun h => hi (h ▸ hj)
      rw [htime, Function.update_of_ne hne]
      exact hs j (List.mem_cons_of_mem i hj)
    rw [List.foldl_cons, ih hl _ hrest, hstep, hsig, hacc]
    by_cases hfull : sysCounterMax ≤ acc + s.sysCounterStep
    · by_cases hnil : l = []
      · simp [hnil, hfull]
      · simp only [hnil, hfull, ne_eq, not_false_iff, and_self, if_true, reduceCtorEq,
          Function.update_self, Function.update_idem, sigAlarm_or_idem]
    · simp [hfull]

/-- **One interrupt**, when all slots have counted the same: they still do, and if they expire, the
interrupted process gets the alarm. -/
theorem interrupt_eq {s : Driver} {acc : ℕ} (hs : ∀ i, s.timeElasped i = acc) (e : Interrupt) :
    (∀ i, (interrupt s e).timeElasped i = counted acc e.step) ∧
      (interrupt s e).signals = if sysCounterMax ≤ acc + e.step then
        Function.update s.signals e.cur (s.signals e.cur ||| sigAlarm) else s.signals := by
  have hne : List.finRange maxProcNum ≠ [] := by decide
  constructor
  · intro i
    rw [interrupt, timeElasped_rtcIsr]
    exact congrArg (counted · e.step) (hs i)
  · rw [interrupt, rtcIsr, signals_foldl_isrRound e.cur acc (List.nodup_finRange maxProcNum)
      { s with sysCounterStep := e.step } (fun i _ => hs i)]
    simp only [hne, ne_eq, not_false_iff, true_and]

theorem raisesAlarm_iff {s : Driver} {acc : ℕ} (hs : ∀ i, s.timeElasped i = acc) (e : Interrupt)
    (p : ℕ) : RaisesAlarm s e p ↔ sysCounterMax ≤ acc + e.step ∧ p = e.cur := by
  have hsig : ∀ signals, (interrupt { s with signals := signals } e).signals = _ :=
    fun signals => (interrupt_eq (s := { s with signals := signals }) hs e).2
  constructor
  · intro h
    have hclear : ¬ (0 : BitVec 8) &&& sigAlarm = sigAlarm := by decide
    have h0 := h fun _ => 0
    rw [hsig] at h0
    by_cases hfull : sysCounterMax ≤ acc + e.step
    · rw [if_pos hfull] at h0
      refine ⟨hfull, ?_⟩
      by_contra hne
      rw [Function.update_of_ne hne] at h0
      exact hclear h0
    · rw [if_neg hfull] at h0
      exact absurd h0 hclear
  · rintro ⟨hfull, rfl⟩ signals
    rw [hsig, if_pos hfull, Function.update_self, BitVec.and_comm]
    ext i hi
    simp only [BitVec.getElem_and, BitVec.getElem_or]
    cases sigAlarm[i] <;> simp

/-! ## The schedules -/

theorem alarmRaised_cons {s : Driver} {e : Interrupt} {es : List Interrupt} {p : ℕ} :
    AlarmRaised s (e :: es) p ↔ RaisesAlarm s e p ∨ AlarmRaised (interrupt s e) es p := by
  constructor
  · rintro ⟨pre, e', post, heq, h⟩
    cases pre with
    | nil =>
      obtain ⟨rfl, rfl⟩ := List.cons.inj heq
      rw [run_nil] at h
      exact Or.inl h
    | cons e'' pre =>
      obtain ⟨rfl, rfl⟩ := List.cons.inj heq
      rw [run_cons] at h
      exact Or.inr ⟨pre, e', post, rfl, h⟩
  · rintro (h | ⟨pre, e', post, rfl, h⟩)
    · exact ⟨[], e, es, rfl, by rw [run_nil]; exact h⟩
    · exact ⟨e :: pre, e', post, rfl, by rw [run_cons]; exact h⟩

/-- **A process gets the alarm exactly when it is the one interrupted at an expiry.** -/
theorem alarmRaised_iff {s : Driver} {acc : ℕ} (hs : ∀ i, s.timeElasped i = acc)
    (es : List Interrupt) (p : ℕ) : AlarmRaised s es p ↔ p ∈ expiries acc es := by
  induction es generalizing s acc with
  | nil =>
    refine iff_of_false ?_ (by simp [expiries])
    rintro ⟨pre, e, post, h, -⟩
    simp at h
  | cons e es ih =>
    have hnext := (interrupt_eq hs e).1
    rw [alarmRaised_cons, raisesAlarm_iff hs, ih hnext, expiries]
    by_cases hfull : sysCounterMax ≤ acc + e.step
    · have hzero : counted acc e.step = 0 := if_pos hfull
      rw [if_pos hfull, hzero, List.mem_cons]
      simp only [hfull, true_and]
    · have hsum : counted acc e.step = acc + e.step := if_neg hfull
      rw [if_neg hfull, hsum]
      simp only [hfull, false_and, false_or]

/-- Ten seconds contain an expiry. -/
theorem expiries_ne_nil {acc : ℕ} {es : List Interrupt} (hacc : acc < sysCounterMax)
    (h : sysCounterMax ≤ acc + (es.map Interrupt.step).sum) : expiries acc es ≠ [] := by
  induction es generalizing acc with
  | nil =>
    rw [List.map_nil, List.sum_nil] at h
    omega
  | cons e es ih =>
    rw [expiries]
    split
    · simp
    · rename_i hlow
      rw [List.map_cons, List.sum_cons] at h
      exact ih (by omega) (by omega)

/-- **Whom the alarm reaches.**  From zeroed counters, a schedule of ten seconds or more raises the
alarm of somebody, and it raises the alarm of all processes in use exactly when each of them is the
one interrupted at some expiry. -/
theorem alarm_reaches_iff (s : Driver) (hs : ∀ i, s.timeElasped i = 0) (es : List Interrupt)
    (htotal : sysCounterMax ≤ (es.map Interrupt.step).sum) (inUse : Set ℕ) :
    (∃ p, AlarmRaised s es p) ∧
      ((∀ p ∈ inUse, AlarmRaised s es p) ↔ ∀ p ∈ inUse, p ∈ expiries 0 es) := by
  constructor
  · have hlow : 0 < sysCounterMax := by decide
    obtain ⟨p, hp⟩ := List.exists_mem_of_ne_nil _
      (expiries_ne_nil hlow (by rw [Nat.zero_add]; exact htotal))
    exact ⟨p, (alarmRaised_iff hs es p).mpr hp⟩
  · exact forall₂_congr fun p _ => alarmRaised_iff hs es p

/-- Ten seconds at 2 Hz, processes 1 and 2 taking turns. -/
theorem alarm_reaches_iff_two :
    let v : FILE := ⟨.file, 0, 0, .reg, false⟩
    let s := start (fun _ => v) (fun _ => 0) 0
    let es := (List.range 20).map fun k => (⟨4096, 1 + k % 2⟩ : Interrupt)
    (∃ p, AlarmRaised s es p) ∧
      ((∀ p ∈ ({1, 2} : Set ℕ), AlarmRaised s es p) ↔ ∀ p ∈ ({1, 2} : Set ℕ), p ∈ expiries 0 es) :=
  alarm_reaches_iff _ (fun _ => rfl) _ (by decide) _

/-- In that schedule process 1 runs half of the time and gets no alarm. -/
theorem not_alarm_reaches :
    let v : FILE := ⟨.file, 0, 0, .reg, false⟩
    let s := start (fun _ => v) (fun _ => 0) 0
    let es := (List.range 20).map fun k => (⟨4096, 1 + k % 2⟩ : Interrupt)
    sysCounterMax ≤ (es.map Interrupt.step).sum ∧ ¬ AlarmRaised s es 1 := by
  intro v s es
  refine ⟨by decide, fun h => ?_⟩
  have hmem := (alarmRaised_iff (fun _ => rfl) es 1).mp h
  exact absurd hmem (by decide)

end Rtc
end CoreOS
