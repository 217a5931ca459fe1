import CoreOS.Rtc.Virtual

/-!
# A read and the interrupts it lets in

`rtc_read` waits with interrupts enabled, so that the tick it waits for can be credited.  The count
it found is still in a local variable when the interrupts are disabled, and what is stored is that
copy less one.  A tick credited after the last load and before `cli` is in the field and not in the
copy: the store wipes it out.

`Driver.rtcRead` is the read as one step.  Here it is four, `step`, with interrupts between any two
of them that leave them enabled; `run_read` says that nothing else has changed.  Beside the driver a
`Reader` keeps the numbers the statement is about: the ticks that were credited to the clock, the
reads that were completed, and the ticks credited since the last load.  `always_balanced_iff`: no
tick is lost in a run exactly when no read stores a count while a tick has come in between.
-/

namespace CoreOS
namespace Rtc

open Runs Driver

/-! ## The steps of a read -/

/-- Where the process is in `rtc_read`. -/
inductive Phase where
  /-- Not in `rtc_read`. -/
  | idle
  /-- About to load the count, interrupts enabled. -/
  | waiting
  /-- The count was loaded and is not zero, interrupts still enabled. -/
  | loaded (count : BitVec 32)
  /-- After `cli`. -/
  | masked (count : BitVec 32)
  deriving DecidableEq

/-- The driver, the process that reads the clock, and what has happened to the ticks. -/
structure Reader where
  driver : Driver
  phase : Phase
  credited : ℕ
  completed : ℕ
  missed : ℕ

/-- What can happen next.  An interrupt names the process it interrupts. -/
inductive Step where
  | call
  | load
  | cli
  | store
  | isr (cur : ℕ)
  deriving DecidableEq

/-- The ticks an interrupt credits to a registered clock. -/
def credit (v : FILE) : ℕ := if (v.pos - 1).toInt ≤ 0 then 1 else 0

/-- One step of the reader of clock `f`, or an interrupt.  What cannot happen in a phase changes
nothing: in particular no interrupt comes after `cli`. -/
def step (f : FilePtr) (m : Reader) : Step → Reader
  | .call =>
    match m.phase with
    | .idle => { m with phase := .waiting }
    | _ => m
  | .load =>
    match m.phase with
    | .waiting =>
      let count := getRtcCount (m.driver.files f).inode
      -- nothing to consume: `hlt`, and the loop starts again
      if count = 0 then m else { m with phase := .loaded count, missed := 0 }
    | _ => m
  | .cli =>
    match m.phase with
    | .loaded count => { m with phase := .masked count }
    | _ => m
  | .store =>
    match m.phase with
    | .masked count =>
      let driver :=
        if 1 ≤ count.toInt then
          m.driver.setFile f { m.driver.files f with
            inode := setRtcCountField (m.driver.files f).inode (count - 1) }
        else m.driver
      { m with driver := driver, phase := .idle, completed := m.completed + 1 }
    | _ => m
  | .isr cur =>
    match m.phase with
    | .masked _ => m
    | _ =>
      { m with
        driver := m.driver.rtcIsr cur
        credited := m.credited + credit (m.driver.files f)
        missed := m.missed + credit (m.driver.files f) }

/-- A process that is not reading, and nothing counted yet. -/
def atRest (s : Driver) : Reader := ⟨s, .idle, 0, 0, 0⟩

/-- A loaded count is a small number. -/
theorem toInt_getRtcCount (x : BitVec 32) : (getRtcCount x).toInt = (getRtcCount x).toNat := by
  refine toInt_eq_toNat ?_
  have hlt : (getRtcCount x).toNat < 2 ^ 10 := by
    rw [getRtcCount_eq]
    exact BitField.toNat_get_lt 10 10 x
  omega

/-- **Without interrupts the four steps are `rtc_read`.** -/
theorem run_read (s : Driver) (f : FilePtr) (h : getRtcCount (s.files f).inode ≠ 0) :
    some (0, (run (step f) (atRest s) [.call, .load, .cli, .store]).driver) = s.rtcRead f := by
  have hpos : 1 ≤ (getRtcCount (s.files f).inode).toInt := by
    rw [toInt_getRtcCount]
    have hne : (getRtcCount (s.files f).inode).toNat ≠ 0 := fun h0 => h (BitVec.eq_of_toNat_eq h0)
    omega
  unfold rtcRead
  simp only [run_cons, run_nil, step, atRest, if_neg h, if_pos hpos]

/-! ## What an interrupt does to the count -/

/-- An interrupt credits at most one tick, and no tick is dropped below the cap. -/
theorem count_tick {v : FILE} (hcap : count v < 32) : count (tick v) = count v + credit v := by
  unfold tick credit
  simp only
  by_cases hzero : (v.pos - 1).toInt ≤ 0
  · have hle : ¬ 32 < (getRtcCount v.inode).toNat + 1 := by
      have : (getRtcCount v.inode).toNat < 32 := hcap
      omega
    have hval : (BitVec.ofNat 32 (count v + 1)).toNat = count v + 1 := by
      rw [BitVec.toNat_ofNat, Nat.mod_eq_of_lt (by omega)]
    rw [if_pos hzero, if_pos hzero, if_neg hle]
    show (getRtcCount (setRtcCountField v.inode (BitVec.ofNat 32 (count v + 1)))).toNat = _
    rw [getRtcCount_setRtcCountField (by omega), hval]
  · rw [if_neg hzero, if_neg hzero]
    rfl

/-! ## The invariant -/

section reader

variable {f : FilePtr} {m : Reader}

/-- The count of the clock. -/
def ticks (f : FilePtr) (m : Reader) : ℕ := count (m.driver.files f)

/-- **Every credited tick was consumed or is still counted**, since the driver was in state `s`. -/
def Balanced (f : FilePtr) (s : Driver) (m : Reader) : Prop :=
  (m.credited : ℤ) = m.completed + (ticks f m - count (s.files f))

/-- A loaded count and what has come in since. -/
def LoadOk (f : FilePtr) (m : Reader) (count : BitVec 32) : Prop :=
  1 ≤ count.toNat ∧ count.toNat ≤ 1023 ∧ ticks f m = count.toNat + m.missed

/-- The clock is registered once, and the loaded count is the one of the last load. -/
def Reading (f : FilePtr) (m : Reader) : Prop :=
  Registry.Distinct m.driver.rtcFiles ∧ Registered m.driver f ∧
    match m.phase with
    | .loaded count | .masked count => LoadOk f m count
    | _ => True

/-- Interrupts come only while the count is below the cap of 32. -/
def BelowCap (f : FilePtr) (m : Reader) : Step → Prop
  | .isr _ => ticks f m < 32
  | _ => True

/-- A store finds that no tick was credited since the last load. -/
def NothingMissed (m : Reader) : Step → Prop
  | .store => match m.phase with
    | .masked _ => m.missed = 0
    | _ => True
  | _ => True

instance (f : FilePtr) (m : Reader) : (e : Step) → Decidable (BelowCap f m e)
  | .isr _ => inferInstanceAs (Decidable (ticks f m < 32))
  | .call | .load | .cli | .store => inferInstanceAs (Decidable True)

/-- The state after an interrupt that is let in. -/
theorem step_isr (hm : Reading f m) (cur : ℕ) (hcap : ticks f m < 32) (hopen : ∀ c, m.phase ≠ .masked c) :
    (step f m (.isr cur)).phase = m.phase ∧
      (step f m (.isr cur)).driver.rtcFiles = m.driver.rtcFiles ∧
      (step f m (.isr cur)).completed = m.completed ∧
      (step f m (.isr cur)).credited = m.credited + credit (m.driver.files f) ∧
      (step f m (.isr cur)).missed = m.missed + credit (m.driver.files f) ∧
      ticks f (step f m (.isr cur)) = ticks f m + credit (m.driver.files f) := by
  obtain ⟨hdistinct, hreg, -⟩ := hm
  obtain ⟨hfiles, hrtc, -⟩ := rtcIsr_eq m.driver cur
  have hcount : count ((m.driver.rtcIsr cur).files f) = ticks f m + credit (m.driver.files f) := by
    rw [hfiles, files_of_registered hdistinct hreg]
    exact count_tick hcap
  have hstep : step f m (.isr cur) =
      { m with
        driver := m.driver.rtcIsr cur
        credited := m.credited + credit (m.driver.files f)
        missed := m.missed + credit (m.driver.files f) } := by
    obtain ⟨driver, phase, credited, completed, missed⟩ := m
    unfold step
    cases phase with
    | masked c => exact absurd rfl (hopen c)
    | _ => simp only
  rw [hstep]
  -- nothing below looks into the driver any more
  generalize m.driver.rtcIsr cur = driver at hrtc hcount hfiles ⊢
  exact ⟨rfl, hrtc, rfl, rfl, rfl, hcount⟩

/-- The state after the store. -/
theorem step_store {c : BitVec 32} (hphase : m.phase = .masked c) (hc : LoadOk f m c) :
    (step f m .store).phase = .idle ∧ (step f m .store).driver.rtcFiles = m.driver.rtcFiles ∧
      (step f m .store).completed = m.completed + 1 ∧ (step f m .store).credited = m.credited ∧
      ticks f (step f m .store) = c.toNat - 1 := by
  obtain ⟨hpos, hle, -⟩ := hc
  have hint : 1 ≤ c.toInt := by
    rw [toInt_eq_toNat (by omega)]
    omega
  have hsub : (c - 1).toNat = c.toNat - 1 := BitVec.toNat_sub_of_le (by rw [BitVec.le_def]; exact hpos)
  have hstep : step f m .store =
      { m with
        driver := m.driver.setFile f { m.driver.files f with
          inode := setRtcCountField (m.driver.files f).inode (c - 1) }
        phase := .idle
        completed := m.completed + 1 } := by
    unfold step
    simp only [hphase, if_pos hint]
  rw [hstep]
  refine ⟨rfl, rfl, rfl, rfl, ?_⟩
  unfold ticks
  rw [setFile_files_self, count, getRtcCount_setRtcCountField (by omega), hsub]

/-- The ticks that a step loses: those that a store does not know of. -/
def lost (m : Reader) : Step → ℕ
  | .store => match m.phase with
    | .masked _ => m.missed
    | _ => 0
  | _ => 0

theorem nothingMissed_iff (m : Reader) (e : Step) : NothingMissed m e ↔ lost m e = 0 := by
  cases e with
  | store =>
    unfold NothingMissed lost
    cases m.phase with
    | masked c => exact Iff.rfl
    | _ => exact iff_of_true trivial rfl
  | _ => exact iff_of_true trivial rfl

/-- The reader stays in order, and `n` ticks are neither consumed nor counted any more. -/
structure Advances (f : FilePtr) (m m' : Reader) (n : ℕ) : Prop where
  reading : Reading f m'
  balance : (m'.credited : ℤ) - m'.completed - ticks f m' =
    m.credited - m.completed - ticks f m + n

theorem Reading.stays (hm : Reading f m) : Advances f m m 0 :=
  ⟨hm, (Int.add_zero _).symm⟩

theorem advances_call (hm : Reading f m) : Advances f m (step f m .call) 0 := by
  unfold step
  cases hphase : m.phase with
  | idle => exact ⟨⟨hm.1, hm.2.1, trivial⟩, hm.stays.balance⟩
  | _ => exact hm.stays

/-- A count that is loaded is not zero, and fits into its field. -/
theorem advances_load (hm : Reading f m) : Advances f m (step f m .load) 0 := by
  unfold step
  cases hphase : m.phase with
  | waiting =>
    dsimp only
    by_cases hzero : getRtcCount (m.driver.files f).inode = 0
    · rw [if_pos hzero]
      exact hm.stays
    · have hne : (getRtcCount (m.driver.files f).inode).toNat ≠ 0 := fun h0 =>
        hzero (BitVec.eq_of_toNat_eq h0)
      have hlt : (getRtcCount (m.driver.files f).inode).toNat < 2 ^ 10 := by
        rw [getRtcCount_eq]
        exact BitField.toNat_get_lt 10 10 _
      rw [if_neg hzero]
      exact ⟨⟨hm.1, hm.2.1, by omega, by omega, rfl⟩, hm.stays.balance⟩
  | _ => exact hm.stays

theorem advances_cli (hm : Reading f m) : Advances f m (step f m .cli) 0 := by
  unfold step
  cases hphase : m.phase with
  | loaded c =>
    have hload := hm.2.2
    rw [hphase] at hload
    exact ⟨⟨hm.1, hm.2.1, hload⟩, hm.stays.balance⟩
  | _ => exact hm.stays

theorem advances_store (hm : Reading f m) : Advances f m (step f m .store) (lost m .store) := by
  unfold lost
  cases hphase : m.phase with
  | masked c =>
    have hload := hm.2.2
    rw [hphase] at hload
    obtain ⟨hidle, hrtc, hcompleted, hcredited, hticks⟩ := step_store hphase hload
    obtain ⟨hpos, -, hcount⟩ := hload
    refine ⟨⟨by rw [hrtc]; exact hm.1, by unfold Registered; rw [hrtc]; exact hm.2.1, ?_⟩, ?_⟩
    · rw [hidle]
      trivial
    · rw [hcompleted, hcredited, hticks, hcount]
      push_cast [hpos]
      omega
  | _ =>
    have hstep : step f m .store = m := by
      unfold step
      rw [hphase]
    rw [hstep]
    exact hm.stays

/-- An interrupt while the count is loaded: what comes in is missed. -/
theorem advances_isr (hm : Reading f m) (cur : ℕ) (hcap : ticks f m < 32) :
    Advances f m (step f m (.isr cur)) 0 := by
  by_cases hclosed : ∃ c, m.phase = .masked c
  · obtain ⟨c, hphase⟩ := hclosed
    have hstep : step f m (.isr cur) = m := by
      unfold step
      rw [hphase]
    rw [hstep]
    exact hm.stays
  · obtain ⟨hphase, hrtc, hcompleted, hcredited, hmissed, hticks⟩ :=
      step_isr hm cur hcap (not_exists.mp hclosed)
    refine ⟨⟨by rw [hrtc]; exact hm.1, by unfold Registered; rw [hrtc]; exact hm.2.1, ?_⟩, ?_⟩
    · have hload := hm.2.2
      rw [hphase]
      cases hcur : m.phase with
      | loaded c =>
        rw [hcur] at hload
        obtain ⟨hpos, hle, hcount⟩ := hload
        exact ⟨hpos, hle, by rw [hticks, hmissed, hcount]; omega⟩
      | masked c => exact absurd ⟨c, hcur⟩ hclosed
      | _ => trivial
    · rw [hcompleted, hcredited, hticks]
      push_cast
      omega

/-- **One step keeps the reader in order**, and loses exactly the ticks a store does not know of. -/
theorem advances_step (hm : Reading f m) (e : Step) (he : BelowCap f m e) :
    Advances f m (step f m e) (lost m e) := by
  cases e with
  | call => exact advances_call hm
  | load => exact advances_load hm
  | cli => exact advances_cli hm
  | store => exact advances_store hm
  | isr cur => exact advances_isr hm cur he

/-- From a balanced state, a step leads to a balanced state exactly when it misses no tick. -/
theorem balanced_step_iff {s : Driver} (hm : Reading f m) (e : Step) (he : BelowCap f m e)
    (hb : Balanced f s m) : Balanced f s (step f m e) ↔ NothingMissed m e := by
  have hbalance := (advances_step hm e he).balance
  rw [nothingMissed_iff]
  unfold Balanced at *
  omega

end reader

/-- **When no tick is lost.**  Take any state the driver reaches and any clock that is open in it,
and interleave the steps of `rtc_read` with interrupts in any way that keeps the count below the
cap.  The ticks credited are always those consumed plus those still counted, exactly when no store
of the run comes after a tick that the load before it has not seen. -/
theorem always_balanced_iff (files : FilePtr → FILE) (signals : ℕ → BitVec 8) (regA : BitVec 8)
    (calls : List Call) (hcalls : Meets exec Allowed (start files signals regA) calls) (f : FilePtr)
    (hf : Registered (run exec (start files signals regA) calls) f) (steps : List Step)
    (hcap : Meets (step f) (BelowCap f) (atRest (run exec (start files signals regA) calls)) steps) :
    Always (step f) (Balanced f (run exec (start files signals regA) calls))
        (atRest (run exec (start files signals regA) calls)) steps ↔
      Meets (step f) NothingMissed (atRest (run exec (start files signals regA) calls)) steps := by
  have hsound := invariant_of_meets (I := Sound) (fun _ c hs hc => sound_exec hs c hc)
    (sound_start files signals regA) hcalls
  generalize run exec (start files signals regA) calls = s at *
  refine always_iff_meets (I := Reading f) (fun m e hm he => (advances_step hm e he).reading)
    (fun m e hm he hb => balanced_step_iff hm e he hb) ⟨hsound.distinct, hf, trivial⟩ ?_ hcap
  unfold Balanced ticks atRest
  simp

/-- A clock with a tick, an interrupt, and a read that nothing interrupts. -/
theorem always_balanced_iff_one_read :
    let v : FILE := ⟨.file, 0, 0, .reg, false⟩
    let calls : List Call := [.open ⟨1, 2⟩, .isr 1]
    let s := run exec (start (fun _ => v) (fun _ => 0) 0) calls
    let steps : List Step := [.call, .isr 1, .load, .cli, .store]
    Meets (step ⟨1, 2⟩) (BelowCap ⟨1, 2⟩) (atRest s) steps ∧
      (Always (step ⟨1, 2⟩) (Balanced ⟨1, 2⟩ s) (atRest s) steps ↔
        Meets (step ⟨1, 2⟩) NothingMissed (atRest s) steps) := by
  intro v calls s steps
  have hcalls : Meets exec Allowed (start (fun _ => v) (fun _ => 0) 0) calls :=
    ⟨by decide, trivial, trivial⟩
  have hcap : Meets (step ⟨1, 2⟩) (BelowCap ⟨1, 2⟩) (atRest s) steps := by decide +kernel
  have hf : Registered s ⟨1, 2⟩ := by decide
  exact ⟨hcap, always_balanced_iff _ _ _ calls hcalls _ hf steps hcap⟩

/-- The interrupt comes between the load and `cli`.  The clock has credited one tick since the start
and one read was completed, but the count is 0, not 1. -/
theorem tick_lost :
    let v : FILE := ⟨.file, 0, 0, .reg, false⟩
    let calls : List Call := [.open ⟨1, 2⟩, .isr 1]
    let s := run exec (start (fun _ => v) (fun _ => 0) 0) calls
    let steps : List Step := [.call, .load, .isr 1, .cli, .store]
    Meets exec Allowed (start (fun _ => v) (fun _ => 0) 0) calls ∧ Registered s ⟨1, 2⟩ ∧
      Meets (step ⟨1, 2⟩) (BelowCap ⟨1, 2⟩) (atRest s) steps ∧
      ¬ Always (step ⟨1, 2⟩) (Balanced ⟨1, 2⟩ s) (atRest s) steps := by
  intro v calls s steps
  refine ⟨⟨by decide, trivial, trivial⟩, by decide, by decide +kernel, fun h => ?_⟩
  have hcredited : (run (step ⟨1, 2⟩) (atRest s) steps).credited = 1 := by decide +kernel
  have hcompleted : (run (step ⟨1, 2⟩) (atRest s) steps).completed = 1 := by decide +kernel
  have hticks : ticks ⟨1, 2⟩ (run (step ⟨1, 2⟩) (atRest s) steps) = 0 := by decide +kernel
  have hcount : count (s.files ⟨1, 2⟩) = 1 := by decide +kernel
  have hlast := h.last
  unfold Balanced at hlast
  rw [hcredited, hcompleted, hticks, hcount] at hlast
  exact absurd hlast (by decide)

end Rtc
end CoreOS
