import CoreOS.Rtc.HardwareRate

/-!
# What a call on one clock does to the ticks of another

Each process is meant to have a clock of its own.  A call on one `FILE` changes that `FILE` only,
with one exception: a write that raises the rate of the chip has to give every registered clock a
new ratio.  It does so with `reset_rtc_info`, which also sets the count of ticks that have been
credited and not consumed to zero, for every registered clock.

So the ticks of a clock survive a call on another clock exactly when that call does not raise the
rate of the chip, or when there is nothing to lose.
-/

namespace CoreOS
namespace Rtc

open Runs Registry Driver

/-- The `FILE` a call opens, writes or closes. -/
def Call.target : Call → Option FilePtr
  | .open f | .write _ _ f | .close f => some f
  | .read _ | .isr _ => none

/-- A write that raises the rate of the chip. -/
def Raises (s : Driver) : Call → Prop
  | .write buf length _ => ∃ p, raisedTo s buf length = some p
  | _ => False

section calls

variable {s : Driver} {a b : FilePtr}

/-- **Raising the rate of the chip drops the ticks of every registered clock.** -/
theorem count_raised (hb : Registered s b) (a : FilePtr) (p : ℕ) :
    count ((raised s a p).files b) = 0 := by
  obtain ⟨i, hi⟩ := hb
  rw [raised, foldl_updateRtc]
  exact foldl_visit_prop (Q := fun v => count v = 0) (fun _ => count_resetFile)
    (List.mem_finRange i) hi _

theorem files_exec_open (hne : b ≠ a) : (exec s (.open a)).files b = s.files b := by
  rw [exec, rtcOpen_eq]
  cases (List.finRange maxProcNum).find? fun i => (s.rtcFiles i).isNone with
  | none => rfl
  | some i => exact opened_files_of_ne s hne i

/-- A write that does not raise the rate changes its own clock only. -/
theorem files_exec_write (hne : b ≠ a) {buf : Option (BitVec 32)} {length : BitVec 32}
    (hlow : raisedTo s buf length = none) : (exec s (.write buf length a)).files b = s.files b := by
  rw [exec, rtcWrite_eq]
  cases hp : askedPow buf length with
  | none => rfl
  | some p =>
    have hlt : ¬ s.sysFreq < 2 ^ p := fun h => by
      rw [raisedTo_eq_some.mpr ⟨hp, h⟩] at hlow
      exact absurd hlow (by simp)
    simp only
    rw [if_neg hlt, resetRtcInfo_eq]
    exact setFile_files_of_ne s hne _

theorem files_exec_raise {buf : Option (BitVec 32)} {length : BitVec 32} {p : ℕ}
    (hp : raisedTo s buf length = some p) : exec s (.write buf length a) = raised s a p := by
  obtain ⟨hask, hlt⟩ := raisedTo_eq_some.mp hp
  rw [exec, rtcWrite_eq, hask]
  simp only
  rw [if_pos hlt]

/-- **One call on another clock.**  The ticks of `b` are what they were, or the call raised the rate
of the chip and they are gone. -/
theorem count_exec (hb : Registered s b) (hne : b ≠ a) {c : Call} (hc : c.target = some a) :
    (¬ Raises s c ∧ count ((exec s c).files b) = count (s.files b)) ∨
      (Raises s c ∧ count ((exec s c).files b) = 0) := by
  cases c with
  | «open» f =>
    obtain rfl : f = a := Option.some.inj hc
    exact Or.inl ⟨id, by rw [files_exec_open hne]⟩
  | write buf length f =>
    obtain rfl : f = a := Option.some.inj hc
    cases hp : raisedTo s buf length with
    | none =>
      refine Or.inl ⟨?_, by rw [files_exec_write hne hp]⟩
      rintro ⟨p, h⟩
      rw [hp] at h
      exact absurd h (by simp)
    | some p =>
      refine Or.inr ⟨⟨p, hp⟩, ?_⟩
      rw [files_exec_raise hp]
      exact count_raised hb f p
  | close f => exact Or.inl ⟨id, by rw [exec, rtcClose_eq]; rfl⟩
  | read f => exact absurd hc (by simp [Call.target])
  | isr cur => exact absurd hc (by simp [Call.target])

end calls

/-- **Whose ticks survive.**  In every state of the driver, those its runs reach and all others, an
`rtc_open`, `rtc_write` or `rtc_close` of `a` leaves the ticks of another registered clock `b` alone
exactly when it does not raise the rate of the chip, or `b` has no ticks waiting. -/
theorem count_kept_iff (s : Driver) (a b : FilePtr) (hb : Registered s b) (hne : b ≠ a) (c : Call)
    (hc : c.target = some a) :
    count ((exec s c).files b) = count (s.files b) ↔ ¬ Raises s c ∨ count (s.files b) = 0 := by
  rcases count_exec hb hne hc with ⟨hlow, hsame⟩ | ⟨hraise, hzero⟩
  · exact iff_of_true hsame (Or.inl hlow)
  · rw [hzero]
    constructor
    · exact fun h => Or.inr h.symm
    · rintro (h | h)
      · exact absurd hraise h
      · exact h.symm

/-- A clock with one tick, and another one closed. -/
theorem count_kept_iff_close :
    let v : FILE := ⟨.file, 0, 0, .reg, false⟩
    let s := run exec (start (fun _ => v) (fun _ => 0) 0) [.open ⟨1, 2⟩, .open ⟨2, 2⟩, .isr 1]
    Registered s ⟨2, 2⟩ ∧ count (s.files ⟨2, 2⟩) = 1 ∧
      (count ((exec s (.close ⟨1, 2⟩)).files ⟨2, 2⟩) = count (s.files ⟨2, 2⟩) ↔
        ¬ Raises s (.close ⟨1, 2⟩) ∨ count (s.files ⟨2, 2⟩) = 0) := by
  intro v s
  have hb : Registered s ⟨2, 2⟩ := by decide
  exact ⟨hb, by decide, count_kept_iff s ⟨1, 2⟩ ⟨2, 2⟩ hb (by decide) (.close ⟨1, 2⟩) rfl⟩

/-- Two clocks, and a tick for each of them.  The first one is set to 8 Hz, and the tick of the
second one is gone. -/
theorem count_lost :
    let v : FILE := ⟨.file, 0, 0, .reg, false⟩
    let calls : List Call := [.open ⟨1, 2⟩, .open ⟨2, 2⟩, .isr 1]
    let s := run exec (start (fun _ => v) (fun _ => 0) 0) calls
    Meets exec Allowed (start (fun _ => v) (fun _ => 0) 0) calls ∧ Registered s ⟨2, 2⟩ ∧
      count (s.files ⟨2, 2⟩) = 1 ∧
      count ((exec s (.write (some 8) 4 ⟨1, 2⟩)).files ⟨2, 2⟩) = 0 := by
  intro v calls s
  exact ⟨⟨by decide, by decide, trivial, trivial⟩, by decide, by decide, by decide⟩

end Rtc
end CoreOS
