import CoreOS.Lib.Runs
import CoreOS.Pic.Driver

/-!
# Which lines are enabled

What the callers of `enable_irq` and `disable_irq` rely on: a line is enabled when the last call for
it says so, and the cascade is open while a line of the slave is enabled.

The cascade is line 2.  `enable_irq` takes `ICW3_SLAVE`, the number 2, for its mask, and that is line
1, the keyboard: enabling a line of the slave enables the keyboard and leaves the cascade alone.
`good_always_iff` is the exact statement.  The kernel gets away with it because the keyboard has been
enabled before the clock, and `init_rtc` enables line 2 by hand.
-/

namespace CoreOS
namespace Pic

open Runs

/-- A call of the interface. -/
inductive Call where
  | enable (irqNum : ℕ)
  | disable (irqNum : ℕ)
  deriving DecidableEq

/-- The line a call is about. -/
def Call.line : Call → ℕ
  | .enable n | .disable n => n

/-- The controllers, and for every line whether the last call for it was `enable_irq`. -/
structure Machine where
  pic : Controllers
  wanted : ℕ → Bool

/-- The machine after `i8259_init`. -/
def Machine.init : Machine := ⟨i8259Init, fun _ => false⟩

/-- The machine after a call. -/
def step (s : Machine) : Call → Machine
  | .enable n => ⟨s.pic.enableIrq n, Function.update s.wanted n true⟩
  | .disable n => ⟨s.pic.disableIrq n, Function.update s.wanted n false⟩

/-- **The masks are in order.** -/
structure Good (s : Machine) : Prop where
  lines : ∀ m < 16, m ≠ 2 → (s.pic.maskBit m = false ↔ s.wanted m = true)
  cascade : (∃ m < 16, 8 ≤ m ∧ s.pic.maskBit m = false) → s.pic.maskBit 2 = false
  written : s.pic.masterData = s.pic.masterMask ∧ s.pic.slaveData = s.pic.slaveMask

/-- The call changes the mask of no other line, except the cascade. -/
def LeavesOthers (s : Machine) (c : Call) : Prop :=
  ∀ m < 16, m ≠ c.line → m ≠ 2 → (step s c).pic.maskBit m = s.pic.maskBit m

/-- The calls that do what they should: a line of the slave is enabled only while lines 1 and 2 are,
and line 2 is disabled only while no line of the slave is enabled. -/
def Harmless (s : Machine) : Call → Prop
  | .enable n => 8 ≤ n → s.pic.maskBit 1 = false ∧ s.pic.maskBit 2 = false
  | .disable n => n = 2 → ∀ m < 16, 8 ≤ m → s.pic.maskBit m = true

section call

variable {s : Machine} {n : ℕ}

theorem written_enableIrq {s : Controllers}
    (h : s.masterData = s.masterMask ∧ s.slaveData = s.slaveMask) (n : ℕ) :
    (s.enableIrq n).masterData = (s.enableIrq n).masterMask ∧
      (s.enableIrq n).slaveData = (s.enableIrq n).slaveMask := by
  unfold Controllers.enableIrq
  split
  · exact h
  · split
    · exact ⟨rfl, h.2⟩
    · exact ⟨rfl, rfl⟩

theorem written_disableIrq {s : Controllers}
    (h : s.masterData = s.masterMask ∧ s.slaveData = s.slaveMask) (n : ℕ) :
    (s.disableIrq n).masterData = (s.disableIrq n).masterMask ∧
      (s.disableIrq n).slaveData = (s.disableIrq n).slaveMask := by
  unfold Controllers.disableIrq
  split
  · exact h
  · split
    · exact ⟨rfl, h.2⟩
    · exact ⟨rfl, rfl⟩

/-- **Enabling a line**, from masks that are in order. -/
theorem good_enable_iff (hs : Good s) (hn : n ≤ 15) :
    Good (step s (.enable n)) ↔ Harmless s (.enable n) := by
  have hbit : ∀ m < 16, (step s (.enable n)).pic.maskBit m = _ := fun m hm =>
    maskBit_enableIrq s.pic hn hm
  constructor
  · intro h hslave
    have hone : (step s (.enable n)).pic.maskBit 1 = false := by
      rw [hbit 1 (by omega), if_pos (Or.inr ⟨hslave, rfl⟩)]
    have htwo : (step s (.enable n)).pic.maskBit 2 = false := by
      refine h.cascade ⟨n, by omega, hslave, ?_⟩
      rw [hbit n (by omega), if_pos (Or.inl rfl)]
    constructor
    · -- line 1 is enabled now, so its last call was `enable_irq`
      have hwanted := (h.lines 1 (by omega) (by omega)).mp hone
      rw [show (step s (.enable n)).wanted = Function.update s.wanted n true from rfl,
        Function.update_of_ne (by omega)] at hwanted
      exact (hs.lines 1 (by omega) (by omega)).mpr hwanted
    · rw [hbit 2 (by omega), if_neg (by omega)] at htwo
      exact htwo
  · intro hharm
    refine ⟨fun m hm hm2 => ?_, fun hslave => ?_, written_enableIrq hs.written n⟩
    · rw [hbit m hm]
      show _ ↔ Function.update s.wanted n true m = true
      by_cases hmn : m = n
      · rw [if_pos (Or.inl hmn), hmn, Function.update_self]
        exact iff_of_true rfl rfl
      · rw [Function.update_of_ne hmn, ← hs.lines m hm hm2]
        by_cases hone : 8 ≤ n ∧ m = 1
        · rw [if_pos (Or.inr hone), hone.2]
          exact iff_of_true rfl (hharm hone.1).1
        · rw [if_neg (not_or.mpr ⟨hmn, hone⟩)]
    · rw [hbit 2 (by omega)]
      by_cases htwo : 2 = n
      · rw [if_pos (Or.inl htwo)]
      · rw [if_neg (by omega)]
        by_cases hslave8 : 8 ≤ n
        · exact (hharm hslave8).2
        · obtain ⟨m, hm, hm8, hclear⟩ := hslave
          rw [hbit m hm, if_neg (by omega)] at hclear
          exact hs.cascade ⟨m, hm, hm8, hclear⟩

/-- **Disabling a line**, from masks that are in order. -/
theorem good_disable_iff (hs : Good s) (hn : n ≤ 15) :
    Good (step s (.disable n)) ↔ Harmless s (.disable n) := by
  have hbit : ∀ m < 16, (step s (.disable n)).pic.maskBit m = _ := fun m hm =>
    maskBit_disableIrq s.pic hn hm
  constructor
  · rintro h rfl m hm hm8
    by_contra hclear
    rw [Bool.not_eq_true] at hclear
    have htwo := h.cascade ⟨m, hm, hm8, by rw [hbit m hm, if_neg (by omega)]; exact hclear⟩
    rw [hbit 2 (by omega), if_pos rfl] at htwo
    exact Bool.noConfusion htwo
  · intro hharm
    refine ⟨fun m hm hm2 => ?_, fun hslave => ?_, written_disableIrq hs.written n⟩
    · rw [hbit m hm]
      show _ ↔ Function.update s.wanted n false m = true
      by_cases hmn : m = n
      · rw [if_pos hmn, hmn, Function.update_self]
        exact iff_of_false Bool.noConfusion Bool.noConfusion
      · rw [Function.update_of_ne hmn, if_neg hmn]
        exact hs.lines m hm hm2
    · obtain ⟨m, hm, hm8, hclear⟩ := hslave
      have hmn : m ≠ n := by
        rintro rfl
        rw [hbit m hm, if_pos rfl] at hclear
        exact Bool.noConfusion hclear
      rw [hbit m hm, if_neg hmn] at hclear
      rw [hbit 2 (by omega), if_neg]
      · exact hs.cascade ⟨m, hm, hm8, hclear⟩
      · intro htwo
        rw [hharm htwo.symm m hm hm8] at hclear
        exact Bool.noConfusion hclear

/-- **One call**, from masks that are in order. -/
theorem good_step_iff (hs : Good s) {c : Call} (hc : c.line ≤ 15) :
    Good (step s c) ↔ Harmless s c := by
  cases c with
  | enable n => exact good_enable_iff hs hc
  | disable n => exact good_disable_iff hs hc

/-- A call that does what it should changes no other line. -/
theorem leavesOthers_of_harmless {c : Call} (hc : c.line ≤ 15) (hharm : Harmless s c) :
    LeavesOthers s c := by
  intro m hm hline _
  cases c with
  | enable n =>
    have hn : n ≤ 15 := hc
    have hline : m ≠ n := hline
    refine (maskBit_enableIrq s.pic hn hm).trans ?_
    by_cases hone : 8 ≤ n ∧ m = 1
    · rw [if_pos (Or.inr hone), hone.2, (hharm hone.1).1]
    · rw [if_neg (not_or.mpr ⟨hline, hone⟩)]
  | disable n =>
    have hn : n ≤ 15 := hc
    have hline : m ≠ n := hline
    refine (maskBit_disableIrq s.pic hn hm).trans ?_
    rw [if_neg hline]

end call

theorem good_init : Good Machine.init where
  lines := by decide
  cascade := by decide
  written := ⟨rfl, rfl⟩

/-- **When the masks are in order.**  After `i8259_init` and any calls for lines 0 to 15: the masks
are in order after every call, and no call changes the mask of another line, exactly when every
call is harmless in the state it finds. -/
theorem good_always_iff (cs : List Call) (hcs : ∀ c ∈ cs, c.line ≤ 15) :
    (Always step Good Machine.init cs ∧ Meets step LeavesOthers Machine.init cs) ↔
      Meets step Harmless Machine.init cs := by
  have hline : Meets step (fun _ c => c.line ≤ 15) Machine.init cs :=
    meets_of_forall (fun c hc _ => hcs c hc) _
  have hiff : Always step Good Machine.init cs ↔ Meets step Harmless Machine.init cs :=
    always_iff_meets (I := fun _ => True) (fun _ _ _ _ => trivial)
      (fun s c _ hc hs => good_step_iff hs hc) trivial good_init hline
  refine ⟨fun h => hiff.mp h.1, fun h => ⟨hiff.mpr h, ?_⟩⟩
  exact (hline.and h).imp (I := fun _ => True) (fun _ _ _ _ => trivial)
    (fun s c _ hc => leavesOthers_of_harmless hc.1 hc.2) trivial

/-- The calls of the kernel: the timer, the keyboard and the clock. -/
theorem good_always_iff_boot :
    let cs : List Call := [.enable 0, .enable 1, .enable 8, .enable 2]
    (∀ c ∈ cs, c.line ≤ 15) ∧
      ((Always step Good Machine.init cs ∧ Meets step LeavesOthers Machine.init cs) ↔
        Meets step Harmless Machine.init cs) := by
  intro cs
  have hcs : ∀ c ∈ cs, c.line ≤ 15 := by decide
  exact ⟨hcs, good_always_iff cs hcs⟩

/-- The clock, enabled first: the keyboard is enabled and the cascade is not. -/
theorem slave_enables_keyboard :
    let s := step Machine.init (.enable 8)
    s.pic.maskBit 8 = false ∧ s.pic.maskBit 1 = false ∧ s.wanted 1 = false ∧
      s.pic.maskBit 2 = true ∧ ¬ Always step Good Machine.init [.enable 8] := by
  intro s
  have hone : s.pic.maskBit 1 = false := by decide
  have hnot : s.wanted 1 = false := by decide
  refine ⟨by decide, hone, hnot, by decide, fun h => ?_⟩
  have hwanted := (h.last.lines 1 (by omega) (by omega)).mp hone
  exact Bool.noConfusion (hnot.symm.trans hwanted)

end Pic
end CoreOS
