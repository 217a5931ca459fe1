import CoreOS.Rtc.Virtual
import Mathlib.Order.Bounds.Defs

/-!
# The rate of the chip and the fastest clock

The driver's comments want the rate of the chip to be the largest of the rates of the open clocks.
The driver raises the rate when a clock asks for more, but it never lowers it again: a write that
lowers a clock only sets up that clock, and the search in `rtc_close` that should find the fastest
clock left never finds any (`rtcClose_eq`).

So the rate of the chip is the largest rate ever asked for.  It equals the largest rate in use as
long as no step takes away the last clock that runs at it, and `always_maximal_iff` says that this
is exactly when.
-/

namespace CoreOS
namespace Rtc

open Runs Driver

/-- The rate of a clock, in Hz. -/
def userFreq (s : Driver) (f : FilePtr) : ℕ := 2 ^ freq (s.files f)

/-- **The rate of the chip is the largest rate in use**, when a clock is registered at all. -/
def Maximal (s : Driver) : Prop :=
  (∃ f, Registered s f) → IsGreatest {r | ∃ f, Registered s f ∧ r = userFreq s f} s.sysFreq

/-- `f` is a registered clock that runs as fast as the chip. -/
def AtMax (s : Driver) (f : FilePtr) : Prop := Registered s f ∧ userFreq s f = s.sysFreq

/-- The steps that do not take away the last clock that runs as fast as the chip. -/
def KeepsMax (s : Driver) : Call → Prop
  | .open _ => (∃ g, Registered s g) ∨ s.sysFreq = 2
  | .write buf length f => ∀ p, askedPow buf length = some p → 2 ^ p < s.sysFreq →
      ∃ g, g ≠ f ∧ AtMax s g
  | .close f => ∀ g, g ≠ f → Registered s g → ∃ g', g' ≠ f ∧ AtMax s g'
  | _ => True

section steps

variable {s : Driver}

/-- No clock is faster than the chip, so only the other half of `Maximal` is in question. -/
theorem maximal_iff (hs : Virtualised s) :
    Maximal s ↔ ((∃ f, Registered s f) → ∃ f, AtMax s f) := by
  constructor
  · intro h hreg
    obtain ⟨f, hf, hmax⟩ := (h hreg).1
    exact ⟨f, hf, hmax.symm⟩
  · intro h hreg
    obtain ⟨f, hf, hmax⟩ := h hreg
    refine ⟨⟨f, hf, hmax.symm⟩, ?_⟩
    rintro r ⟨g, hg, rfl⟩
    rw [hs.freq_eq]
    exact Nat.pow_le_pow_right (by omega) (hs.clock g hg).freq_le

/-- A step that changes no rate keeps the maximum. -/
theorem maximal_of_same {s' : Driver} (hP : Maximal s) (hs : Virtualised s) (hs' : Virtualised s')
    (hreg : s'.rtcFiles = s.rtcFiles) (hsys : s'.sysFreq = s.sysFreq)
    (hfreq : ∀ f, Registered s f → freq (s'.files f) = freq (s.files f)) : Maximal s' := by
  have hiff : ∀ f, Registered s' f ↔ Registered s f := fun f => by
    rw [Registered, hreg, Registered]
  rw [maximal_iff hs] at hP
  rw [maximal_iff hs']
  rintro ⟨f, hf⟩
  obtain ⟨g, hg, hmax⟩ := hP ⟨f, (hiff f).mp hf⟩
  refine ⟨g, (hiff g).mpr hg, ?_⟩
  rw [userFreq, hfreq g hg, hsys]
  exact hmax

theorem maximal_open_iff (hs : Sound s) (hP : Maximal s) {f : FilePtr}
    (hc : Allowed s (.open f)) : Maximal (exec s (.open f)) ↔ KeepsMax s (.open f) := by
  obtain ⟨hf, i₀, hi₀⟩ := hc
  rw [exec, rtcOpen_eq]
  cases hfind : (List.finRange maxProcNum).find? fun i => (s.rtcFiles i).isNone with
  | none =>
    rw [List.find?_eq_none] at hfind
    exact absurd (hfind i₀ (List.mem_finRange i₀)) (by simp [hi₀])
  | some i =>
    have hfree : s.rtcFiles i = none := by simpa using List.find?_some hfind
    have hs' := sound_opened hs hf hfree
    have hself : userFreq (opened s f i) f = 2 := by
      rw [userFreq, opened_files_self]
      show 2 ^ freq (resetFile s.sysFreqPow 1 (s.files f)) = 2
      rw [freq_resetFile (by decide)]
      rfl
    have hother : ∀ {g}, g ≠ f → userFreq (opened s f i) g = userFreq s g := fun hg => by
      rw [userFreq, opened_files_of_ne _ hg, userFreq]
    show Maximal (opened s f i) ↔ _
    rw [maximal_iff hs'.toVirtualised]
    constructor
    · intro h
      obtain ⟨g, hg, hmax⟩ := h ⟨f, (registered_opened hfree).mpr (Or.inl rfl)⟩
      rcases (registered_opened hfree).mp hg with rfl | hg
      · rw [hself] at hmax
        exact Or.inr hmax.symm
      · exact Or.inl ⟨g, hg⟩
    · rintro (hreg | htwo) -
      · obtain ⟨g, hg, hmax⟩ := (maximal_iff hs.toVirtualised).mp hP hreg
        have hne : g ≠ f := fun hgf => hf (hgf ▸ hg)
        exact ⟨g, (registered_opened hfree).mpr (Or.inr hg), (hother hne).trans hmax⟩
      · exact ⟨f, (registered_opened hfree).mpr (Or.inl rfl), hself.trans htwo.symm⟩

theorem maximal_write_iff (hs : Sound s) (hP : Maximal s) {buf : Option (BitVec 32)}
    {length : BitVec 32} {f : FilePtr} (hc : Registered s f) :
    Maximal (exec s (.write buf length f)) ↔ KeepsMax s (.write buf length f) := by
  have hs' := sound_rtcWrite hs buf length f
  rw [exec, KeepsMax]
  rw [rtcWrite_eq] at hs' ⊢
  cases hp : askedPow buf length with
  | none => exact iff_of_true hP (fun p h => absurd h (by simp))
  | some p =>
    rw [hp] at hs'
    obtain ⟨h₁, h₂⟩ := askedPow_bounds hp
    simp only at hs' ⊢
    by_cases hlt : s.sysFreq < 2 ^ p
    · -- the chip is raised to the rate of `f`
      rw [if_pos hlt] at hs' ⊢
      refine iff_of_true ?_ ?_
      · obtain ⟨hreg, -, hsys, -⟩ := raised_eq s f p
        rw [maximal_iff hs'.toVirtualised]
        refine fun _ => ⟨f, ?_, ?_⟩
        · rw [Registered, hreg]
          exact hc
        · rw [userFreq, raised_files hs.distinct hc, if_pos rfl, freq_renew, freq_withFreq h₂, hsys]
      · intro q hq hq'
        obtain rfl : p = q := Option.some.inj hq
        omega
    · rw [if_neg hlt] at hs' ⊢
      rw [resetRtcInfo_eq] at hs' ⊢
      have hself : userFreq (s.setFile f (resetFile s.sysFreqPow (BitVec.ofNat 32 p) (s.files f))) f =
          2 ^ p := by
        have hval := toNat_ofNat_pow h₂
        rw [userFreq, setFile_files_self, freq_resetFile (by omega), hval]
      have hother : ∀ {g} v, g ≠ f → userFreq (s.setFile f v) g = userFreq s g := fun v hg => by
        rw [userFreq, setFile_files_of_ne _ hg, userFreq]
      rw [maximal_iff hs'.toVirtualised]
      constructor
      · intro h q hq hq'
        obtain rfl : p = q := Option.some.inj hq
        obtain ⟨g, hg, hmax⟩ := h ⟨f, hc⟩
        have hne : g ≠ f := by
          rintro rfl
          rw [hself] at hmax
          exact absurd hmax (Nat.ne_of_lt hq')
        exact ⟨g, hne, hg, by rw [← hother _ hne]; exact hmax⟩
      · intro h _
        rcases Nat.eq_or_lt_of_le (Nat.not_lt.mp hlt) with heq | hlt'
        · exact ⟨f, hc, hself.trans heq⟩
        · obtain ⟨g, hne, hg, hmax⟩ := h p rfl hlt'
          exact ⟨g, hg, (hother _ hne).trans hmax⟩

theorem maximal_close_iff (hs : Sound s) {f : FilePtr} :
    Maximal (exec s (.close f)) ↔ KeepsMax s (.close f) := by
  have hs' := sound_rtcClose hs f
  rw [rtcClose_eq] at hs'
  have hreg : ∀ g, Registered (closed s f) g ↔ g ≠ f ∧ Registered s g := by
    intro g
    constructor
    · rintro ⟨i, hi⟩
      exact ⟨(closed_rtcFiles.mp hi).2, i, (closed_rtcFiles.mp hi).1⟩
    · rintro ⟨hne, i, hi⟩
      exact ⟨i, closed_rtcFiles.mpr ⟨hi, hne⟩⟩
  rw [exec, rtcClose_eq, maximal_iff hs'.toVirtualised]
  constructor
  · intro h g hne hg
    obtain ⟨g', hg', hmax⟩ := h ⟨g, (hreg g).mpr ⟨hne, hg⟩⟩
    obtain ⟨hne', hg'⟩ := (hreg g').mp hg'
    exact ⟨g', hne', hg', hmax⟩
  · rintro h ⟨g, hg⟩
    obtain ⟨hne, hg⟩ := (hreg g).mp hg
    obtain ⟨g', hne', hg', hmax⟩ := h g hne hg
    exact ⟨g', (hreg g').mpr ⟨hne', hg'⟩, hmax⟩

/-- **One call**, from a state where the chip runs at the largest rate in use. -/
theorem maximal_exec_iff (hs : Sound s) (hP : Maximal s) (c : Call) (hc : Allowed s c) :
    Maximal (exec s c) ↔ KeepsMax s c := by
  have hs' := sound_exec hs c hc
  cases c with
  | «open» f => exact maximal_open_iff hs hP hc
  | write buf length f => exact maximal_write_iff hs hP hc
  | close f => exact maximal_close_iff hs
  | read f =>
    refine iff_of_true ?_ trivial
    rw [exec_read] at hs' ⊢
    by_cases hcount : count (s.files f) = 0
    · rw [if_pos hcount]
      exact hP
    · rw [if_neg hcount] at hs' ⊢
      refine maximal_of_same hP hs.toVirtualised hs'.toVirtualised rfl rfl fun g _ => ?_
      by_cases hgf : g = f
      · subst hgf
        rw [setFile_files_self]
        exact (consume_spec hcount).1
      · rw [setFile_files_of_ne _ hgf]
  | isr cur =>
    obtain ⟨hfiles, hreg, -, hsys, -⟩ := rtcIsr_eq s cur
    unfold exec at hs' ⊢
    refine iff_of_true (maximal_of_same hP hs.toVirtualised hs'.toVirtualised hreg hsys ?_) trivial
    intro f hf
    rw [hfiles, files_of_registered hs.distinct hf]
    exact (tick_spec (hs.clock f hf) hs.pow_le).1

end steps

/-- **When the chip runs at the largest rate in use.**  Along any history of the driver, this holds
in every state exactly when no step takes away the last clock that runs as fast as the chip. -/
theorem always_maximal_iff (files : FilePtr → FILE) (signals : ℕ → BitVec 8) (regA : BitVec 8)
    (calls : List Call) (h : Meets exec Allowed (start files signals regA) calls) :
    Always exec Maximal (start files signals regA) calls ↔
      Meets exec KeepsMax (start files signals regA) calls := by
  refine always_iff_meets (I := Sound) (fun _ c hs hc => sound_exec hs c hc)
    (fun _ c hs hc hP => maximal_exec_iff hs hP c hc) (sound_start files signals regA) ?_ h
  rintro ⟨f, i, hi⟩
  simp [start, boot, initRtc] at hi

/-- One clock, raised to 4 Hz. -/
theorem always_maximal_iff_one_clock :
    let v : FILE := ⟨.file, 0, 0, .reg, false⟩
    let s := start (fun _ => v) (fun _ => 0) 0
    let calls : List Call := [.open ⟨1, 2⟩, .write (some 4) 4 ⟨1, 2⟩]
    Meets exec Allowed s calls ∧ (Always exec Maximal s calls ↔ Meets exec KeepsMax s calls) := by
  intro v s calls
  have h : Meets exec Allowed s calls := ⟨by decide, by decide, trivial⟩
  exact ⟨h, always_maximal_iff _ _ _ _ h⟩

/-- One clock is raised to 4 Hz and lowered to 2 Hz again.  The chip stays at 4 Hz. -/
theorem not_always_maximal :
    let v : FILE := ⟨.file, 0, 0, .reg, false⟩
    let s := start (fun _ => v) (fun _ => 0) 0
    let calls : List Call := [.open ⟨1, 2⟩, .write (some 4) 4 ⟨1, 2⟩, .write (some 2) 4 ⟨1, 2⟩]
    Meets exec Allowed s calls ∧ ¬ Always exec Maximal s calls := by
  intro v s calls
  refine ⟨⟨by decide, by decide, by decide, trivial⟩, fun h => ?_⟩
  have hreg : Registered (run exec s calls) ⟨1, 2⟩ := by decide
  obtain ⟨f, ⟨i, hi⟩, hmax⟩ := (h.last ⟨_, hreg⟩).1
  have hslow : ∀ i, ∀ f ∈ (run exec s calls).rtcFiles i, userFreq (run exec s calls) f = 2 := by
    decide
  rw [hslow i f hi] at hmax
  exact absurd hmax (by decide)

end Rtc
end CoreOS
