import CoreOS.Rtc.PendingTicks

/-!
# How many ticks a clock gets

A clock counts the interrupts down from `2 ^ ratio` and gets a tick when it arrives at zero.  In a run
that leaves its rate and the rate of the chip alone, this is an exact division: `n` interrupts, from
a countdown that stands at `p`, bring `(n + 2 ^ ratio - p) / 2 ^ ratio` ticks.

The ticks wait in a counter that stops at 32, and each read that returns takes one away.  Other
clocks may be opened, written, read and closed in between.
-/

namespace CoreOS
namespace Rtc

open Runs Registry Driver

/-- `f` is in exactly one entry of `rtc_files`. -/
def RegisteredOnce (s : Driver) (f : FilePtr) : Prop := ∃! i, s.rtcFiles i = some f

/-- A call that changes neither the rate of clock `f` nor the rate of the chip, and leaves `f`
registered. -/
def Undisturbed (f : FilePtr) (s : Driver) : Call → Prop
  | .open g | .close g => g ≠ f
  | .write buf length g => raisedTo s buf length = none ∧ (g = f → askedPow buf length = none)
  | .read _ | .isr _ => True

instance (f : FilePtr) (s : Driver) : (c : Call) → Decidable (Undisturbed f s c)
  | .open g | .close g => inferInstanceAs (Decidable (g ≠ f))
  | .write buf length g => inferInstanceAs
    (Decidable (raisedTo s buf length = none ∧ (g = f → askedPow buf length = none)))
  | .read _ | .isr _ => inferInstanceAs (Decidable True)

/-- An interrupt. -/
def IsIsr (_ : Driver) : Call → Prop
  | .isr _ => True
  | _ => False

instance (s : Driver) : (c : Call) → Decidable (IsIsr s c)
  | .isr _ => inferInstanceAs (Decidable True)
  | .open _ | .close _ | .write .. | .read _ => inferInstanceAs (Decidable False)

/-- An interrupt that takes the countdown of clock `f` to zero, so that `rtc_isr` reloads it and
counts a tick. -/
def Credits (f : FilePtr) (s : Driver) (c : Call) : Prop :=
  IsIsr s c ∧ ((s.files f).pos - 1).toInt ≤ 0

instance (f : FilePtr) (s : Driver) (c : Call) : Decidable (Credits f s c) :=
  inferInstanceAs (Decidable (_ ∧ _))

/-- An `rtc_read` of clock `f` that returns. -/
def Consumes (f : FilePtr) (s : Driver) (c : Call) : Prop :=
  c = .read f ∧ (s.rtcRead f).isSome

instance (f : FilePtr) (s : Driver) (c : Call) : Decidable (Consumes f s c) :=
  inferInstanceAs (Decidable (_ ∧ _))

/-! ## One call -/

section calls

variable {s : Driver} {f : FilePtr}

theorem consumes_iff {c : Call} : Consumes f s c ↔ c = .read f ∧ count (s.files f) ≠ 0 := by
  unfold Consumes rtcRead
  rw [Ne, ← getRtcCount_eq_zero_iff]
  by_cases hc : getRtcCount (s.files f).inode = 0 <;> simp [hc]

/-- What an undisturbing call does to the clock. -/
def clockAfter (f : FilePtr) (c : Call) (v : FILE) : FILE :=
  match c with
  | .isr _ => tick v
  | .read g => if g = f ∧ count v ≠ 0 then consume v else v
  | .open _ | .write .. | .close _ => v

theorem files_rtcIsr (hf : RegisteredOnce s f) (cur : ℕ) :
    (s.rtcIsr cur).files f = tick (s.files f) := by
  obtain ⟨i, hi, hun⟩ := hf
  rw [(rtcIsr_eq s cur).1]
  exact foldl_visit_of_unique (List.nodup_finRange _) (List.mem_finRange i) hi hun _

theorem files_exec_read (g : FilePtr) :
    (exec s (.read g)).files f = clockAfter f (.read g) (s.files f) := by
  rw [exec_read, clockAfter]
  by_cases hg : g = f
  · subst hg
    by_cases hc : count (s.files g) = 0
    · rw [if_pos hc, if_neg (not_and_not_right.mpr fun _ => hc)]
    · rw [if_neg hc, if_pos ⟨rfl, hc⟩, setFile_files_self]
  · rw [if_neg (not_and.mpr fun h => absurd h hg)]
    by_cases hc : count (s.files g) = 0
    · rw [if_pos hc]
    · rw [if_neg hc, setFile_files_of_ne s (Ne.symm hg)]

/-- **One call**, seen from the clock. -/
theorem files_exec_undisturbed (hf : RegisteredOnce s f) {c : Call} (hc : Undisturbed f s c) :
    (exec s c).files f = clockAfter f c (s.files f) := by
  cases c with
  | «open» g =>
    have hne : f ≠ g := Ne.symm hc
    rw [files_exec_open hne, clockAfter]
  | write buf length g =>
    obtain ⟨hlow, hself⟩ := hc
    by_cases hg : g = f
    · rw [exec, rtcWrite_eq, hself hg, clockAfter]
    · rw [files_exec_write (Ne.symm hg) hlow, clockAfter]
  | read g => exact files_exec_read g
  | close g =>
    rw [exec, rtcClose_eq, clockAfter]
    rfl
  | isr cur => rw [exec, files_rtcIsr hf, clockAfter]

theorem rtcFiles_exec_write (buf : Option (BitVec 32)) (length : BitVec 32) (g : FilePtr) :
    (exec s (.write buf length g)).rtcFiles = s.rtcFiles := by
  rw [exec, rtcWrite_eq]
  cases askedPow buf length with
  | none => rfl
  | some p =>
    simp only
    split
    · exact (raised_eq s g p).1
    · rfl

theorem registeredOnce_exec (hf : RegisteredOnce s f) {c : Call} (hc : Undisturbed f s c) :
    RegisteredOnce (exec s c) f := by
  obtain ⟨i, hi, hun⟩ := hf
  cases c with
  | «open» g =>
    rw [exec, rtcOpen_eq]
    cases hj : (List.finRange maxProcNum).find? fun i => (s.rtcFiles i).isNone with
    | none => exact ⟨i, hi, hun⟩
    | some j =>
      have hfree : s.rtcFiles j = none := by simpa using List.find?_some hj
      have hij : i ≠ j := by
        rintro rfl
        rw [hfree] at hi
        exact absurd hi (by simp)
      refine ⟨i, (opened_rtcFiles_of_ne s g hij).trans hi, fun k hk => ?_⟩
      by_cases hkj : k = j
      · subst hkj
        exact absurd (Option.some.inj ((opened_rtcFiles_self s g k).symm.trans hk)) hc
      · exact hun k ((opened_rtcFiles_of_ne s g hkj).symm.trans hk)
  | write buf length g =>
    rw [RegisteredOnce, rtcFiles_exec_write]
    exact ⟨i, hi, hun⟩
  | read g =>
    rw [exec_read]
    split <;> exact ⟨i, hi, hun⟩
  | close g =>
    rw [exec, rtcClose_eq]
    exact ⟨i, closed_rtcFiles.mpr ⟨hi, Ne.symm hc⟩, fun k hk => hun k (closed_rtcFiles.mp hk).1⟩
  | isr cur =>
    rw [RegisteredOnce, show (exec s (.isr cur)).rtcFiles = s.rtcFiles from (rtcIsr_eq s cur).2.1]
    exact ⟨i, hi, hun⟩

theorem registeredOnce_run (hf : RegisteredOnce s f) {calls : List Call}
    (hcalls : Meets exec (Undisturbed f) s calls) : RegisteredOnce (run exec s calls) f :=
  invariant_of_meets (I := fun s => RegisteredOnce s f) (fun _ _ h hc => registeredOnce_exec h hc) hf
    hcalls

end calls

/-! ## The countdown -/

/-- Where a clock stands that stood at `v₀`, after `n` interrupts, `k` of which gave it a tick.  Every
tick reloads `2 ^ ratio`, every interrupt takes one away. -/
structure Counted (v₀ v : FILE) (n k : ℕ) : Prop where
  freq_eq : freq v = freq v₀
  ratio_eq : ratio v = ratio v₀
  pos_pos : 1 ≤ v.pos.toNat
  pos_le : v.pos.toNat ≤ 2 ^ ratio v₀
  balance : v.pos.toNat + n = v₀.pos.toNat + k * 2 ^ ratio v₀

/-- **The ticks so far are an exact quotient.** -/
theorem Counted.ticks_eq {v₀ v : FILE} {n k : ℕ} (h : Counted v₀ v n k) :
    k = (n + 2 ^ ratio v₀ - v₀.pos.toNat) / 2 ^ ratio v₀ := by
  have hpos := h.pos_pos
  have hle := h.pos_le
  have hsum : n + 2 ^ ratio v₀ - v₀.pos.toNat =
      (2 ^ ratio v₀ - v.pos.toNat) + k * 2 ^ ratio v₀ := by
    have := h.balance
    omega
  rw [hsum, Nat.add_mul_div_right _ _ (Nat.two_pow_pos _), Nat.div_eq_of_lt (by omega),
    Nat.zero_add]


section run

variable {v₀ : FILE} {s : Driver} {f : FilePtr} {n k : ℕ}

theorem Counted.start {v : FILE} (hpos : 1 ≤ v.pos.toNat) (hle : v.pos.toNat ≤ 2 ^ ratio v) :
    Counted v v 0 0 :=
  ⟨rfl, rfl, hpos, hle, by omega⟩

/-- The next interrupt brings a tick exactly when the countdown stands at 1. -/
theorem Counted.credits_iff (h : Counted v₀ (s.files f) n k) {c : Call} :
    Credits f s c ↔ IsIsr s c ∧ (s.files f).pos.toNat = 1 := by
  have hsmall : 2 ^ ratio v₀ ≤ 2 ^ 31 :=
    Nat.pow_le_pow_right (by omega) (Nat.le_of_lt_succ (ratio_lt v₀))
  rw [Credits, expires_iff h.pos_pos (Nat.le_trans h.pos_le hsmall)]

/-- A clock that only its count changes. -/
theorem Counted.of_consume (h : Counted v₀ (s.files f) n k) (hc : count (s.files f) ≠ 0) :
    Counted v₀ (consume (s.files f)) n k := by
  obtain ⟨hf, hr, -⟩ := consume_spec hc
  exact ⟨hf.trans h.freq_eq, hr.trans h.ratio_eq, h.pos_pos, h.pos_le, h.balance⟩

/-- **One interrupt.** -/
theorem Counted.tick (h : Counted v₀ (s.files f) n k) (cur : ℕ) :
    Counted v₀ (tick (s.files f)) (n + 1) (k + if Credits f s (.isr cur) then 1 else 0) ∧
      count (Driver.tick (s.files f)) =
        if Credits f s (.isr cur) then min 32 (count (s.files f) + 1) else count (s.files f) := by
  have hpos := h.pos_pos
  have hle := h.pos_le
  have hbal := h.balance
  have hr₀ := h.ratio_eq
  obtain ⟨hf, hr, hcase⟩ := tick_cases hpos (by rw [hr₀]; exact hle)
  rw [hr₀] at hcase
  rcases hcase with ⟨h1, hp, hc⟩ | ⟨h1, hp, hc⟩
  · have hcred : Credits f s (.isr cur) := h.credits_iff.mpr ⟨trivial, h1⟩
    have hone : 1 ≤ 2 ^ ratio v₀ := Nat.one_le_two_pow
    rw [if_pos hcred, if_pos hcred]
    refine ⟨⟨hf.trans h.freq_eq, hr.trans hr₀, by omega, by omega, ?_⟩, hc⟩
    rw [hp, Nat.add_mul, Nat.one_mul]
    omega
  · have hcred : ¬ Credits f s (.isr cur) := fun hcred => by
      have := (h.credits_iff.mp hcred).2
      omega
    rw [if_neg hcred, if_neg hcred, Nat.add_zero k]
    exact ⟨⟨hf.trans h.freq_eq, hr.trans hr₀, by omega, by omega, by omega⟩, hc⟩

/-- **One call** moves the clock on by an interrupt, or takes a tick away, or does nothing to it. -/
theorem Counted.exec (h : Counted v₀ (s.files f) n k) (hf : RegisteredOnce s f) {c : Call}
    (hc : Undisturbed f s c) :
    Counted v₀ ((Rtc.exec s c).files f) (n + if IsIsr s c then 1 else 0)
      (k + if Credits f s c then 1 else 0) := by
  have hother : ∀ {v}, ¬ IsIsr s c → Counted v₀ v n k →
      Counted v₀ v (n + if IsIsr s c then 1 else 0) (k + if Credits f s c then 1 else 0) := by
    intro v hno hv
    rw [if_neg hno, if_neg fun hcred => hno hcred.1]
    exact hv
  rw [files_exec_undisturbed hf hc]
  cases c with
  | isr cur => exact (h.tick cur).1
  | read g =>
    rw [clockAfter]
    refine hother id ?_
    split
    · rename_i hread
      exact h.of_consume hread.2
    · exact h
  | «open» g => exact hother id h
  | write buf length g => exact hother id h
  | close g => exact hother id h

/-- **A run of calls.** -/
theorem Counted.run (h : Counted v₀ (s.files f) n k) (hf : RegisteredOnce s f) {calls : List Call}
    (hcalls : Meets Rtc.exec (Undisturbed f) s calls) :
    Counted v₀ ((Runs.run Rtc.exec s calls).files f) (n + occurrences Rtc.exec IsIsr s calls)
      (k + occurrences Rtc.exec (Credits f) s calls) := by
  induction calls generalizing s n k with
  | nil => exact h
  | cons c calls ih =>
    have hnext := ih (h.exec hf hcalls.1) (registeredOnce_exec hf hcalls.1) hcalls.2
    rw [Nat.add_assoc, Nat.add_assoc] at hnext
    exact hnext

/-! ## The ticks that wait -/

/-- What one call does to the ticks that wait. -/
theorem Counted.count_exec (h : Counted v₀ (s.files f) n k) (hf : RegisteredOnce s f) {c : Call}
    (hc : Undisturbed f s c) :
    count ((Rtc.exec s c).files f) + (if Consumes f s c then 1 else 0) =
      if Credits f s c then min 32 (count (s.files f) + 1) else count (s.files f) := by
  have hother : ¬ IsIsr s c → ¬ Consumes f s c → clockAfter f c (s.files f) = s.files f →
      count (clockAfter f c (s.files f)) + (if Consumes f s c then 1 else 0) =
        if Credits f s c then min 32 (count (s.files f) + 1) else count (s.files f) := by
    intro hno hcons hsame
    have hcred : ¬ Credits f s c := fun hcred => hno hcred.1
    rw [if_neg hcred, if_neg hcons, hsame, Nat.add_zero]
  rw [files_exec_undisturbed hf hc]
  cases c with
  | isr cur =>
    have hcons : ¬ Consumes f s (.isr cur) := fun hcons => absurd hcons.1 (by simp)
    rw [if_neg hcons, clockAfter, (h.tick cur).2, Nat.add_zero]
  | read g =>
    by_cases hcons : Consumes f s (.read g)
    · obtain ⟨hg, hcount⟩ := consumes_iff.mp hcons
      have hcred : ¬ Credits f s (.read g) := fun hcred => hcred.1
      rw [if_pos hcons, if_neg hcred, clockAfter, if_pos ⟨Call.read.inj hg, hcount⟩,
        (consume_spec hcount).2.2]
      omega
    · refine hother id hcons (if_neg fun hread => hcons (consumes_iff.mpr ?_))
      exact ⟨congrArg Call.read hread.1, hread.2⟩
  | «open» g => exact hother id (fun hcons => absurd hcons.1 (by simp)) rfl
  | write buf length g => exact hother id (fun hcons => absurd hcons.1 (by simp)) rfl
  | close g => exact hother id (fun hcons => absurd hcons.1 (by simp)) rfl

/-- As long as no more than 32 ticks ever wait, none is dropped. -/
theorem Counted.count_run (h : Counted v₀ (s.files f) n k) (hf : RegisteredOnce s f)
    {calls : List Call} (hcalls : Meets Rtc.exec (Undisturbed f) s calls)
    (hlow : ∀ calls', calls' <+: calls →
      count (s.files f) + occurrences Rtc.exec (Credits f) s calls' ≤
        32 + occurrences Rtc.exec (Consumes f) s calls') :
    count ((Runs.run Rtc.exec s calls).files f) + occurrences Rtc.exec (Consumes f) s calls =
      count (s.files f) + occurrences Rtc.exec (Credits f) s calls := by
  induction calls using List.reverseRecOn with
  | nil => rfl
  | append_singleton calls c ih =>
    obtain ⟨hpre, hc, -⟩ := (meets_append s calls [c]).mp hcalls
    have hsum := ih hpre fun calls' hpre' => hlow calls' (hpre'.trans (List.prefix_append ..))
    have hstep := (h.run hf hpre).count_exec (registeredOnce_run hf hpre) hc
    have hfull := hlow _ (List.prefix_refl _)
    rw [occurrences_append, occurrences_append, occurrences_singleton, occurrences_singleton]
      at hfull ⊢
    rw [run_append, run_cons, run_nil]
    by_cases hcred : Credits f (Runs.run Rtc.exec s calls) c
    · have hcons : ¬ Consumes f (Runs.run Rtc.exec s calls) c := by
        rintro ⟨rfl, -⟩
        exact hcred.1
      rw [if_pos hcred, if_neg hcons] at hstep hfull ⊢
      omega
    · rw [if_neg hcred] at hstep hfull ⊢
      omega

end run

/-- **The ticks of a clock are the interrupts, divided by its ratio.**  In a run that leaves the rate
of clock `f` and the rate of the chip alone, `f` keeps its rate and ratio, the number of ticks it
gets is the number of interrupts, corrected for where the countdown stood, divided by `2 ^ ratio`.
As long as there is room for them, all ticks that were not read are waiting; a tick that finds 32
waiting leaves 32. -/
theorem ticks_eq_div (s : Driver) (f : FilePtr) (hf : RegisteredOnce s f) (p₀ : ℕ)
    (hp₀ : (s.files f).pos.toInt = p₀) (hpos : 1 ≤ p₀) (hle : p₀ ≤ 2 ^ ratio (s.files f))
    (calls : List Call) (hcalls : Meets exec (Undisturbed f) s calls) :
    occurrences exec (Credits f) s calls =
        (occurrences exec IsIsr s calls + 2 ^ ratio (s.files f) - p₀) / 2 ^ ratio (s.files f) ∧
      Always exec (fun t => freq (t.files f) = freq (s.files f) ∧
        ratio (t.files f) = ratio (s.files f)) s calls ∧
      ((∀ calls', calls' <+: calls →
          count (s.files f) + occurrences exec (Credits f) s calls' ≤
            32 + occurrences exec (Consumes f) s calls') →
        count ((run exec s calls).files f) + occurrences exec (Consumes f) s calls =
          count (s.files f) + occurrences exec (Credits f) s calls) ∧
      ∀ calls' c, calls' ++ [c] <+: calls → Credits f (run exec s calls') c →
        32 ≤ count ((run exec s calls').files f) →
        count ((run exec s (calls' ++ [c])).files f) = 32 := by
  have hnat : (s.files f).pos.toNat = p₀ := by
    have hint := toInt_eq_toNat_of_pos (x := (s.files f).pos) (by omega)
    omega
  have hstart : Counted (s.files f) (s.files f) 0 0 := Counted.start (by omega) (by omega)
  have hpart : ∀ calls', calls' <+: calls → Meets exec (Undisturbed f) s calls' := by
    rintro calls' ⟨rest, rfl⟩
    exact ((meets_append s calls' rest).mp hcalls).1
  have hrun : ∀ calls', calls' <+: calls → _ := fun calls' hpre =>
    hstart.run hf (hpart calls' hpre)
  refine ⟨?_, ?_, hstart.count_run hf hcalls, ?_⟩
  · have hticks := (hrun calls (List.prefix_refl _)).ticks_eq
    rw [Nat.zero_add, Nat.zero_add, hnat] at hticks
    exact hticks
  · exact fun calls' hpre => ⟨(hrun calls' hpre).freq_eq, (hrun calls' hpre).ratio_eq⟩
  · intro calls' c hpre hcred hfull
    have hpre' : calls' <+: calls := (List.prefix_append ..).trans hpre
    obtain ⟨-, hc, -⟩ := (meets_append s calls' [c]).mp (hpart _ hpre)
    have hstep := (hrun calls' hpre').count_exec (registeredOnce_run hf (hpart _ hpre')) hc
    have hcons : ¬ Consumes f (run exec s calls') c := by
      rintro ⟨rfl, -⟩
      exact hcred.1
    rw [if_pos hcred, if_neg hcons] at hstep
    rw [run_append, run_cons, run_nil]
    omega

/-- Two clocks.  The chip runs at 4 Hz for the second one, and the first one, at 2 Hz, gets a tick
for every other interrupt: two in five.  The first read has to wait, the second returns. -/
theorem ticks_eq_div_two_clocks :
    let v : FILE := ⟨.file, 0, 0, .reg, false⟩
    let f : FilePtr := ⟨1, 2⟩
    let s := run exec (start (fun _ => v) (fun _ => 0) 0)
      [.open f, .open ⟨2, 2⟩, .write (some 4) 4 ⟨2, 2⟩]
    let calls : List Call := [.isr 1, .read f, .isr 2, .isr 1, .read f, .write (some 4) 4 ⟨2, 2⟩,
      .isr 1, .close ⟨2, 2⟩, .isr 1]
    ratio (s.files f) = 1 ∧ occurrences exec (Consumes f) s calls = 1 ∧
      occurrences exec (Credits f) s calls = (occurrences exec IsIsr s calls + 2 - 2) / 2 := by
  intro v f s calls
  have hf : RegisteredOnce s f := ⟨⟨0, by decide⟩, by decide, by decide⟩
  have h := ticks_eq_div s f hf 2 (by decide) (by decide) (by decide) calls (by decide +kernel)
  have hratio : ratio (s.files f) = 1 := by decide
  refine ⟨hratio, by decide +kernel, ?_⟩
  have hticks := h.1
  rw [hratio] at hticks
  exact hticks

end Rtc
end CoreOS
