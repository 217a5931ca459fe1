import CoreOS.Files.RtcRegistry

/-!
# The halt loop of `rtc_open`

`rtc_open` looks for a free entry among the `MAX_PROC_NUM` of `rtc_files`, and when it finds none it
halts the system in a loop that is marked as unreachable.  The registry is as long as the process
table, but a process can open six clocks.  With the second process of the system a tenth clock can
be open, and the next `syscall_open` of a clock that finds a descriptor does not return.

The runs of the previous files were those in which a clock is opened only while fewer than ten are
open.  Here nothing is promised about that, `Kept`, and the same invariants hold: a call that never
returns changes nothing.  They say that the number of open clocks is the number of entries in use
(`Inv.exists_free_iff`), so that fewer than ten open clocks is exactly what it takes.
-/

namespace CoreOS
namespace Files

open Rtc Registry

variable {s : State}

/-! ## Slots and open clocks -/

theorem nodup_openRtcs (s : State) : (openRtcs s).Nodup := by
  refine List.Nodup.filter _ (List.nodup_flatMap.mpr ⟨fun p _ => ?_, ?_⟩)
  · refine List.Nodup.map (fun fd fd' h => ?_) List.nodup_range
    exact congrArg FilePtr.fd h
  · refine List.nodup_range.imp fun {p q} hne f hp hq => ?_
    obtain ⟨fd, -, rfl⟩ := List.mem_map.mp hp
    obtain ⟨fd', -, heq⟩ := List.mem_map.mp hq
    exact hne (congrArg FilePtr.pid heq).symm

theorem Inv.registered_of_mem_openRtcs (h : Inv s) (ht : TermTyped s) {f : FilePtr}
    (hf : f ∈ openRtcs s) : Registered s.rtc f := by
  simp only [openRtcs, List.mem_filter, List.mem_flatMap, List.mem_map, List.mem_range,
    Bool.and_eq_true, decide_eq_true_eq] at hf
  obtain ⟨⟨p, -, fd, hfd, rfl⟩, ⟨hlive, hused⟩, htype⟩ := hf
  exact (h.registered_iff_openRtc ht _).mpr ⟨hlive, hfd, hused, htype⟩

/-- **An entry is free exactly when fewer than ten clocks are open.** -/
theorem Inv.exists_free_iff (h : Inv s) (ht : TermTyped s) :
    (∃ i, s.rtc.rtcFiles i = none) ↔ (openRtcs s).length < maxProcNum := by
  refine ⟨?_, h.exists_free⟩
  rintro ⟨i, hi⟩
  -- the open clocks are among the entries in use, and entry `i` is not one of those
  have hsub : openRtcs s ⊆ (List.finRange maxProcNum).filterMap s.rtc.rtcFiles := by
    intro f hf
    obtain ⟨j, hj⟩ := h.registered_of_mem_openRtcs ht hf
    exact List.mem_filterMap.mpr ⟨j, List.mem_finRange j, hj⟩
  have hle := (List.subperm_of_subset (nodup_openRtcs s) hsub).length_le
  have hlt : ((List.finRange maxProcNum).filterMap s.rtc.rtcFiles).length < maxProcNum := by
    have hcount := List.countP_le_length (p := fun j => (s.rtc.rtcFiles j).isSome)
      (l := List.finRange maxProcNum)
    rw [List.length_filterMap_eq_countP]
    rw [List.length_finRange] at hcount
    refine Nat.lt_of_le_of_ne hcount fun hall => ?_
    have hsome := List.countP_eq_length.mp (hall.trans (List.length_finRange (n := maxProcNum)).symm)
      i (List.mem_finRange i)
    rw [hi] at hsome
    exact Bool.noConfusion hsome
  omega

/-! ## What `syscall_open` finds -/

/-- The name is that of a clock. -/
def NamesRtc (fs : FileSys.Image) (filename : FileSys.CStr) : Prop :=
  ∃ dent, fs.readDentryByName filename = some dent ∧ dent.filetype = FileSys.fileTypeRtc

/-- `syscall_open` hangs exactly when it opens a clock, has found a descriptor and no entry of the
registry is free. -/
theorem syscallOpen_eq_none_iff (fs : FileSys.Image) (pid : ℕ) (filename : FileSys.CStr) :
    s.syscallOpen fs pid filename = none ↔
      NamesRtc fs filename ∧ s.freeFd pid ≠ none ∧ ∀ i, s.rtc.rtcFiles i ≠ none := by
  unfold State.syscallOpen NamesRtc
  cases hname : fs.readDentryByName filename with
  | none => simp
  | some dent =>
    cases hfd : s.freeFd pid with
    | none => simp
    | some fd =>
      simp only [State.openFile]
      by_cases hrtc : dent.filetype = FileSys.fileTypeRtc
      · rw [if_pos hrtc, rtcOpen_eq]
        simp only [Option.map_eq_none_iff, List.find?_eq_none, List.mem_finRange, true_implies,
          Option.isNone_iff_eq_none, Option.some.injEq, exists_eq_left', hrtc, ne_eq, reduceCtorEq,
          not_false_iff, true_and]
      · rw [if_neg hrtc]
        simp [hrtc]

/-! ## Runs -/

/-- What is known of a step, with nothing said about how many clocks are open. -/
def Kept (fs : FileSys.Image) (s : State) : Op → Prop
  | .open _ => s.procs.cur ≠ 0
  | o => Promised fs s o

instance (fs : FileSys.Image) (s : State) : (o : Op) → Decidable (Kept fs s o)
  | .open _ | .close _ | .read _ _ _ _ | .write _ _ _ => inferInstanceAs (Decidable (_ ≠ _))
  | .execute loads => inferInstanceAs (Decidable (Proc.Proper s.procs (.execute loads)))
  | .halt => inferInstanceAs (Decidable (Proc.Proper s.procs .halt))
  | .tick loads nextPid => inferInstanceAs (Decidable (Proc.Proper s.procs (.tick loads nextPid)))
  | .rtcIsr | .term _ => inferInstanceAs (Decidable True)

/-- The open of a clock that finds a descriptor also finds fewer than ten clocks open. -/
def Room (fs : FileSys.Image) (s : State) : Op → Prop
  | .open filename =>
    NamesRtc fs filename → s.freeFd s.procs.cur ≠ none → (openRtcs s).length < maxProcNum
  | _ => True

/-- **An open of a clock finds a free entry or returns -1**, and no open hangs. -/
def OpenReturns (fs : FileSys.Image) (s : State) : Op → Prop
  | .open filename =>
    s.syscallOpen fs s.procs.cur filename ≠ none ∧
      (NamesRtc fs filename → (∃ i, s.rtc.rtcFiles i = none) ∨
        s.syscallOpen fs s.procs.cur filename = some (-1, s))
  | _ => True

/-- The invariants hold without any promise about the number of clocks. -/
theorem inv_step_of_kept (fs : FileSys.Image) (h : Inv s ∧ TermTyped s) {o : Op}
    (ho : Kept fs s o) : Inv (step fs s o) ∧ TermTyped (step fs s o) := by
  by_cases hprom : Promised fs s o
  · exact ⟨inv_step fs h.1 o hprom, termTyped_step fs h.1 h.2 o hprom⟩
  · cases o with
    | «open» filename =>
      -- all ten entries are taken and a clock is asked for: nothing is opened
      have hsame : step fs s (.open filename) = s := by
        obtain ⟨dent, hname, hrtc, hfull⟩ : ∃ dent, fs.readDentryByName filename = some dent ∧
            dent.filetype = FileSys.fileTypeRtc ∧ ¬ (openRtcs s).length < maxProcNum := by
          by_contra hno
          refine hprom ⟨ho, fun dent hname hrtc => ?_⟩
          by_contra hfull
          exact hno ⟨dent, hname, hrtc, hfull⟩
        rw [step]
        cases hfd : s.freeFd s.procs.cur with
        | none =>
          unfold State.syscallOpen
          rw [hname]
          simp only [hfd]
          rfl
        | some fd =>
          have hnone := (syscallOpen_eq_none_iff (s := s) fs s.procs.cur filename).mpr
            ⟨⟨dent, hname, hrtc⟩, by rw [hfd]; exact Option.some_ne_none fd, fun i hi =>
              hfull ((h.1.exists_free_iff h.2).mp ⟨i, hi⟩)⟩
          rw [hnone]
          rfl
      rw [hsame]
      exact h
    | _ => exact absurd ho hprom

theorem openReturns_iff_room (fs : FileSys.Image) (h : Inv s ∧ TermTyped s) (o : Op) :
    OpenReturns fs s o ↔ Room fs s o := by
  cases o with
  | «open» filename =>
    unfold OpenReturns Room
    dsimp only
    rw [ne_eq, syscallOpen_eq_none_iff, ← h.1.exists_free_iff h.2]
    constructor
    · rintro ⟨hret, -⟩ hname hfd
      by_contra hno
      exact hret ⟨hname, hfd, fun i hi => hno ⟨i, hi⟩⟩
    · intro hroom
      refine ⟨fun ⟨hname, hfd, hfull⟩ => ?_, fun hname => ?_⟩
      · obtain ⟨i, hi⟩ := hroom hname hfd
        exact hfull i hi
      · cases hfd : s.freeFd s.procs.cur with
        | some fd => exact Or.inl (hroom hname (by rw [hfd]; exact Option.some_ne_none fd))
        | none =>
          obtain ⟨dent, hdent, -⟩ := hname
          right
          unfold State.syscallOpen
          rw [hdent]
          simp only [hfd]
  | _ => exact Iff.rfl

/-- **When no open hangs.**  In a run from boot, every `syscall_open` of a clock finds a free entry of
`rtc_files` or returns -1 exactly when every `syscall_open` of a clock that finds a descriptor also
finds fewer than ten clocks open in the system. -/
theorem opens_return_iff (fs : FileSys.Image) (pcbs : ℕ → Proc.PCB) (esp0 : ℕ)
    (files : FilePtr → FILE) (signals : ℕ → BitVec 8) (regA : BitVec 8)
    (pages : Term.PagePtr → Term.Screen) (ops : List Op)
    (h : Runs.Meets (step fs) (Kept fs) (boot pcbs esp0 files signals regA pages) ops) :
    Runs.Meets (step fs) (OpenReturns fs) (boot pcbs esp0 files signals regA pages) ops ↔
      Runs.Meets (step fs) (Room fs) (boot pcbs esp0 files signals regA pages) ops := by
  have hstart : Inv (boot pcbs esp0 files signals regA pages) ∧
      TermTyped (boot pcbs esp0 files signals regA pages) :=
    ⟨inv_boot pcbs esp0 files signals regA pages, fun f hf => Bool.noConfusion hf⟩
  constructor
  · intro hret
    exact (h.and hret).imp (fun s o hs ho => inv_step_of_kept fs hs ho.1)
      (fun s o hs ho => (openReturns_iff_room fs hs o).mp ho.2) hstart
  · intro hroom
    exact (h.and hroom).imp (fun s o hs ho => inv_step_of_kept fs hs ho.1)
      (fun s o hs ho => (openReturns_iff_room fs hs o).mpr ho.2) hstart

/-- A shell and a program started from it, with six and four clocks open. -/
def tenClocks : List Op :=
  .tick true 0 :: List.replicate 6 (.open clockName) ++
    .execute true :: List.replicate 4 (.open clockName)

/-- With nine open clocks, a tenth is opened. -/
theorem opens_return_iff_ten :
    Runs.Meets (step fileAndClock) (Kept fileAndClock) plainBoot tenClocks ∧
      (Runs.Meets (step fileAndClock) (OpenReturns fileAndClock) plainBoot tenClocks ↔
        Runs.Meets (step fileAndClock) (Room fileAndClock) plainBoot tenClocks) := by
  have h : Runs.Meets (step fileAndClock) (Kept fileAndClock) plainBoot tenClocks := by
    decide +kernel
  exact ⟨h, opens_return_iff fileAndClock _ _ _ _ _ _ tenClocks h⟩

/-- The eleventh open finds a descriptor and no entry, and does not return. -/
theorem open_hangs :
    Runs.Meets (step fileAndClock) (Kept fileAndClock) plainBoot
        (tenClocks ++ [.open clockName]) ∧
      let s := Runs.run (step fileAndClock) plainBoot tenClocks
      s.freeFd s.procs.cur = some 6 ∧ s.syscallOpen fileAndClock s.procs.cur clockName = none := by
  refine ⟨by decide +kernel, by decide +kernel, ?_⟩
  exact Option.isNone_iff_eq_none.mp (by decide +kernel)

end Files
end CoreOS
