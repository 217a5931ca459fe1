import CoreOS.Files.FdMap

/-!
# The clocks the driver knows are the clocks that are open

`rtc_files` holds the address of every clock that is open in a process in use, once, and no other
address.  Registration and removal are four paths in two files: `syscall_open` and `syscall_close`
through `rtc_open` and `rtc_close`, the loop of `_syscall_halt` over the descriptors from 2 on, and
the PCB that `_syscall_execute` hands to a new process without looking at what it held before.

`Inv` says this of the descriptors from 2 on, by the table of operations a descriptor leads to.  The
registry is described here by the flags, which is what the rest of the kernel reads, and that needs
one fact more: the flags of descriptors 0 and 1 say that they are the terminal, so that a stale type
in a PCB that has been used before cannot pass for a clock.
-/

namespace CoreOS
namespace Files

open Rtc Registry

variable {s s' : State}

/-- A clock that is open, by the flags: a descriptor of a process in use. -/
structure OpenRtc (s : State) (f : FilePtr) : Prop where
  live : s.procs.pidUsed f.pid = true
  lt : f.fd < taskMaxFiles
  used : (s.file f).used = true
  type : (s.file f).type = .rtc

/-- Descriptors 0 and 1 have the type of the terminal. -/
def TermTyped (s : State) : Prop :=
  ∀ f : FilePtr, Live s f.pid → f.fd < 2 → (s.file f).type = .term

/-! ## One step -/

/-- A step that starts no process, and writes to the types of descriptors from 2 on only. -/
theorem TermTyped.of_type_eq (h : TermTyped s) (hlive : ∀ p, Live s' p → Live s p)
    (htype : ∀ f : FilePtr, f.fd < 2 → (s'.file f).type = (s.file f).type) : TermTyped s' := by
  intro f hf hfd
  rw [htype f hfd]
  exact h f (hlive _ hf) hfd

theorem TermTyped.of_frame {f : FilePtr} (h : TermTyped s) (hframe : Frame s f s') :
    TermTyped s' := by
  refine h.of_type_eq ?_ fun g _ => (hframe.shape g).type
  intro p hp
  rw [Live, ← hframe.procs_eq]
  exact hp

theorem TermTyped.of_update {f : FilePtr} (h : TermTyped s) (hfd : 2 ≤ f.fd)
    (hprocs : s'.procs = s.procs) (hfile : ∀ g, g ≠ f → s'.file g = s.file g) : TermTyped s' := by
  refine h.of_type_eq ?_ ?_
  · intro p hp
    rw [Live, ← hprocs]
    exact hp
  · intro g hg
    rw [hfile g]
    rintro rfl
    exact absurd hfd (Nat.not_le.mpr hg)

theorem TermTyped.started {p : ℕ} (h : TermTyped s) (hstart : Started s p s') : TermTyped s' := by
  intro f hf hfd
  rw [hstart.file_eq]
  split_ifs with hp
  · unfold State.newFile
    split_ifs with h0 h1
    · rfl
    · rfl
    · omega
    · omega
  · exact h f (((hstart.live _).mp hf).resolve_left hp) hfd

theorem TermTyped.halt (h : TermTyped s) (hinv : Inv s) (hcur : s.procs.cur ≠ 0) :
    TermTyped s.halt := by
  cases hparent : (s.procs.pcbs s.procs.cur).parent with
  | none =>
    rw [halt_of_root hparent]
    exact h
  | some parent =>
    have hend := hinv.ended_halt hcur hparent
    refine h.of_type_eq (fun p hp => ((hend.live p).mp hp).1) fun f _ => ?_
    rw [hend.file_eq]

theorem termTyped_step (fs : FileSys.Image) (hinv : Inv s) (h : TermTyped s) (o : Op)
    (ho : Promised fs s o) : TermTyped (step fs s o) := by
  cases o with
  | «open» filename =>
    rw [step]
    obtain ⟨-, heq⟩ | ⟨dent, fd, s', -, hfd, heq, hat⟩ :=
      hinv.syscallOpen_cases fs s.procs.cur filename ho.2
    · rw [heq]
      exact h
    · rw [heq]
      exact h.of_update (State.freeFd_eq_some.mp hfd).1 hat.procs_eq hat.file_of_ne
  | close fd =>
    rw [step]
    obtain ⟨-, heq⟩ | ⟨-, hopened, heq⟩ := hinv.syscallClose_cases (hinv.live_cur ho) fd
    · rw [heq]
      exact h
    · rw [heq]
      exact h.of_update hopened.two_le rfl fun g hg => closedAt_of_ne s hg
  | read fd buf nbytes canon =>
    rw [step]
    cases hread : s.syscallRead fs s.procs.cur fd buf nbytes canon with
    | none => exact h
    | some r =>
      obtain ⟨ret, bytes, s'⟩ := r
      exact h.of_frame (frame_syscallRead hread)
  | write fd buf nbytes =>
    exact h.of_frame ((hinv.quiet_syscallWrite s.procs.cur fd buf nbytes).frame ⟨0, 0⟩)
  | execute loads =>
    rw [step]
    cases hexec : s.execute none loads with
    | none => exact h
    | some s' =>
      obtain ⟨p, -, hstart⟩ := started_of_execute hexec
      exact h.started hstart
  | halt => exact h.halt hinv ho
  | tick loads nextPid =>
    rw [step]
    obtain ⟨-, ⟨hrtc, hlive⟩ | ⟨p, -, hstart⟩⟩ := pitIsr_cases s loads nextPid
    · refine h.of_type_eq ?_ ?_
      · intro p hp
        rw [Live, ← hlive]
        exact hp
      · intro f _
        rw [State.file, State.file, hrtc]
    · exact h.started hstart
  | rtcIsr =>
    rw [step]
    exact h.of_frame ((hinv.quiet_rtcIsr s.procs.cur).frame ⟨0, 0⟩)
  | term o => exact h.of_type_eq (fun _ hp => hp) fun _ _ => rfl

/-! ## The registry -/

/-- The registry, by the flags. -/
theorem Inv.registered_iff_openRtc (hinv : Inv s) (h : TermTyped s) (f : FilePtr) :
    Registered s.rtc f ↔ OpenRtc s f := by
  rw [hinv.registered]
  constructor
  · rintro ⟨hopened, hrtc⟩
    exact ⟨hopened.live, hopened.lt, hopened.used, (hinv.kind f hopened).2.2.mpr hrtc⟩
  · intro hf
    have hge : 2 ≤ f.fd := by
      by_contra hlt
      have hterm := h f hf.live (by omega)
      rw [hf.type] at hterm
      cases hterm
    have hopened : Opened s f := ⟨hf.live, hge, hf.lt, hf.used⟩
    exact ⟨hopened, (hinv.kind f hopened).2.2.mp hf.type⟩

/-- The interrupt handler writes to registered clocks only. -/
theorem rtcIsr_files_of_not_registered {d : Driver} {f : FilePtr} (hf : ¬ Registered d f)
    (cur : ℕ) : (d.rtcIsr cur).files f = d.files f := by
  rw [(rtcIsr_eq d cur).1]
  exact foldl_visit_of_not_mem (fun i _ hi => hf ⟨i, hi⟩) d.files

/-- **The registry of the clock driver.**  In every state of every run from boot, in which a clock is
opened only while fewer than ten are open in the whole system, the entries of `rtc_files` that are
not `NULL` are pairwise distinct and are exactly the descriptors of processes in use whose flags say
that they are open clocks.  So the next `rtc_isr` writes to no other `FILE`, and to none of a process
that has ended. -/
theorem rtcFiles_are_open_clocks (fs : FileSys.Image) (pcbs : ℕ → Proc.PCB) (esp0 : ℕ)
    (files : FilePtr → FILE) (signals : ℕ → BitVec 8) (regA : BitVec 8)
    (pages : Term.PagePtr → Term.Screen) (ops : List Op)
    (h : Runs.Meets (step fs) (Promised fs) (boot pcbs esp0 files signals regA pages) ops) :
    let s := Runs.run (step fs) (boot pcbs esp0 files signals regA pages) ops
    Distinct s.rtc.rtcFiles ∧
      (∀ f, (∃ i, s.rtc.rtcFiles i = some f) ↔ OpenRtc s f) ∧
      ∀ f cur, (s.rtc.rtcIsr cur).files f ≠ s.rtc.files f → OpenRtc s f := by
  intro s
  have hboth : Inv s ∧ TermTyped s :=
    Runs.invariant_of_meets (I := fun s => Inv s ∧ TermTyped s)
      (fun s o hs ho => ⟨inv_step fs hs.1 o ho, termTyped_step fs hs.1 hs.2 o ho⟩)
      ⟨inv_boot pcbs esp0 files signals regA pages, fun f hf => Bool.noConfusion hf⟩ h
  obtain ⟨hinv, htyped⟩ := hboth
  refine ⟨hinv.distinct, hinv.registered_iff_openRtc htyped, ?_⟩
  intro f cur hwritten
  rw [← hinv.registered_iff_openRtc htyped]
  by_contra hf
  exact hwritten (rtcIsr_files_of_not_registered hf cur)

/-- The name `r` of the clock in `fileAndClock`. -/
def clockName : FileSys.CStr := fun k => if k = 0 then 0x72 else 0

/-- A boot on memory that holds nothing of interest. -/
def plainBoot : State :=
  boot (fun _ => ⟨none, 0, 0, 0, 0, fun _ => none⟩) 0 (fun _ => ⟨.dir, 7, 7, .term, false⟩)
    (fun _ => 0) 0 (fun _ _ => 0)

/-- The shell and a program started from it both open the clock, and the program ends. -/
def clockTwice : List Op := [.tick true 0, .open clockName, .execute true, .open clockName, .halt]

theorem meets_clockTwice :
    Runs.Meets (step fileAndClock) (Promised fileAndClock) plainBoot clockTwice := by
  refine ⟨fun _ => ⟨by decide, rfl⟩, ⟨by decide, fun _ _ _ => ?_⟩, ?_, ⟨?_, fun _ _ _ => ?_⟩,
    ?_, trivial⟩
  · show (openRtcs (Runs.run (step fileAndClock) plainBoot (clockTwice.take 1))).length < maxProcNum
    decide +kernel
  · show (Runs.run (step fileAndClock) plainBoot (clockTwice.take 2)).procs.cur ≠ 0
    decide +kernel
  · show (Runs.run (step fileAndClock) plainBoot (clockTwice.take 3)).procs.cur ≠ 0
    decide +kernel
  · show (openRtcs (Runs.run (step fileAndClock) plainBoot (clockTwice.take 3))).length < maxProcNum
    decide +kernel
  · show (Runs.run (step fileAndClock) plainBoot (clockTwice.take 4)).procs.cur ≠ 0
    decide +kernel

/-- After that the PCB of the program still says that descriptor 2 is an open clock, but the driver
knows the clock of the shell only. -/
theorem rtcFiles_are_open_clocks_after_halt :
    Runs.Meets (step fileAndClock) (Promised fileAndClock) plainBoot clockTwice ∧
      let s := Runs.run (step fileAndClock) plainBoot clockTwice
      (∃ i, s.rtc.rtcFiles i = some ⟨1, 2⟩) ∧
      (s.file ⟨2, 2⟩).used = true ∧ (s.file ⟨2, 2⟩).type = .rtc ∧
      ¬ ∃ i, s.rtc.rtcFiles i = some ⟨2, 2⟩ := by
  refine ⟨meets_clockTwice, ?_⟩
  intro s
  obtain ⟨-, hopen, -⟩ :=
    rtcFiles_are_open_clocks fileAndClock _ _ _ _ _ _ clockTwice meets_clockTwice
  refine ⟨(hopen ⟨1, 2⟩).mpr ⟨?_, ?_, ?_, ?_⟩, ?_, ?_, ?_⟩
  · decide +kernel
  · decide +kernel
  · decide +kernel
  · decide +kernel
  · decide +kernel
  · decide +kernel
  · intro hstale
    have hlive := ((hopen ⟨2, 2⟩).mp hstale).live
    have hdead : s.procs.pidUsed 2 = false := by decide +kernel
    exact Bool.noConfusion (hlive.symm.trans hdead)

end Files
end CoreOS
