import CoreOS.Files.Invariant

/-!
# The open files are in order in every state

`Inv` says that the open files of all processes are in order: the first two descriptors of a process in
use are the terminal, the others are of a kind that `open` makes, and the registry of the clock driver
has exactly the open clocks.  That the system calls on files keep it is in `Invariant`.  Here are the
steps with which processes come and go, and with them all steps there are.

## A process that starts

`_syscall_execute` writes the table of the new process from the first descriptor to the last, so nothing
is left of the process that had the number before (`Started`).  The registry is not looked at.  That it
has no clock of this number is what `Inv` says of the state before, since the number was free.

## A process that ends

`_syscall_halt` goes over the descriptors from 2 on and closes those in use, but does not mark them as
free: the end of a process changes no `FILE` (`Inv.file_halt`).  Its clocks leave the registry one after
the other (`unregistered_closeRounds`), and with `pid_used` the descriptors are out of sight (`Ended`).
The process at the root of a terminal does not end at all, so nothing of this happens to it.

## A timer interrupt

It starts a shell where there is none, and then it is a start, or it switches to another process, and
then no file is touched (`pitIsr_cases`).  `Promised` is what has to be known of a step from elsewhere, and
`inv_step` puts the parts together.
-/

namespace CoreOS
namespace Files

open Rtc Registry

variable {s : State}

/-! ## Starting and ending a process -/

theorem execute_eq_some {s procs : Proc.Table} {termInd : Option (Fin Proc.termNum)} {loads : Bool}
    (h : s.execute termInd loads = some procs) :
    ∃ p, s.freePid = some p ∧ loads = true ∧ procs = s.launch p termInd := by
  rw [Proc.Table.execute_eq] at h
  obtain ⟨p, hp, rfl⟩ := Option.map_eq_some_iff.mp h
  obtain ⟨hloads, hp⟩ := Proc.Table.starts_eq_some.mp hp
  exact ⟨p, hp, hloads, rfl⟩

/-- The state `s'` is `s` with a new process `p`, on which the clock driver knows nothing. -/
structure Started (s : State) (p : ℕ) (s' : State) : Prop where
  live : ∀ q, Live s' q ↔ q = p ∨ Live s q
  file_eq : ∀ f, s'.file f = if f.pid = p then State.newFile f.fd (s.file f) else s.file f
  rtcFiles_eq : s'.rtc.rtcFiles = s.rtc.rtcFiles

theorem started_of_execute {s' : State} {termInd : Option (Fin Proc.termNum)} {loads : Bool}
    (hexec : s.execute termInd loads = some s') : ∃ p, ¬ Live s p ∧ Started s p s' := by
  obtain ⟨procs, hprocs, rfl⟩ := Option.map_eq_some_iff.mp hexec
  obtain ⟨p, hp, -, rfl⟩ := execute_eq_some hprocs
  refine ⟨p, ?_, ?_, fun _ => rfl, rfl⟩
  · rw [Live, (Proc.freePid_spec hp).2.2]
    exact Bool.noConfusion
  · intro q
    show Function.update s.procs.pidUsed p true q = true ↔ _
    by_cases hq : q = p
    · simp [hq]
    · rw [Function.update_of_ne hq]
      simp [hq, Live]

/-- A new process has opened nothing yet, and the others have what they had. -/
theorem Started.opened_iff {p : ℕ} {s' : State} (hstart : Started s p s') (hdead : ¬ Live s p)
    (f : FilePtr) : Opened s' f ↔ Opened s f := by
  by_cases hf : f.pid = p
  · refine ⟨fun ho => ?_, fun ho => absurd (hf ▸ ho.live) hdead⟩
    have hfd := ho.two_le
    have hused := ho.used
    rw [hstart.file_eq, if_pos hf, State.newFile, if_neg (by omega), if_neg (by omega),
      if_pos ho.lt] at hused
    cases hused
  · constructor
    · intro ho
      refine ⟨((hstart.live _).mp ho.live).resolve_left hf, ho.two_le, ho.lt, ?_⟩
      rw [← ho.used, hstart.file_eq, if_neg hf]
    · intro ho
      refine ⟨(hstart.live _).mpr (Or.inr ho.live), ho.two_le, ho.lt, ?_⟩
      rw [hstart.file_eq, if_neg hf]
      exact ho.used

/-- **A new process** has the terminal open and nothing else. -/
theorem Inv.started {p : ℕ} {s' : State} (h : Inv s) (hdead : ¬ Live s p) (hstart : Started s p s')
    (hstk : ∃ stk, Proc.Stacked s'.procs stk) : Inv s' := by
  have hopened := hstart.opened_iff hdead
  have hkeep : ∀ f, Opened s f → s'.file f = s.file f := by
    intro f ho
    rw [hstart.file_eq, if_neg]
    intro hf
    exact hdead (hf ▸ ho.live)
  refine ⟨hstk, ?_, ?_, ?_, ?_, hstart.rtcFiles_eq ▸ h.distinct⟩
  · intro q hq
    rw [hstart.file_eq]
    split_ifs with hqp
    · exact ⟨rfl, rfl⟩
    · exact h.stdin q (((hstart.live q).mp hq).resolve_left hqp)
  · intro q hq
    rw [hstart.file_eq]
    split_ifs with hqp
    · exact ⟨rfl, rfl⟩
    · exact h.stdout q (((hstart.live q).mp hq).resolve_left hqp)
  · intro f hf
    rw [hkeep f ((hopened f).mp hf)]
    exact h.kind f ((hopened f).mp hf)
  · intro f
    rw [hopened, Registered, hstart.rtcFiles_eq]
    refine (h.registered f).trans (and_congr_right fun ho => ?_)
    rw [hkeep f ho]

/-- The state `s'` is `s` with the clocks of some descriptors taken out of the registry. -/
structure Unregistered (s : State) (out : FilePtr → Prop) (s' : State) : Prop where
  procs_eq : s'.procs = s.procs
  files_eq : s'.rtc.files = s.rtc.files
  registered : ∀ g, Registered s'.rtc g ↔ Registered s.rtc g ∧ ¬ out g
  distinct : Distinct s'.rtc.rtcFiles

/-- A round of the loop of `_syscall_halt`.  `ops->close` is called for a descriptor in use, and the `FILE`
itself is left as it is. -/
def closeRound (pid : ℕ) (s : State) (fd : ℕ) : State :=
  if (s.file ⟨pid, fd⟩).used then (s.opsClose ⟨pid, fd⟩).2 else s

theorem unregistered_closeRound (hdist : Distinct s.rtc.rtcFiles)
    (hreg : ∀ g, Registered s.rtc g → (s.file g).used = true ∧ (s.file g).fileOps = .rtc)
    (pid fd : ℕ) : Unregistered s (fun g => g = ⟨pid, fd⟩) (closeRound pid s fd) := by
  unfold closeRound
  split
  · rw [opsClose_eq]
    exact ⟨rfl, closedRtc_files s _, fun g => registered_closedRtc fun g hg => (hreg g hg).2,
      distinct_closedRtc hdist _⟩
  · rename_i hused
    refine ⟨rfl, rfl, fun g => ⟨fun hg => ⟨hg, ?_⟩, fun hg => hg.1⟩, hdist⟩
    rintro rfl
    exact hused (hreg _ hg).1

theorem unregistered_closeRounds (hdist : Distinct s.rtc.rtcFiles)
    (hreg : ∀ g, Registered s.rtc g → (s.file g).used = true ∧ (s.file g).fileOps = .rtc)
    (pid : ℕ) (l : List ℕ) :
    Unregistered s (fun g => g.pid = pid ∧ g.fd ∈ l) (l.foldl (closeRound pid) s) := by
  induction l generalizing s with
  | nil => exact ⟨rfl, rfl, fun g => by simp, hdist⟩
  | cons fd l ih =>
    have hround := unregistered_closeRound hdist hreg pid fd
    have hreg' : ∀ g, Registered (closeRound pid s fd).rtc g →
        ((closeRound pid s fd).file g).used = true ∧
          ((closeRound pid s fd).file g).fileOps = .rtc := by
      intro g hg
      rw [State.file, hround.files_eq]
      exact hreg g ((hround.registered g).mp hg).1
    have hrest := ih hround.distinct hreg'
    refine ⟨hrest.procs_eq.trans hround.procs_eq, hrest.files_eq.trans hround.files_eq, ?_,
      hrest.distinct⟩
    intro g
    rw [List.foldl_cons, hrest.registered, hround.registered, and_assoc, ← not_or]
    refine and_congr_right fun _ => not_congr ?_
    constructor
    · rintro (rfl | ⟨hpid, hmem⟩)
      · exact ⟨rfl, List.mem_cons_self⟩
      · exact ⟨hpid, List.mem_cons_of_mem fd hmem⟩
    · rintro ⟨hpid, hmem⟩
      rcases List.mem_cons.mp hmem with hfd | hmem
      · obtain ⟨p, fd'⟩ := g
        exact Or.inl (by rw [← hpid, ← hfd])
      · exact Or.inr ⟨hpid, hmem⟩

/-- **A process that ends** leaves no clock behind. -/
theorem Inv.unregistered_closeFiles (h : Inv s) (pid : ℕ) :
    Unregistered s (fun g => g.pid = pid) (s.closeFiles pid) := by
  have hreg : ∀ g, Registered s.rtc g → (s.file g).used = true ∧ (s.file g).fileOps = .rtc := by
    intro g hg
    obtain ⟨hopened, hrtc⟩ := (h.registered g).mp hg
    exact ⟨hopened.used, hrtc⟩
  have hloop := unregistered_closeRounds h.distinct hreg pid (List.range' 2 (taskMaxFiles - 2))
  refine ⟨hloop.procs_eq, hloop.files_eq, fun g => ?_, hloop.distinct⟩
  refine (hloop.registered g).trans (and_congr_right fun hg => not_congr ?_)
  obtain ⟨hopened, -⟩ := (h.registered g).mp hg
  refine ⟨fun hout => hout.1, fun hpid => ⟨hpid, ?_⟩⟩
  rw [List.mem_range'_1]
  exact ⟨hopened.two_le, hopened.lt⟩

/-- The state `s'` is `s` without process `p`, of which the clock driver knows nothing any more. -/
structure Ended (s : State) (p : ℕ) (s' : State) : Prop where
  live : ∀ q, Live s' q ↔ Live s q ∧ q ≠ p
  file_eq : ∀ f, s'.file f = s.file f
  registered : ∀ g, Registered s'.rtc g ↔ Registered s.rtc g ∧ g.pid ≠ p
  distinct : Distinct s'.rtc.rtcFiles

theorem Inv.pid_cur (h : Inv s) (hcur : s.procs.cur ≠ 0) :
    (s.procs.pcbs s.procs.cur).pid = s.procs.cur := by
  obtain ⟨stk, hstk⟩ := h.stacked
  obtain ⟨t, ht⟩ := hstk.used _ (h.live_cur hcur)
  exact (hstk.pcb t _ ht).1

theorem Inv.ended_halt (h : Inv s) (hcur : s.procs.cur ≠ 0) {parent : ℕ}
    (hparent : (s.procs.pcbs s.procs.cur).parent = some parent) :
    Ended s s.procs.cur s.halt := by
  have hclose := h.unregistered_closeFiles s.procs.cur
  have hhalt : s.halt = State.syncPids
      { s.closeFiles s.procs.cur with procs := (s.closeFiles s.procs.cur).procs.halt } := by
    rw [State.halt, hparent]
  have hused : s.halt.procs.pidUsed = Function.update s.procs.pidUsed s.procs.cur false := by
    rw [hhalt]
    show (s.closeFiles s.procs.cur).procs.halt.pidUsed = _
    rw [hclose.procs_eq, Proc.Table.halt, hparent]
    show Function.update s.procs.pidUsed (s.procs.pcbs s.procs.cur).pid false = _
    rw [h.pid_cur hcur]
  have hrtc : s.halt.rtc = (s.closeFiles s.procs.cur).rtc := by
    rw [hhalt]
    rfl
  refine ⟨?_, ?_, ?_, by rw [hrtc]; exact hclose.distinct⟩
  · intro q
    rw [Live, hused]
    by_cases hq : q = s.procs.cur
    · simp [hq]
    · rw [Function.update_of_ne hq]
      simp [hq, Live]
  · intro f
    rw [State.file, hrtc, hclose.files_eq]
    rfl
  · intro g
    rw [hrtc]
    exact hclose.registered g

theorem Inv.ended {p : ℕ} {s' : State} (h : Inv s) (hend : Ended s p s')
    (hstk : ∃ stk, Proc.Stacked s'.procs stk) : Inv s' := by
  have hopened : ∀ f, Opened s' f ↔ Opened s f ∧ f.pid ≠ p := by
    intro f
    constructor
    · intro ho
      obtain ⟨hlive, hne⟩ := (hend.live _).mp ho.live
      exact ⟨⟨hlive, ho.two_le, ho.lt, hend.file_eq f ▸ ho.used⟩, hne⟩
    · rintro ⟨ho, hne⟩
      exact ⟨(hend.live _).mpr ⟨ho.live, hne⟩, ho.two_le, ho.lt, by
        rw [hend.file_eq f]
        exact ho.used⟩
  refine ⟨hstk, ?_, ?_, ?_, ?_, hend.distinct⟩
  · intro q hq
    rw [hend.file_eq]
    exact h.stdin q ((hend.live q).mp hq).1
  · intro q hq
    rw [hend.file_eq]
    exact h.stdout q ((hend.live q).mp hq).1
  · intro f hf
    rw [hend.file_eq]
    exact h.kind f ((hopened f).mp hf).1
  · intro f
    rw [hend.registered, hopened, hend.file_eq, h.registered f]
    tauto

theorem halt_of_root (hparent : (s.procs.pcbs s.procs.cur).parent = none) : s.halt = s := by
  rw [State.halt, hparent]

/-- The end of a process changes no `FILE`, not even its own. -/
theorem Inv.file_halt (h : Inv s) (hcur : s.procs.cur ≠ 0) (f : FilePtr) :
    s.halt.file f = s.file f := by
  cases hparent : (s.procs.pcbs s.procs.cur).parent with
  | none => rw [halt_of_root hparent]
  | some parent => exact (h.ended_halt hcur hparent).file_eq f

theorem Inv.halt (h : Inv s) (hcur : s.procs.cur ≠ 0)
    (hstk : ∃ stk, Proc.Stacked s.halt.procs stk) : Inv s.halt := by
  cases hparent : (s.procs.pcbs s.procs.cur).parent with
  | none =>
    rw [halt_of_root hparent]
    exact h
  | some parent => exact h.ended (h.ended_halt hcur hparent) hstk

/-! ## Every step -/

theorem procs_execute (s : State) (termInd : Option (Fin Proc.termNum)) (loads : Bool) :
    (s.execute termInd loads).map State.procs = s.procs.execute termInd loads := by
  rw [State.execute, Option.map_map]
  exact Option.map_id'

theorem Inv.procs_halt (h : Inv s) : s.halt.procs = s.procs.halt := by
  rw [State.halt, Proc.Table.halt]
  cases hparent : (s.procs.pcbs s.procs.cur).parent with
  | none => rfl
  | some parent =>
    show (s.closeFiles s.procs.cur).procs.halt = _
    rw [(h.unregistered_closeFiles s.procs.cur).procs_eq, Proc.Table.halt, hparent]

/-- Switching to another process starts none and ends none. -/
theorem pidUsed_switchTo (t : Proc.Table) (nextPid : ℕ) : (t.switchTo nextPid).pidUsed = t.pidUsed := by
  unfold Proc.Table.switchTo
  split <;> rfl

/-- **The timer interrupt** starts a process or switches to another one. -/
theorem pitIsr_cases (s : State) (loads : Bool) (nextPid : ℕ) :
    (s.pitIsr loads nextPid).procs = s.procs.pitIsr loads nextPid ∧
      (((s.pitIsr loads nextPid).rtc = s.rtc ∧
          (s.pitIsr loads nextPid).procs.pidUsed = s.procs.pidUsed) ∨
        ∃ p, ¬ Live s p ∧ Started s p (s.pitIsr loads nextPid)) := by
  rw [State.pitIsr, Proc.Table.pitIsr]
  dsimp only
  split
  · cases hexec : State.execute
        { s with procs := { s.procs with curProcInd := s.procs.curProcInd + 1 } }
        (some (s.procs.curProcInd + 1)) loads with
    | none =>
      have hnone := congrArg (Option.map State.procs) hexec
      rw [procs_execute] at hnone
      rw [show Proc.Table.execute { s.procs with curProcInd := s.procs.curProcInd + 1 }
        (some (s.procs.curProcInd + 1)) loads = none from hnone]
      exact ⟨rfl, Or.inl ⟨rfl, pidUsed_switchTo _ _⟩⟩
    | some s' =>
      have hsome := congrArg (Option.map State.procs) hexec
      rw [procs_execute] at hsome
      rw [show Proc.Table.execute { s.procs with curProcInd := s.procs.curProcInd + 1 }
        (some (s.procs.curProcInd + 1)) loads = some s'.procs from hsome]
      obtain ⟨p, hdead, hstart⟩ := started_of_execute hexec
      exact ⟨rfl, Or.inr ⟨p, hdead, hstart.live, hstart.file_eq, hstart.rtcFiles_eq⟩⟩
  · exact ⟨rfl, Or.inl ⟨rfl, pidUsed_switchTo _ _⟩⟩

/-- What is known of a step: a system call is made by a process, the timer finds a program to start
when it needs one, and a clock is opened only while fewer than ten are open in the whole system. -/
def Promised (fs : FileSys.Image) (s : State) : Op → Prop
  | .open filename => s.procs.cur ≠ 0 ∧ ∀ dent, fs.readDentryByName filename = some dent →
      dent.filetype = FileSys.fileTypeRtc → (openRtcs s).length < maxProcNum
  | .close _ => s.procs.cur ≠ 0
  | .read _ _ _ _ => s.procs.cur ≠ 0
  | .write _ _ _ => s.procs.cur ≠ 0
  | .execute loads => Proc.Proper s.procs (.execute loads)
  | .halt => Proc.Proper s.procs .halt
  | .tick loads nextPid => Proc.Proper s.procs (.tick loads nextPid)
  | .rtcIsr => True
  | .term _ => True

/-- **One step keeps the open files in order.**  The cases are the steps; the process table is handed to
`Stacked` in each of them, since a `FILE` belongs to a process in use. -/
theorem inv_step (fs : FileSys.Image) (h : Inv s) (o : Op) (ho : Promised fs s o) :
    Inv (step fs s o) := by
  obtain ⟨stk, hstk⟩ := h.stacked
  cases o with
  | «open» filename =>
    obtain ⟨hcur, hroom⟩ := ho
    rw [step]
    obtain ⟨-, heq⟩ | ⟨dent, fd, s', -, hfd, heq, hat⟩ :=
      h.syscallOpen_cases fs s.procs.cur filename hroom
    · rw [heq]
      exact h
    · rw [heq]
      exact h.openedAt (h.live_cur hcur) hfd hat
  | close fd => exact h.syscallClose (h.live_cur ho) fd
  | read fd buf nbytes canon =>
    rw [step]
    cases hread : s.syscallRead fs s.procs.cur fd buf nbytes canon with
    | none => exact h
    | some r =>
      obtain ⟨ret, bytes, s'⟩ := r
      exact h.of_frame (frame_syscallRead hread)
  | write fd buf nbytes => exact h.of_quiet (h.quiet_syscallWrite s.procs.cur fd buf nbytes)
  | execute loads =>
    have hstk' := Proc.stacked_step hstk (.execute loads) ho
    rw [step]
    cases hexec : s.execute none loads with
    | none => exact h
    | some s' =>
      have hprocs := congrArg (Option.map State.procs) hexec
      rw [procs_execute] at hprocs
      obtain ⟨p, hdead, hstart⟩ := started_of_execute hexec
      refine h.started hdead hstart ?_
      rw [Proc.step, hprocs] at hstk'
      exact hstk'
  | halt =>
    refine h.halt ho ?_
    rw [h.procs_halt]
    exact Proc.stacked_step hstk .halt ho
  | tick loads nextPid =>
    have hstk' := Proc.stacked_step hstk (.tick loads nextPid) ho
    rw [step]
    obtain ⟨hprocs, ⟨hrtc, hlive⟩ | ⟨p, hdead, hstart⟩⟩ := pitIsr_cases s loads nextPid
    · refine h.of_sameShape ?_ hlive ?_ (congrArg Driver.rtcFiles hrtc)
      · rw [hprocs]
        exact hstk'
      · intro f
        rw [State.file, State.file, hrtc]
        exact (Alike.refl _).toSameShape
    · refine h.started hdead hstart ?_
      rw [hprocs]
      exact hstk'
  | rtcIsr =>
    rw [step]
    exact h.of_quiet (h.quiet_rtcIsr s.procs.cur)
  | term o =>
    rw [step]
    refine h.of_sameShape ?_ rfl (fun f => (Alike.refl _).toSameShape) rfl
    exact Proc.stacked_step hstk (.switchTerm (Term.step s.terms o).curTermInd) trivial

theorem inv_boot (pcbs : ℕ → Proc.PCB) (esp0 : ℕ) (files : FilePtr → FILE)
    (signals : ℕ → BitVec 8) (regA : BitVec 8) (pages : Term.PagePtr → Term.Screen) :
    Inv (boot pcbs esp0 files signals regA pages) where
  stacked := ⟨_, Proc.stacked_boot pcbs esp0⟩
  stdin := fun p hp => Bool.noConfusion hp
  stdout := fun p hp => Bool.noConfusion hp
  kind := fun f hf => Bool.noConfusion hf.live
  registered := by
    intro f
    refine ⟨?_, fun hf => Bool.noConfusion hf.1.live⟩
    rintro ⟨i, hi⟩
    cases hi
  distinct := by
    intro i j f hi
    cases hi

end Files
end CoreOS
