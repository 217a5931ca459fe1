import CoreOS.Files.Reachable

/-!
# Who is sent a C-c

A C-c on the keyboard raises `SIG_KB_INT` for the process on top of the terminal on display.  The signal
stays pending until `check_signals` finds it at the end of an interrupt or a system call; a process that
does not handle it is ended then, wherever it was.

`step` does not come to `check_signals`.  A run of `step` tells the truth about a process as long as
`check_signals` would do nothing to it, and of the signals that end a process only this one can be
raised by a step: the others come from exceptions.  So what is said of a process in such a run has to be
said of runs in which it is not sent a C-c.  `signals_step` is what makes this a condition on the
keys alone: a step raises the signal for a process only if it is such a key (`Interrupts`), so without
one it is never pending (`unsignalled_step`).

## The steps

Nothing but `term_key_handler` raises the signal and nothing but the start of a process clears it; the
rest is to see that no other function touches `signals`.  Each function has a lemma on this, in the order
in which they call each other.
-/

namespace CoreOS
namespace Files

open FileSys Term

/-- The step is a C-c on the terminal on display, and process `pid` is on top there. -/
def Interrupts (pid : ℕ) (s : State) : Op → Prop
  | .term (.key k) =>
    System.interrupts (s.terms.data s.terms.curTermInd) k = true ∧
      (s.terms.data s.terms.curTermInd).curPid = pid
  | _ => False

/-- `SIG_KB_INT` is not pending for process `pid`. -/
def Unsignalled (s : State) (pid : ℕ) : Prop := s.terms.signals pid &&& sigKbInt = 0

instance (s : State) (pid : ℕ) : Decidable (Unsignalled s pid) := inferInstanceAs (Decidable (_ = _))

/-- The signals of process `pid` are as they were, or there are none. -/
def SameSignals (pid : ℕ) (s s' : State) : Prop :=
  s'.terms.signals pid = s.terms.signals pid ∨ s'.terms.signals pid = 0

section

variable {pid : ℕ} {s s' : State}

theorem SameSignals.of_eq (h : s'.terms.signals = s.terms.signals) : SameSignals pid s s' :=
  Or.inl (congrFun h pid)

theorem Unsignalled.of_same (h : Unsignalled s pid) (hsame : SameSignals pid s s') :
    Unsignalled s' pid := by
  rcases hsame with heq | heq
  · rw [Unsignalled, heq]
    exact h
  · rw [Unsignalled, heq]
    exact BitVec.zero_and

/-! ## The system calls -/

theorem signals_opsRead {fs : Image} {f : FilePtr} {nbytes : BitVec 32} {canon : Bool} {ret : ℤ}
    {bytes : List (BitVec 8)} (h : s.opsRead fs f nbytes canon = some (ret, bytes, s')) :
    s'.terms.signals = s.terms.signals := by
  unfold State.opsRead at h
  cases hops : (s.file f).fileOps with
  | stdin =>
    simp only [hops, State.termRead] at h
    obtain ⟨r, -, hr⟩ := Option.map_eq_some_iff.mp h
    cases hr
    rfl
  | stdout =>
    simp only [hops] at h
    cases h
    rfl
  | rtc =>
    simp only [hops] at h
    obtain ⟨r, -, hr⟩ := Option.map_eq_some_iff.mp h
    cases hr
    rfl
  | file =>
    simp only [hops] at h
    cases h
    rfl
  | dir =>
    simp only [hops] at h
    cases h
    rfl

theorem signals_syscallRead {fs : Image} {p : ℕ} {fd : ℤ} {buf : Bool} {nbytes : BitVec 32}
    {canon : Bool} {ret : ℤ} {bytes : List (BitVec 8)}
    (h : s.syscallRead fs p fd buf nbytes canon = some (ret, bytes, s')) :
    s'.terms.signals = s.terms.signals := by
  unfold State.syscallRead at h
  split_ifs at h
  · cases h
    rfl
  · cases h
    rfl
  · cases h
    rfl
  · exact signals_opsRead h

theorem signals_opsWrite (s : State) (f : FilePtr) (buf : CStr) (nbytes : BitVec 32) :
    (s.opsWrite f buf nbytes).2.terms.signals = s.terms.signals := by
  unfold State.opsWrite
  cases (s.file f).fileOps <;> rfl

theorem signals_syscallWrite (s : State) (p : ℕ) (fd : ℤ) (buf : Option CStr) (nbytes : BitVec 32) :
    (s.syscallWrite p fd buf nbytes).2.terms.signals = s.terms.signals := by
  cases buf with
  | none => rfl
  | some buf =>
    unfold State.syscallWrite
    split_ifs
    · rfl
    · rfl
    · exact signals_opsWrite s _ buf nbytes

theorem signals_openFile {fs : Image} {filename : CStr} {dent : Dentry} {f : FilePtr} {ret : ℤ}
    (h : s.openFile fs filename dent f = some (ret, s')) : s'.terms.signals = s.terms.signals := by
  unfold State.openFile at h
  split_ifs at h
  · obtain ⟨r, -, hr⟩ := Option.map_eq_some_iff.mp h
    cases hr
    rfl
  · cases h
    rfl

theorem signals_syscallOpen {fs : Image} {p : ℕ} {filename : CStr} {ret : ℤ}
    (h : s.syscallOpen fs p filename = some (ret, s')) : s'.terms.signals = s.terms.signals := by
  unfold State.syscallOpen at h
  split at h
  · cases h
    rfl
  split at h
  · cases h
    rfl
  obtain ⟨⟨ret', t⟩, hopen, hr⟩ := Option.map_eq_some_iff.mp h
  have ht := signals_openFile hopen
  dsimp only at hr
  split_ifs at hr
  · cases hr
    exact ht
  · cases hr
    exact ht

theorem signals_opsClose (s : State) (f : FilePtr) :
    (s.opsClose f).2.terms.signals = s.terms.signals := by
  rw [opsClose_eq]

theorem signals_syscallClose (s : State) (p : ℕ) (fd : ℤ) :
    (s.syscallClose p fd).2.terms.signals = s.terms.signals := by
  unfold State.syscallClose
  dsimp only
  split_ifs
  · rfl
  · rfl
  · exact signals_opsClose s _
  · exact signals_opsClose s _

/-! ## Processes that start and end -/

/-- A new process has no signals, and the others keep theirs. -/
theorem sameSignals_execute {termInd : Option (Fin Proc.termNum)} {loads : Bool}
    (h : s.execute termInd loads = some s') (pid : ℕ) : SameSignals pid s s' := by
  obtain ⟨procs, -, rfl⟩ := Option.map_eq_some_iff.mp h
  show Function.update s.terms.signals procs.cur 0 pid = _ ∨
    Function.update s.terms.signals procs.cur 0 pid = 0
  by_cases hpid : pid = procs.cur
  · rw [hpid, Function.update_self]
    exact Or.inr rfl
  · rw [Function.update_of_ne hpid]
    exact Or.inl rfl

theorem signals_closeFiles (s : State) (p : ℕ) :
    (s.closeFiles p).terms.signals = s.terms.signals := by
  unfold State.closeFiles
  generalize List.range' 2 (taskMaxFiles - 2) = fds
  induction fds generalizing s with
  | nil => rfl
  | cons fd fds ih =>
    rw [List.foldl_cons, ih]
    split
    · exact signals_opsClose s _
    · rfl

theorem signals_halt (s : State) : s.halt.terms.signals = s.terms.signals := by
  unfold State.halt
  split
  · rfl
  · exact signals_closeFiles s _

theorem sameSignals_pitIsr (s : State) (loads : Bool) (nextPid pid : ℕ) :
    SameSignals pid s (s.pitIsr loads nextPid) := by
  unfold State.pitIsr
  dsimp only
  split
  · split
    · exact SameSignals.of_eq rfl
    · rename_i hexec
      exact sameSignals_execute hexec pid
  · exact SameSignals.of_eq rfl

/-! ## The terminals -/

theorem signals_switchTerm (t : System) (ind : Fin termNum) :
    (t.switchTerm ind).signals = t.signals := by
  unfold System.switchTerm
  split
  · rfl
  · split <;> rfl

/-- A key raises the signal for the process that it interrupts, and for no other. -/
theorem signals_termKeyHandler (t : System) (k : Console.Key) (pid : ℕ) :
    (t.termKeyHandler k).signals pid = t.signals pid ∨
      System.interrupts (t.data t.curTermInd) k = true ∧ (t.data t.curTermInd).curPid = pid := by
  unfold System.termKeyHandler
  dsimp only
  split
  · exact Or.inl (congrFun (signals_switchTerm _ _) pid)
  · split_ifs with hint
    · by_cases hpid : pid = (t.data t.curTermInd).curPid
      · exact Or.inr ⟨hint, hpid.symm⟩
      · exact Or.inl (Function.update_of_ne hpid _ _)
    · exact Or.inl rfl

/-! ## Every step -/

/-- **Only a C-c raises the signal.** -/
theorem signals_step (fs : Image) (s : State) (o : Op) (pid : ℕ) :
    SameSignals pid s (step fs s o) ∨ Interrupts pid s o := by
  cases o with
  | «open» filename =>
    left
    rw [step]
    cases hopen : s.syscallOpen fs s.procs.cur filename with
    | none => exact SameSignals.of_eq rfl
    | some r => exact SameSignals.of_eq (signals_syscallOpen hopen)
  | close fd => exact Or.inl (SameSignals.of_eq (signals_syscallClose s _ fd))
  | read fd buf nbytes canon =>
    left
    rw [step]
    cases hread : s.syscallRead fs s.procs.cur fd buf nbytes canon with
    | none => exact SameSignals.of_eq rfl
    | some r => exact SameSignals.of_eq (signals_syscallRead hread)
  | write fd buf nbytes => exact Or.inl (SameSignals.of_eq (signals_syscallWrite s _ fd buf nbytes))
  | execute loads =>
    left
    rw [step]
    cases hexec : s.execute none loads with
    | none => exact SameSignals.of_eq rfl
    | some s' => exact sameSignals_execute hexec pid
  | halt => exact Or.inl (SameSignals.of_eq (signals_halt s))
  | tick loads nextPid => exact Or.inl (sameSignals_pitIsr s loads nextPid pid)
  | rtcIsr => exact Or.inl (SameSignals.of_eq rfl)
  | term o =>
    cases o with
    | key k => exact (signals_termKeyHandler s.terms k pid).imp_left Or.inl
    | switchTerm ind => exact Or.inl (SameSignals.of_eq (signals_switchTerm s.terms ind))
    | write t bytes => exact Or.inl (SameSignals.of_eq rfl)
    | readStart t => exact Or.inl (SameSignals.of_eq rfl)
    | readEnd t canon nbytes => exact Or.inl (SameSignals.of_eq rfl)

/-- **A process that is not sent a C-c has none pending.** -/
theorem unsignalled_step (fs : Image) {o : Op} (h : Unsignalled s pid) (ho : ¬ Interrupts pid s o) :
    Unsignalled (step fs s o) pid :=
  h.of_same ((signals_step fs s o pid).resolve_right ho)

end

end Files
end CoreOS
