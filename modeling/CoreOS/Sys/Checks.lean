import CoreOS.Files.RtcRegistry
import CoreOS.Sys.Dispatch

/-!
# The checks of the system calls

A number, an index or an address that a program passes is to be used only where it is in range, and
the call is to return -1 and change nothing where it is not.  The jump table and the descriptors are
checked like this.  Two checks let too much through:

* `syscall_set_handler` compares with `>`, and the handler of signal `SIG_SIZE` is the word behind the
  PCB;
* `syscall_vidmap` checks where the word it stores begins and not where it ends.

`tight_iff` says that there are no others.
-/

namespace CoreOS
namespace Sys

open FileSys Signals

/-- The index is one of the table, and the word is one of the program's page. -/
def InRange : Access → Prop
  | .jmpTab i => 0 ≤ i ∧ i < syscallJmpTab.length
  | .openFiles fd => 0 ≤ fd ∧ fd < taskMaxFiles
  | .signalHandlers signum => 0 ≤ signum ∧ signum < sigSize
  | .screenStart a => taskVirtPageBeg.toNat ≤ a.toNat ∧ a.toNat + 4 ≤ taskVirtPageEnd.toNat

/-- What a program asks a call for. -/
def askedOf (r : Regs) : Syscall → List Access
  | .read | .write | .close => [.openFiles r.ebx.toInt]
  | .setHandler => [.signalHandlers r.ebx.toInt]
  | .vidmap => [.screenStart r.ebx]
  | _ => []

/-- What a program asks for with its registers. -/
def asked (r : Regs) : List Access :=
  .jmpTab (r.eax.toInt - 1) :: ((syscallOf r.eax).map (askedOf r)).getD []

/-- **The checks are tight.**  Nothing is touched out of range, and if something is asked for that is
out of range, the call returns -1 and the state is as it was. -/
structure Tight (s : State) (asked : List Access) (o : Outcome) : Prop where
  inRange : ∀ a ∈ o.touched, InRange a
  refused : (∃ a ∈ asked, ¬ InRange a) → o.exit = .returns (-1) s

/-- The requests that get through although they are out of range. -/
def Slips (r : Regs) : Syscall → Prop
  | .setHandler => r.ebx = 5
  | .vidmap => 0x83FFFFD ≤ r.ebx ∧ r.ebx < taskVirtPageEnd
  | _ => False

section call

variable {s : State} {env : Env} {r : Regs} {o : Outcome} {a : Access} {p : Prop}

/-! ## Checking one access -/

/-- The call makes the access `a` and no other, and only if `p`; or it refuses. -/
def Guarded (s : State) (a : Access) (p : Prop) (o : Outcome) : Prop :=
  o = s.refuse ∨ (p ∧ o.touched = [a])

theorem tight_refuse (s : State) (asked : List Access) : Tight s asked s.refuse where
  inRange _ ha := absurd ha List.not_mem_nil
  refused _ := rfl

/-- A check that lets only what is in range through. -/
theorem Guarded.tight (h : Guarded s a p o) (hp : p → InRange a) : Tight s [a] o := by
  rcases h with rfl | ⟨hpass, htouched⟩
  · exact tight_refuse s [a]
  · refine ⟨fun b hb => ?_, ?_⟩
    · rw [htouched, List.mem_singleton] at hb
      rw [hb]
      exact hp hpass
    · rintro ⟨b, hb, hout⟩
      rw [List.mem_singleton.mp hb] at hout
      exact absurd (hp hpass) hout

/-- A check on which nothing else depends is tight only if it lets only what is in range through. -/
theorem Guarded.tight_iff_passes (h : Guarded s a p o) (huses : p → o.touched = [a]) :
    Tight s [a] o ↔ (p → InRange a) := by
  refine ⟨fun ht hpass => ht.inRange a ?_, h.tight⟩
  rw [huses hpass]
  exact List.mem_singleton_self a

/-- The check itself. -/
theorem guarded_ite {q : Prop} [Decidable q] (hq : ¬ q ↔ p) (htouched : o.touched = [a]) :
    Guarded s a p (if q then s.refuse else o) := by
  by_cases h : q
  · rw [if_pos h]
    exact Or.inl rfl
  · rw [if_neg h]
    exact Or.inr ⟨hq.mp h, htouched⟩

/-- Another check before it. -/
theorem Guarded.ite_refuse {q : Prop} [Decidable q] (h : Guarded s a p o) :
    Guarded s a p (if q then s.refuse else o) := by
  by_cases hq : q
  · rw [if_pos hq]
    exact Or.inl rfl
  · rw [if_neg hq]
    exact h

/-! ## The calls that check -/

theorem not_badFd_iff (fd : Word) : ¬ (fd.toInt < 0 ∨ taskMaxFiles ≤ fd.toInt) ↔
    InRange (.openFiles fd.toInt) := by
  show _ ↔ 0 ≤ fd.toInt ∧ fd.toInt < taskMaxFiles
  omega

theorem guarded_syscallRead (fd buf nbytes : Word) : Guarded s (.openFiles fd.toInt)
    (InRange (.openFiles fd.toInt)) (s.syscallRead env fd buf nbytes) :=
  (guarded_ite (not_badFd_iff fd) rfl).ite_refuse

theorem guarded_syscallWrite (fd buf nbytes : Word) : Guarded s (.openFiles fd.toInt)
    (InRange (.openFiles fd.toInt)) (s.syscallWrite fd buf nbytes) :=
  (guarded_ite (not_badFd_iff fd) rfl).ite_refuse

theorem guarded_syscallClose (fd : Word) : Guarded s (.openFiles fd.toInt)
    (InRange (.openFiles fd.toInt)) (s.syscallClose fd) :=
  guarded_ite (not_badFd_iff fd) rfl

/-- The signal after the last one passes the check. -/
theorem tight_syscallSetHandler_iff (signum handler : Word) :
    Tight s [.signalHandlers signum.toInt] (s.syscallSetHandler signum handler) ↔ signum ≠ 5 := by
  have hcheck : ¬ (signum.toInt < 0 ∨ sigSize < signum.toInt) ↔
      0 ≤ signum.toInt ∧ signum.toInt ≤ sigSize := by
    omega
  have hguard : Guarded s (.signalHandlers signum.toInt)
      (0 ≤ signum.toInt ∧ signum.toInt ≤ sigSize) (s.syscallSetHandler signum handler) :=
    guarded_ite hcheck rfl
  have huses : 0 ≤ signum.toInt ∧ signum.toInt ≤ sigSize →
      (s.syscallSetHandler signum handler).touched = [.signalHandlers signum.toInt] := by
    intro hpass
    unfold State.syscallSetHandler
    rw [if_neg (hcheck.mpr hpass)]
  have hfive : signum ≠ 5 ↔ signum.toInt ≠ sigSize := by
    refine not_congr ⟨fun h => ?_, fun h => BitVec.eq_of_toInt_eq h⟩
    rw [h]
    rfl
  rw [hguard.tight_iff_passes huses, hfive]
  show (_ → 0 ≤ signum.toInt ∧ signum.toInt < sigSize) ↔ _
  omega

/-- The last three addresses of the page pass the check. -/
theorem tight_syscallVidmap_iff (screenStart : Word) :
    Tight s [.screenStart screenStart] (s.syscallVidmap screenStart) ↔
      ¬ (0x83FFFFD ≤ screenStart ∧ screenStart < taskVirtPageEnd) := by
  have hcheck : ¬ (screenStart < taskVirtPageBeg ∨ taskVirtPageEnd ≤ screenStart) ↔
      taskVirtPageBeg ≤ screenStart ∧ screenStart < taskVirtPageEnd := by
    rw [not_or, BitVec.not_lt, BitVec.not_le]
  have hguard : Guarded s (.screenStart screenStart)
      (taskVirtPageBeg ≤ screenStart ∧ screenStart < taskVirtPageEnd)
      (s.syscallVidmap screenStart) :=
    guarded_ite hcheck rfl
  have huses : taskVirtPageBeg ≤ screenStart ∧ screenStart < taskVirtPageEnd →
      (s.syscallVidmap screenStart).touched = [.screenStart screenStart] := by
    intro hpass
    unfold State.syscallVidmap
    rw [if_neg (hcheck.mpr hpass)]
  rw [hguard.tight_iff_passes huses]
  show (_ → taskVirtPageBeg.toNat ≤ screenStart.toNat ∧
    screenStart.toNat + 4 ≤ taskVirtPageEnd.toNat) ↔ _
  rw [BitVec.le_def, BitVec.lt_def, BitVec.le_def]
  have hbeg : taskVirtPageBeg.toNat = 0x8000000 := rfl
  have hend : taskVirtPageEnd.toNat = 0x8400000 := rfl
  have hlast : (0x83FFFFD : Word).toNat = 0x83FFFFD := rfl
  rw [hbeg, hend, hlast]
  omega

/-! ## The calls that go through a table by themselves -/

theorem mem_tried {fds : List ℕ} {fd : ℕ} (h : fd ∈ s.tried fds) : fd ∈ fds := by
  induction fds with
  | nil => exact h
  | cons fd' fds ih =>
    rcases List.mem_cons.mp h with rfl | hrest
    · exact List.mem_cons_self
    · refine List.mem_cons_of_mem fd' (ih ?_)
      by_cases hused : (s.files.file ⟨s.cur, fd'⟩).used = true
      · rwa [if_pos hused] at hrest
      · rw [if_neg hused] at hrest
        exact absurd hrest List.not_mem_nil

/-- The loops over descriptors begin at 2. -/
theorem inRange_loop {fd : ℕ} (h : fd ∈ List.range' 2 (taskMaxFiles - 2)) :
    InRange (.openFiles fd) := by
  have hbounds := List.mem_range'_1.mp h
  show 0 ≤ (fd : ℤ) ∧ (fd : ℤ) < taskMaxFiles
  rw [taskMaxFiles] at hbounds ⊢
  omega

theorem inRange_syscallOpen (filename : Word) :
    ∀ b ∈ (s.syscallOpen env filename).touched, InRange b := by
  intro b hb
  unfold State.syscallOpen at hb
  cases hdent : env.fs.readDentryByName (s.bytesFrom filename) with
  | none =>
    rw [hdent] at hb
    exact absurd hb List.not_mem_nil
  | some dent =>
    rw [hdent] at hb
    obtain ⟨fd, hfd, rfl⟩ := List.mem_map.mp hb
    exact inRange_loop (mem_tried hfd)

theorem inRange_syscallHalt (status : Word) :
    ∀ b ∈ (s.syscallHalt status).touched, InRange b := by
  intro b hb
  unfold State.syscallHalt at hb
  cases hparent : (s.files.procs.pcbs s.cur).parent with
  | none =>
    rw [hparent] at hb
    exact absurd hb List.not_mem_nil
  | some parent =>
    rw [hparent] at hb
    obtain ⟨fd, hfd, rfl⟩ := List.mem_map.mp hb
    exact inRange_loop hfd

theorem inRange_syscallExecute (s : State) (env : Env) :
    ∀ b ∈ (s.syscallExecute env).touched, InRange b := by
  intro b hb
  unfold State.syscallExecute at hb
  cases hexec : s.files.execute none env.load.isSome with
  | none =>
    rw [hexec] at hb
    exact absurd hb List.not_mem_nil
  | some files =>
    rw [hexec] at hb
    simp only [List.cons_append, List.nil_append, List.mem_cons, List.mem_append] at hb
    obtain rfl | rfl | hfiles | hhandlers := hb
    · exact ⟨by decide, by decide⟩
    · exact ⟨by decide, by decide⟩
    · obtain ⟨fd, hfd, rfl⟩ := List.mem_map.mp hfiles
      exact inRange_loop hfd
    · obtain ⟨signum, hsignum, rfl⟩ := List.mem_map.mp hhandlers
      have hlt := List.mem_range.mp hsignum
      show 0 ≤ (signum : ℤ) ∧ (signum : ℤ) < sigSize
      omega

/-- Nothing is asked for. -/
theorem tight_nil (h : ∀ b ∈ o.touched, InRange b) : Tight s [] o :=
  ⟨h, fun ⟨_, hb, _⟩ => absurd hb List.not_mem_nil⟩

/-- **One call.** -/
theorem tight_call_iff (s : State) (env : Env) (r : Regs) (c : Syscall) :
    Tight s (askedOf r c) (s.call env r c) ↔ ¬ Slips r c := by
  cases c with
  | read => exact iff_of_true ((guarded_syscallRead r.ebx r.ecx r.edx).tight id) id
  | write => exact iff_of_true ((guarded_syscallWrite r.ebx r.ecx r.edx).tight id) id
  | close => exact iff_of_true ((guarded_syscallClose r.ebx).tight id) id
  | setHandler => exact tight_syscallSetHandler_iff r.ebx r.ecx
  | vidmap => exact tight_syscallVidmap_iff r.ebx
  | «open» => exact iff_of_true (tight_nil (inRange_syscallOpen r.ebx)) id
  | halt => exact iff_of_true (tight_nil (inRange_syscallHalt r.ebx)) id
  | execute => exact iff_of_true (tight_nil (inRange_syscallExecute s env)) id
  | getargs | sigreturn | malloc | free =>
    exact iff_of_true (tight_nil fun b hb => absurd hb List.not_mem_nil) id

end call

/-! ## The dispatcher -/

/-- The numbers that are let through are those of the jump table. -/
theorem not_badNumber_iff (eax : Word) :
    ¬ (eax.toInt < 1 ∨ 12 < eax.toInt) ↔ InRange (.jmpTab (eax.toInt - 1)) := by
  show _ ↔ 0 ≤ eax.toInt - 1 ∧ eax.toInt - 1 < 12
  omega

/-- A number that is let through, and its entry of the jump table. -/
theorem syscallOf_eq_some_iff {eax : Word} {c : Syscall} : syscallOf eax = some c ↔
    ¬ (eax.toInt < 1 ∨ 12 < eax.toInt) ∧ syscallJmpTab[(eax - 1).toNat]? = some c := by
  unfold syscallOf
  by_cases hlow : eax.toInt < 1
  · rw [if_pos hlow]
    exact iff_of_false (fun h => nomatch h) fun h => h.1 (Or.inl hlow)
  · by_cases hhigh : 12 < eax.toInt
    · rw [if_neg hlow, if_pos hhigh]
      exact iff_of_false (fun h => nomatch h) fun h => h.1 (Or.inr hhigh)
    · rw [if_neg hlow, if_neg hhigh]
      exact (and_iff_right (not_or.mpr ⟨hlow, hhigh⟩)).symm

theorem toNat_sub_one {eax : Word} (h : ¬ (eax.toInt < 1 ∨ 12 < eax.toInt)) :
    ((eax - 1).toNat : ℤ) = eax.toInt - 1 := by
  rw [BitVec.toInt_eq_toNat_cond] at h ⊢
  have hlt := eax.isLt
  have hone : (1 : Word).toNat = 1 := rfl
  rw [BitVec.toNat_sub, hone]
  omega

theorem exists_syscallOf {eax : Word} (h : ¬ (eax.toInt < 1 ∨ 12 < eax.toInt)) :
    ∃ c, syscallOf eax = some c := by
  have hlength : (eax - 1).toNat < syscallJmpTab.length := by
    have hindex := toNat_sub_one h
    show _ < 12
    omega
  exact ⟨_, syscallOf_eq_some_iff.mpr ⟨h, List.getElem?_eq_getElem hlength⟩⟩

theorem handleSyscall_eq (s : State) (env : Env) {r : Regs} {c : Syscall}
    (hc : syscallOf r.eax = some c) : s.handleSyscall env r =
      ⟨.jmpTab (r.eax.toInt - 1) :: (s.call env r c).touched, (s.call env r c).exit⟩ := by
  obtain ⟨hgood, hentry⟩ := syscallOf_eq_some_iff.mp hc
  have hindex := toNat_sub_one hgood
  obtain ⟨hlow, hhigh⟩ := not_or.mp hgood
  unfold State.handleSyscall
  rw [if_neg hlow, if_neg hhigh]
  simp only [hentry, hindex]

theorem handleSyscall_refuse (s : State) (env : Env) {r : Regs}
    (h : r.eax.toInt < 1 ∨ 12 < r.eax.toInt) : s.handleSyscall env r = s.refuse := by
  unfold State.handleSyscall
  by_cases hlow : r.eax.toInt < 1
  · rw [if_pos hlow]
  · rw [if_neg hlow, if_pos (h.resolve_left hlow)]

theorem syscallOf_eq_none {eax : Word} (h : eax.toInt < 1 ∨ 12 < eax.toInt) :
    syscallOf eax = none :=
  Option.eq_none_iff_forall_ne_some.mpr fun _ hc => (syscallOf_eq_some_iff.mp hc).1 h

/-- The request slips through one of the two checks. -/
theorem tight_handleSyscall_iff (s : State) (env : Env) (r : Regs) :
    Tight s (asked r) (s.handleSyscall env r) ↔ ∀ c, syscallOf r.eax = some c → ¬ Slips r c := by
  by_cases hbad : r.eax.toInt < 1 ∨ 12 < r.eax.toInt
  · rw [handleSyscall_refuse s env hbad, syscallOf_eq_none hbad]
    exact iff_of_true (tight_refuse s _) (fun c hc => nomatch hc)
  · obtain ⟨c, hc⟩ := exists_syscallOf hbad
    have hnumber := (not_badNumber_iff r.eax).mp hbad
    have hforall : (∀ c', syscallOf r.eax = some c' → ¬ Slips r c') ↔ ¬ Slips r c := by
      rw [hc]
      exact ⟨fun h => h c rfl, fun h c' hc' => Option.some.inj hc' ▸ h⟩
    rw [handleSyscall_eq s env hc, hforall, ← tight_call_iff s env r c, asked, hc]
    constructor
    · intro h
      refine ⟨fun a ha => h.inRange a (List.mem_cons_of_mem _ ha), ?_⟩
      rintro ⟨a, ha, hout⟩
      exact h.refused ⟨a, List.mem_cons_of_mem _ ha, hout⟩
    · intro h
      refine ⟨fun a ha => ?_, ?_⟩
      · rcases List.mem_cons.mp ha with rfl | hrest
        · exact hnumber
        · exact h.inRange a hrest
      · rintro ⟨a, ha, hout⟩
        rcases List.mem_cons.mp ha with rfl | hrest
        · exact absurd hnumber hout
        · exact h.refused ⟨a, hrest, hout⟩

/-- Each call has one number. -/
theorem eax_of_syscallOf {eax : Word} {c : Syscall} {i : ℕ} (h : syscallOf eax = some c)
    (hi : i < syscallJmpTab.length) (hc : syscallJmpTab[i]? = some c) :
    eax = BitVec.ofNat 32 i + 1 := by
  have hnodup : syscallJmpTab.Nodup := by decide
  have hentry := (syscallOf_eq_some_iff.mp h).2
  have hindex : i = (eax - 1).toNat := (List.getElem?_inj hi hnodup).mp (hc.trans hentry.symm)
  rw [hindex, BitVec.ofNat_toNat, BitVec.setWidth_eq, sub_add_cancel]

/-- **When the checks are tight.**  In every state, for every number and every value of the argument
registers: nothing is touched out of range, and a request for what is out of range returns -1 and
changes nothing, exactly when the call is neither `set_handler` for signal 5 nor `vidmap` with one of
the last three addresses of the page. -/
theorem tight_iff (s : State) (env : Env) (r : Regs) :
    Tight s (asked r) (s.handleSyscall env r) ↔
      ¬ (r.eax = 9 ∧ r.ebx = 5) ∧ ¬ (r.eax = 8 ∧ 0x83FFFFD ≤ r.ebx ∧ r.ebx < 0x8400000) := by
  rw [tight_handleSyscall_iff]
  constructor
  · intro h
    constructor
    · rintro ⟨heax, hebx⟩
      exact h .setHandler (by rw [heax]; rfl) hebx
    · rintro ⟨heax, hebx⟩
      exact h .vidmap (by rw [heax]; rfl) hebx
  · rintro ⟨hhandler, hvidmap⟩ c hc hslip
    cases c with
    | setHandler =>
      exact hhandler ⟨eax_of_syscallOf (i := 8) hc (by decide) rfl, hslip⟩
    | vidmap => exact hvidmap ⟨eax_of_syscallOf (i := 7) hc (by decide) rfl, hslip⟩
    | _ => exact hslip

/-- The shell of a terminal runs. -/
def shell : State where
  files := Runs.run (Files.step Files.fileAndClock) Files.plainBoot [.tick true 0]
  behind := fun _ _ => 0
  mem := fun _ _ => 0

/-- The handler of signal 5 is stored behind the PCB, and the word that `vidmap` stores three bytes
before the end of the page has its last byte behind it. -/
theorem handler_behind_pcb :
    let env : Env := ⟨Files.fileAndClock, false, none⟩
    let r : Regs := ⟨9, 5, 0x8048000, 0⟩
    let r' : Regs := ⟨8, 0x83FFFFD, 0, 0⟩
    (∃ s', (shell.handleSyscall env r).exit = .returns 0 s' ∧
        shell.behind shell.cur 0 = 0 ∧ s'.behind shell.cur 0 = 0x8048000 ∧
        ¬ Tight shell (asked r) (shell.handleSyscall env r)) ∧
      ∃ s', (shell.handleSyscall env r').exit = .returns taskVidmemStart s' ∧
        shell.mem shell.cur taskVirtPageEnd = 0 ∧ s'.mem shell.cur taskVirtPageEnd = 0x08 ∧
        ¬ Tight shell (asked r') (shell.handleSyscall env r') := by
  intro env r r'
  have hnine : syscallOf 9 = some .setHandler := by decide
  have height : syscallOf 8 = some .vidmap := by decide
  have hr : shell.handleSyscall env r = _ := handleSyscall_eq shell env hnine
  have hr' : shell.handleSyscall env r' = _ := handleSyscall_eq shell env height
  rw [hr, hr']
  refine ⟨⟨_, State.exit_syscallSetHandler 0x8048000 (by decide), rfl,
    State.behind_storeHandler 5 0x8048000 le_rfl, fun h => ?_⟩,
    _, State.exit_syscallVidmap (by decide), rfl, ?_, fun h => ?_⟩
  · have hin : InRange (.signalHandlers 5) := h.inRange _ (List.mem_cons_of_mem _ List.mem_cons_self)
    exact absurd hin.2 (by decide)
  · have hbyte : Memory.storeWord (fun _ => 0) 0x83FFFFD taskVidmemStart taskVirtPageEnd = 0x08 := by
      decide
    simp only [Function.update_self]
    exact hbyte
  · have hin : InRange (.screenStart 0x83FFFFD) :=
      h.inRange _ (List.mem_cons_of_mem _ List.mem_cons_self)
    exact absurd hin.2 (by decide)

end Sys
end CoreOS
