import CoreOS.Files.FdMap
import CoreOS.Files.KbSignals
import CoreOS.Files.ReadBounds
import CoreOS.FileSys.Directory
import CoreOS.FileSys.ReadExtent
import CoreOS.Kernel.Chars
import CoreOS.Lib.Programs
import Mathlib.Data.List.TakeWhile

/-!
# User programs

A user program is a machine that makes system calls.  It runs as a process of the kernel, among other
processes: between two of its calls, and while a call waits, there are interrupts, calls of other
processes, processes that start and end.  `made` is the call of process `pid` that returns at a step
of the kernel, with what it returns and what it stores in the buffer.

The programs here have no signal handlers, so a C-c ends them.  What is said of a program is said of it
as long as the process is not sent one (`Company`); other processes may be, and a step at which one of
them halts is all that the program could notice of it.

What the program finds is its descriptor table, `fdMap`, and nothing but its own calls changes this
table (`Running.other`).  So what a call answers can be told from the table alone, in any company:
`Running.open`, `Running.read_file`, `Running.read_dir`, `Running.write`, `Running.close`.
-/

namespace CoreOS
namespace User

open FileSys Files

/-- A system call.  A buffer to read into matters by whether it is `NULL`, and a buffer to write by its
bytes. -/
inductive Call where
  | open (filename : CStr)
  | close (fd : ℤ)
  | read (fd : ℤ) (buf : Bool) (nbytes : BitVec 32)
  | write (fd : ℤ) (bytes : Option (List (BitVec 8)))
  | execute
  | halt

/-- What a system call returns, and what it has stored in the buffer. -/
structure Answer where
  ret : ℤ
  bytes : List (BitVec 8)

/-- The first `n` bytes of a buffer. -/
def bytesOf (buf : CStr) (n : ℕ) : List (BitVec 8) := (List.range n).map buf

theorem length_bytesOf (buf : CStr) (n : ℕ) : (bytesOf buf n).length = n := by simp [bytesOf]

theorem bytesOf_congr {buf buf' : CStr} {n : ℕ} (h : ∀ i < n, buf i = buf' i) :
    bytesOf buf n = bytesOf buf' n :=
  List.map_congr_left fun i hi => h i (List.mem_range.mp hi)

theorem bytesOf_succ (buf : CStr) (n : ℕ) : bytesOf buf (n + 1) = bytesOf buf n ++ [buf n] := by
  rw [bytesOf, List.range_succ, List.map_append]
  rfl

theorem bytesOf_storeBytes (buf : CStr) {bytes : List (BitVec 8)} {n : ℕ} (hn : n ≤ bytes.length) :
    bytesOf (storeBytes buf bytes) n = bytes.take n := by
  refine List.ext_getElem (by simp [bytesOf, hn]) fun k hk hk' => ?_
  rw [length_bytesOf] at hk
  simp [bytesOf, storeBytes_of_lt (hk.trans_le hn)]

/-- The bytes of a string constant, without the terminating NUL. -/
def literal (s : String) : List (BitVec 8) := s.toList.map ch

/-- A string constant in memory. -/
def constant (s : String) : CStr := fun i => (literal s).getD i 0

/-- The call of `ece391_fdputs (1, ..)` for a string. -/
def fdputs (u : List (BitVec 8)) : Call := .write 1 (some u)

/-- The system call that a step is for process `pid`, if it returns.  A process that starts another one,
or ends, is out of sight: its call is known, and its answer is not. -/
def returned (fs : Image) (pid : ℕ) (s : State) : Op → Option (Call × Answer)
  | .open filename => (s.syscallOpen fs pid filename).map fun r => (.open filename, ⟨r.1, []⟩)
  | .close fd => some (.close fd, ⟨(s.syscallClose pid fd).1, []⟩)
  | .read fd buf nbytes canon =>
    (s.syscallRead fs pid fd buf nbytes canon).map fun r => (.read fd buf nbytes, ⟨r.1, r.2.1⟩)
  | .write fd buf nbytes => some (.write fd (buf.map fun b => bytesOf b nbytes.toNat),
      ⟨(s.syscallWrite pid fd buf nbytes).1, []⟩)
  | .execute _ => some (.execute, ⟨0, []⟩)
  | .halt => some (.halt, ⟨0, []⟩)
  | .tick _ _ => none
  | .rtcIsr => none
  | .term _ => none

/-- The system call of process `pid` that returns at a step. -/
def made (fs : Image) (pid : ℕ) (s : State) (o : Op) : Option (Call × Answer) :=
  if s.procs.cur = pid then returned fs pid s o else none

/-- What process `pid` writes to its terminal at a step. -/
def shown (pid : ℕ) (s : State) : Op → List (BitVec 8)
  | .write fd (some buf) nbytes =>
    if s.procs.cur = pid ∧ 0 ≤ fd ∧ fdMap s pid fd.toNat = some .stdout then bytesOf buf nbytes.toNat
    else []
  | _ => []

/-- Process `pid` is in use and has not been sent a C-c, and the open files of all processes are in
order. -/
structure Running (s : State) (pid : ℕ) : Prop where
  inv : Inv s
  live : Live s pid
  unsignalled : Unsignalled s pid

/-- A descriptor that is given out is one from 2 on that is free. -/
theorem leastFree_spec {m : FdMap} {fd : ℕ} (h : m.leastFree = some fd) :
    2 ≤ fd ∧ fd < taskMaxFiles ∧ m fd = none := by
  have hmem := List.mem_range'_1.mp (List.mem_of_find?_eq_some h)
  have hnone := List.find?_some h
  refine ⟨hmem.1, ?_, Option.isNone_iff_eq_none.mp hnone⟩
  have hlt := hmem.2
  rw [taskMaxFiles] at hlt ⊢
  omega

section running

variable {fs : Image} {s : State} {pid : ℕ} {o : Op} {a : Answer}

theorem made_of_cur (hcur : s.procs.cur = pid) : made fs pid s o = returned fs pid s o := if_pos hcur

/-- **A process stays in use** until it halts. -/
theorem Running.live_step (h : Running s pid) (ho : Promised fs s o)
    (hhalt : o = .halt → s.procs.cur ≠ pid) : Live (step fs s o) pid := by
  have hsame : ∀ {s' : State}, s'.procs = s.procs → Live s' pid := by
    intro s' hprocs
    rw [Live, hprocs]
    exact h.live
  cases o with
  | «open» filename =>
    rw [step]
    obtain ⟨-, heq⟩ | ⟨dent, fd, s', -, -, heq, hat⟩ :=
      h.inv.syscallOpen_cases fs s.procs.cur filename ho.2
    · rw [heq]
      exact h.live
    · rw [heq]
      exact hsame hat.procs_eq
  | close fd =>
    rw [step]
    obtain ⟨-, heq⟩ | ⟨-, -, heq⟩ := h.inv.syscallClose_cases (h.inv.live_cur ho) fd
    · rw [heq]
      exact h.live
    · rw [heq]
      exact h.live
  | read fd buf nbytes canon =>
    rw [step]
    cases hread : s.syscallRead fs s.procs.cur fd buf nbytes canon with
    | none => exact h.live
    | some r => exact hsame (frame_syscallRead hread).procs_eq
  | write fd buf nbytes => exact hsame (h.inv.quiet_syscallWrite s.procs.cur fd buf nbytes).procs_eq
  | execute loads =>
    rw [step]
    cases hexec : s.execute none loads with
    | none => exact h.live
    | some s' =>
      obtain ⟨p, -, hstart⟩ := started_of_execute hexec
      exact (hstart.live pid).mpr (Or.inr h.live)
  | halt =>
    rw [step]
    cases hparent : (s.procs.pcbs s.procs.cur).parent with
    | none =>
      rw [halt_of_root hparent]
      exact h.live
    | some parent => exact ((h.inv.ended_halt ho hparent).live pid).mpr ⟨h.live, (hhalt rfl).symm⟩
  | tick loads nextPid =>
    rw [step]
    obtain ⟨-, ⟨-, hused⟩ | ⟨p, -, hstart⟩⟩ := pitIsr_cases s loads nextPid
    · rw [Live, hused]
      exact h.live
    · exact (hstart.live pid).mpr (Or.inr h.live)
  | rtcIsr => exact hsame (h.inv.quiet_rtcIsr s.procs.cur).procs_eq
  | term o =>
    rw [step]
    exact h.live

/-- A call of the process that does not return leaves everything as it is. -/
theorem step_of_waiting (hcur : s.procs.cur = pid) (hmade : made fs pid s o = none) :
    step fs s o = s ∨ ∀ m : FdMap, m.after fs o = m := by
  rw [made_of_cur hcur] at hmade
  cases o with
  | «open» filename =>
    rw [returned, Option.map_eq_none_iff] at hmade
    rw [step, hcur, hmade]
    exact Or.inl rfl
  | close fd => cases hmade
  | read fd buf nbytes canon =>
    rw [returned, Option.map_eq_none_iff] at hmade
    rw [step, hcur, hmade]
    exact Or.inl rfl
  | write fd buf nbytes => cases hmade
  | execute loads => cases hmade
  | halt => cases hmade
  | tick loads nextPid => exact Or.inr fun m => rfl
  | rtcIsr => exact Or.inr fun m => rfl
  | term o => exact Or.inr fun m => rfl

theorem shown_of_made_none (hmade : made fs pid s o = none) : shown pid s o = [] := by
  cases o with
  | write fd buf nbytes =>
    have hcur : s.procs.cur ≠ pid := by
      intro hcur
      rw [made_of_cur hcur] at hmade
      cases hmade
    cases buf with
    | none => rfl
    | some buf => exact if_neg fun h => hcur h.1
  | _ => rfl

/-- **A step in which no call of the process returns** is none that the process could notice. -/
theorem Running.other (h : Running s pid) (ho : Promised fs s o) (hspared : ¬ Interrupts pid s o)
    (hmade : made fs pid s o = none) :
    Running (step fs s o) pid ∧ fdMap (step fs s o) pid = fdMap s pid ∧ shown pid s o = [] := by
  have hhalt : o = .halt → s.procs.cur ≠ pid := by
    rintro rfl hcur
    rw [made_of_cur hcur] at hmade
    cases hmade
  refine ⟨⟨inv_step fs h.inv o ho, h.live_step ho hhalt, unsignalled_step fs h.unsignalled hspared⟩, ?_,
    shown_of_made_none hmade⟩
  by_cases hcur : s.procs.cur = pid
  · rcases step_of_waiting hcur hmade with hsame | hafter
    · rw [hsame]
    · rw [fdMap_step h.inv ho h.live, hafter, ite_self]
  · rw [fdMap_step h.inv ho h.live, if_neg (Ne.symm hcur)]

/-- A call that is answered is one of the running process. -/
theorem cur_of_made {c : Call} (hmade : made fs pid s o = some (c, a)) : s.procs.cur = pid := by
  by_contra hcur
  rw [made, if_neg hcur] at hmade
  cases hmade

/-! ## What the calls answer -/

theorem made_open {filename : CStr} (hmade : made fs pid s o = some (.open filename, a)) :
    o = .open filename ∧ ∃ s', s.syscallOpen fs pid filename = some (a.ret, s') := by
  rw [made_of_cur (cur_of_made hmade)] at hmade
  cases o with
  | «open» filename' =>
    obtain ⟨⟨ret, s'⟩, hopen, heq⟩ := Option.map_eq_some_iff.mp hmade
    cases heq
    exact ⟨rfl, s', hopen⟩
  | read fd buf nbytes canon =>
    obtain ⟨r, -, heq⟩ := Option.map_eq_some_iff.mp hmade
    cases heq
  | _ => cases hmade

theorem made_read {fd : ℤ} {buf : Bool} {nbytes : BitVec 32}
    (hmade : made fs pid s o = some (.read fd buf nbytes, a)) :
    ∃ canon s', o = .read fd buf nbytes canon ∧
      s.syscallRead fs pid fd buf nbytes canon = some (a.ret, a.bytes, s') := by
  rw [made_of_cur (cur_of_made hmade)] at hmade
  cases o with
  | «open» filename =>
    obtain ⟨r, -, heq⟩ := Option.map_eq_some_iff.mp hmade
    cases heq
  | read fd' buf' nbytes' canon =>
    obtain ⟨⟨ret, bytes, s'⟩, hread, heq⟩ := Option.map_eq_some_iff.mp hmade
    cases heq
    exact ⟨canon, s', rfl, hread⟩
  | _ => cases hmade

theorem made_write {fd : ℤ} {bytes : Option (List (BitVec 8))}
    (hmade : made fs pid s o = some (.write fd bytes, a)) :
    ∃ buf nbytes, o = .write fd buf nbytes ∧ bytes = buf.map (fun b => bytesOf b nbytes.toNat) ∧
      a.ret = (s.syscallWrite pid fd buf nbytes).1 := by
  rw [made_of_cur (cur_of_made hmade)] at hmade
  cases o with
  | «open» filename =>
    obtain ⟨r, -, heq⟩ := Option.map_eq_some_iff.mp hmade
    cases heq
  | read fd' buf nbytes canon =>
    obtain ⟨r, -, heq⟩ := Option.map_eq_some_iff.mp hmade
    cases heq
  | write fd' buf nbytes =>
    cases hmade
    exact ⟨buf, nbytes, rfl, rfl, rfl⟩
  | _ => cases hmade

theorem made_close {fd : ℤ} (hmade : made fs pid s o = some (.close fd, a)) :
    o = .close fd ∧ a.ret = (s.syscallClose pid fd).1 := by
  rw [made_of_cur (cur_of_made hmade)] at hmade
  cases o with
  | «open» filename =>
    obtain ⟨r, -, heq⟩ := Option.map_eq_some_iff.mp hmade
    cases heq
  | read fd' buf nbytes canon =>
    obtain ⟨r, -, heq⟩ := Option.map_eq_some_iff.mp hmade
    cases heq
  | close fd' =>
    cases hmade
    exact ⟨rfl, rfl⟩
  | _ => cases hmade

/-- A call is no key. -/
theorem not_interrupts_of_made {c : Call} (hmade : made fs pid s o = some (c, a)) :
    ¬ Interrupts pid s o := by
  cases o with
  | term o =>
    rw [made_of_cur (cur_of_made hmade)] at hmade
    cases hmade
  | _ => exact id

/-- The process after one of its calls, other than the last one. -/
theorem Running.call (h : Running s pid) (ho : Promised fs s o) {c : Call} (hc : c ≠ .halt)
    (hmade : made fs pid s o = some (c, a)) :
    Running (step fs s o) pid ∧ fdMap (step fs s o) pid = (fdMap s pid).after fs o := by
  have hcur := cur_of_made hmade
  refine ⟨⟨inv_step fs h.inv o ho, h.live_step ho ?_,
    unsignalled_step fs h.unsignalled (not_interrupts_of_made hmade)⟩, ?_⟩
  · rintro rfl
    rw [made_of_cur hcur] at hmade
    cases hmade
    exact absurd rfl hc
  · rw [fdMap_step h.inv ho h.live, if_pos hcur.symm]

/-- **`open`** gives the least free descriptor for a file that exists. -/
theorem Running.open (h : Running s pid) (ho : Promised fs s o) {filename : CStr}
    (hmade : made fs pid s o = some (.open filename, a)) {dent : Dentry}
    (hname : fs.readDentryByName filename = some dent) {fd : ℕ}
    (hfd : (fdMap s pid).leastFree = some fd) :
    Running (step fs s o) pid ∧ a.ret = fd ∧
      fdMap (step fs s o) pid = Function.update (fdMap s pid) fd (some (Entry.ofDentry dent)) ∧
      shown pid s o = [] := by
  obtain ⟨hrun, hmap⟩ := h.call ho (fun h => Call.noConfusion h) hmade
  obtain ⟨rfl, s', hopen⟩ := made_open hmade
  refine ⟨hrun, ?_, ?_, rfl⟩
  · obtain ⟨hfail, -⟩ | ⟨dent', fd', s'', -, hfd', heq, -⟩ :=
      h.inv.syscallOpen_cases fs pid filename ho.2
    · rw [freeFd_eq, hfd, hname] at hfail
      rcases hfail with hfail | hfail <;> cases hfail
    · rw [freeFd_eq, hfd] at hfd'
      rw [hopen] at heq
      cases hfd'
      exact congrArg Prod.fst (Option.some.inj heq)
  · rw [hmap, FdMap.after, hname, hfd]

/-- Without such a file or without a free descriptor `open` fails. -/
theorem Running.open_fails (h : Running s pid) (ho : Promised fs s o) {filename : CStr}
    (hmade : made fs pid s o = some (.open filename, a))
    (hfail : fs.readDentryByName filename = none ∨ (fdMap s pid).leastFree = none) :
    Running (step fs s o) pid ∧ a.ret = -1 ∧ fdMap (step fs s o) pid = fdMap s pid ∧
      shown pid s o = [] := by
  obtain ⟨hrun, hmap⟩ := h.call ho (fun h => Call.noConfusion h) hmade
  obtain ⟨rfl, s', hopen⟩ := made_open hmade
  refine ⟨hrun, ?_, ?_, rfl⟩
  · obtain ⟨-, heq⟩ | ⟨dent', fd', s'', hname', hfd', -, -⟩ :=
      h.inv.syscallOpen_cases fs pid filename ho.2
    · rw [hopen] at heq
      exact congrArg Prod.fst (Option.some.inj heq)
    · rw [freeFd_eq] at hfd'
      rw [hname', hfd'] at hfail
      rcases hfail with hfail | hfail <;> cases hfail
  · rw [hmap, FdMap.after]
    rcases hfail with hfail | hfail
    · rw [hfail]
    · rw [hfail]
      cases fs.readDentryByName filename <;> rfl

/-- What a read through an open descriptor answers is up to the operations behind it. -/
theorem opsRead_of_made {fd : ℕ} {e : Entry} (hentry : fdMap s pid fd = some e) {nbytes : BitVec 32}
    (hmade : made fs pid s o = some (.read fd true nbytes, a)) :
    ∃ canon s', o = .read fd true nbytes canon ∧
      s.opsRead fs ⟨pid, fd⟩ nbytes canon = some (a.ret, a.bytes, s') ∧
      entryOf (s.file ⟨pid, fd⟩) = e := by
  obtain ⟨canon, s', rfl, hread⟩ := made_read hmade
  unfold fdMap at hentry
  split_ifs at hentry with hopen
  unfold State.syscallRead at hread
  rw [if_neg (by decide), if_neg (by rw [taskMaxFiles] at *; omega), Int.toNat_natCast,
    if_neg (by rw [hopen.2]; decide)] at hread
  exact ⟨canon, s', rfl, hread, Option.some.inj hentry⟩

/-- **`read`** of a regular file. -/
theorem Running.read_file (h : Running s pid) (ho : Promised fs s o) {fd : ℕ}
    {inode pos nbytes : BitVec 32} (hentry : fdMap s pid fd = some (.file inode pos))
    (hmade : made fs pid s o = some (.read fd true nbytes, a)) :
    Running (step fs s o) pid ∧ a.ret = (fs.readData inode pos nbytes).ret ∧
      a.bytes = (fs.readData inode pos nbytes).buf ∧
      fdMap (step fs s o) pid = Function.update (fdMap s pid) fd
        (some (.file inode (pos + BitVec.ofInt 32 (fs.readData inode pos nbytes).ret))) ∧
      shown pid s o = [] := by
  obtain ⟨hrun, hmap⟩ := h.call ho (fun h => Call.noConfusion h) hmade
  obtain ⟨canon, s', rfl, hread, heq⟩ := opsRead_of_made hentry hmade
  have hops : (s.file ⟨pid, fd⟩).fileOps = .file := fileOps_of_fdMap hentry
  rw [entryOf, hops] at heq
  injection heq with hinode hpos
  simp only [State.opsRead, hops, Image.fsFileRead, hinode, hpos, Option.some.injEq,
    Prod.mk.injEq] at hread
  refine ⟨hrun, hread.1.symm, hread.2.1.symm, ?_, rfl⟩
  rw [hmap, FdMap.after, if_pos ⟨Int.natCast_nonneg fd, rfl⟩, Int.toNat_natCast, hentry]
  rfl

/-- **`read`** of a directory. -/
theorem Running.read_dir (h : Running s pid) (ho : Promised fs s o) {fd : ℕ}
    {inode pos nbytes : BitVec 32} (hentry : fdMap s pid fd = some (.dir inode pos))
    (hmade : made fs pid s o = some (.read fd true nbytes, a)) :
    Running (step fs s o) pid ∧ shown pid s o = [] ∧
      match fs.readDentryByIndex pos with
      | none => a.ret = 0 ∧ a.bytes = [] ∧ fdMap (step fs s o) pid = fdMap s pid
      | some dent => a.ret = fnLength (strncpy (fun _ => 0) dent.filename maxNameLength) ∧
          a.bytes = bytesOf (strncpy (fun _ => 0) dent.filename maxNameLength) maxNameLength ∧
          fdMap (step fs s o) pid = Function.update (fdMap s pid) fd (some (.dir inode (pos + 1))) := by
  obtain ⟨hrun, hmap⟩ := h.call ho (fun h => Call.noConfusion h) hmade
  obtain ⟨canon, s', rfl, hread, heq⟩ := opsRead_of_made hentry hmade
  have hops : (s.file ⟨pid, fd⟩).fileOps = .dir := fileOps_of_fdMap hentry
  rw [entryOf, hops] at heq
  injection heq with hinode hpos
  rw [FdMap.after, if_pos ⟨Int.natCast_nonneg fd, rfl⟩, Int.toNat_natCast, hentry, Option.map_some,
    Entry.afterRead] at hmap
  refine ⟨hrun, rfl, ?_⟩
  cases hindex : fs.readDentryByIndex pos with
  | none =>
    simp only [State.opsRead, hops, Image.fsDirRead, hpos, hindex, Option.some.injEq,
      Prod.mk.injEq] at hread
    refine ⟨hread.1.symm, hread.2.1.symm, ?_⟩
    rw [hmap, hindex]
    exact Function.update_eq_self_iff.mpr hentry.symm
  | some dent =>
    simp only [State.opsRead, hops, Image.fsDirRead, hpos, hindex, Option.some.injEq,
      Prod.mk.injEq] at hread
    refine ⟨hread.1.symm, hread.2.1.symm, ?_⟩
    rw [hmap, hindex]
    rfl

/-- **`read`** of a clock gives nothing. -/
theorem Running.read_rtc (h : Running s pid) (ho : Promised fs s o) {fd : ℕ} {nbytes : BitVec 32}
    (hentry : fdMap s pid fd = some .rtc)
    (hmade : made fs pid s o = some (.read fd true nbytes, a)) :
    a.ret = 0 ∧ a.bytes = [] ∧ fdMap (step fs s o) pid = fdMap s pid ∧ shown pid s o = [] := by
  obtain ⟨-, hmap⟩ := h.call ho (fun h => Call.noConfusion h) hmade
  obtain ⟨canon, s', rfl, hread, -⟩ := opsRead_of_made hentry hmade
  have hops : (s.file ⟨pid, fd⟩).fileOps = .rtc := fileOps_of_fdMap hentry
  simp only [State.opsRead, hops] at hread
  obtain ⟨r, hr, heq⟩ := Option.map_eq_some_iff.mp hread
  injection heq with hret hbytes
  injection hbytes with hbytes
  refine ⟨?_, hbytes.symm, ?_, rfl⟩
  · rw [← hret]
    unfold Rtc.Driver.rtcRead at hr
    dsimp only at hr
    split_ifs at hr
    cases hr
    rfl
  · rw [hmap, FdMap.after, if_pos ⟨Int.natCast_nonneg fd, rfl⟩, Int.toNat_natCast, hentry]
    exact Function.update_eq_self_iff.mpr hentry.symm

/-- **`write`** to the terminal succeeds, and changes nothing that the process knows of. -/
theorem Running.write (h : Running s pid) (ho : Promised fs s o) {bytes : List (BitVec 8)}
    (hlen : bytes.length < 2 ^ 31) (hmade : made fs pid s o = some (.write 1 (some bytes), a)) :
    Running (step fs s o) pid ∧ a.ret = bytes.length ∧ fdMap (step fs s o) pid = fdMap s pid ∧
      shown pid s o = bytes := by
  obtain ⟨hrun, hmap⟩ := h.call ho (fun h => Call.noConfusion h) hmade
  obtain ⟨buf, nbytes, rfl, hbuf, hret⟩ := made_write hmade
  obtain ⟨hused, hops⟩ := h.inv.stdout pid h.live
  cases buf with
  | none => cases hbuf
  | some buf =>
    obtain rfl : bytes = bytesOf buf nbytes.toNat := Option.some.inj hbuf
    have hstdout : fdMap s pid 1 = some .stdout := by
      rw [fdMap, if_pos ⟨by decide, hused⟩, entryOf, hops]
    have hlength : (bytesOf buf nbytes.toNat).length = nbytes.toNat := by
      rw [bytesOf, List.length_map, List.length_range]
    refine ⟨hrun, ?_, hmap, if_pos ⟨cur_of_made hmade, by decide, hstdout⟩⟩
    rw [hlength] at hlen ⊢
    rw [hret, State.syscallWrite, if_neg (by decide)]
    have hone : (1 : ℤ).toNat = 1 := rfl
    rw [hone, if_neg (by rw [hused]; decide), State.opsWrite, hops]
    exact BitVec.toInt_eq_toNat_of_lt (by omega)

/-- **`close`** of a descriptor from 2 on that is open. -/
theorem Running.close (h : Running s pid) (ho : Promised fs s o) {fd : ℕ} (hge : 2 ≤ fd)
    (hlt : fd < taskMaxFiles) (hopen : fdMap s pid fd ≠ none)
    (hmade : made fs pid s o = some (.close fd, a)) :
    Running (step fs s o) pid ∧ a.ret = 0 ∧
      fdMap (step fs s o) pid = Function.update (fdMap s pid) fd none ∧ shown pid s o = [] := by
  obtain ⟨hrun, hmap⟩ := h.call ho (fun h => Call.noConfusion h) hmade
  obtain ⟨rfl, hret⟩ := made_close hmade
  obtain ⟨s', hclose, -, -⟩ := (h.inv.actsAsMap fs h.live).close_frees fd hge hlt hopen
  refine ⟨hrun, ?_, ?_, rfl⟩
  · rw [hret, hclose]
  · rw [hmap, FdMap.after, if_pos (by omega), Int.toNat_natCast]

/-- What a process writes to its terminal is given to the terminal as it is. -/
theorem terms_of_write {buf : CStr} {fd : ℤ} {nbytes : BitVec 32}
    (h : shown pid s (.write fd (some buf) nbytes) ≠ []) :
    (step fs s (.write fd (some buf) nbytes)).terms =
      s.terms.termWrite (s.procs.pcbs pid).termInd (shown pid s (.write fd (some buf) nbytes)) := by
  rw [shown] at h ⊢
  split_ifs at h ⊢ with hopen
  · obtain ⟨hcur, hfd, hentry⟩ := hopen
    have hops : (s.file ⟨pid, fd.toNat⟩).fileOps = .stdout := fileOps_of_fdMap hentry
    have hrange : fd.toNat < taskMaxFiles ∧ (s.file ⟨pid, fd.toNat⟩).used = true := by
      by_contra hclosed
      rw [fdMap, if_neg hclosed] at hentry
      cases hentry
    rw [step, hcur, State.syscallWrite, if_neg (by rw [taskMaxFiles] at *; omega),
      if_neg (by rw [hrange.2]; decide), State.opsWrite, hops]
    rfl
  · exact absurd rfl h

/-! ## Calls that do not wait -/

theorem Running.pid_ne_zero (h : Running s pid) : pid ≠ 0 := by
  obtain ⟨stk, hstk⟩ := h.inv.stacked
  obtain ⟨t, hmem⟩ := hstk.used pid h.live
  have hvalid := (hstk.valid t pid hmem).1
  omega

/-- Only `execute` and `halt` give the processor to another process. -/
theorem Running.procs_call (h : Running s pid) (ho : Promised fs s o) {c : Call} (hexec : c ≠ .execute)
    (hhalt : c ≠ .halt) (hmade : made fs pid s o = some (c, a)) : (step fs s o).procs = s.procs := by
  rw [made_of_cur (cur_of_made hmade)] at hmade
  cases o with
  | «open» filename =>
    rw [step]
    obtain ⟨-, heq⟩ | ⟨dent, fd, s', -, -, heq, hat⟩ :=
      h.inv.syscallOpen_cases fs s.procs.cur filename ho.2
    · rw [heq]
      rfl
    · rw [heq]
      exact hat.procs_eq
  | close fd =>
    rw [step]
    obtain ⟨-, heq⟩ | ⟨-, -, heq⟩ := h.inv.syscallClose_cases (h.inv.live_cur ho) fd
    · rw [heq]
    · rw [heq]
      rfl
  | read fd buf nbytes canon =>
    rw [step]
    cases hread : s.syscallRead fs s.procs.cur fd buf nbytes canon with
    | none => rfl
    | some r => exact (frame_syscallRead hread).procs_eq
  | write fd buf nbytes => exact (h.inv.quiet_syscallWrite s.procs.cur fd buf nbytes).procs_eq
  | execute loads =>
    cases hmade
    exact absurd rfl hexec
  | halt =>
    cases hmade
    exact absurd rfl hhalt
  | _ => cases hmade

theorem Running.open_answered (h : Running s pid) (hcur : s.procs.cur = pid) {filename : CStr}
    (hrtc : ∀ dent, fs.readDentryByName filename = some dent → dent.filetype ≠ fileTypeRtc) :
    ∃ o a, Promised fs s o ∧ made fs pid s o = some (.open filename, a) := by
  have hroom : ∀ dent, fs.readDentryByName filename = some dent → dent.filetype = fileTypeRtc →
      (openRtcs s).length < maxProcNum := by
    intro dent hname htype
    exact absurd htype (hrtc dent hname)
  have hreturns : ∃ r, s.syscallOpen fs pid filename = some r := by
    obtain ⟨-, heq⟩ | ⟨dent, fd, s', -, -, heq, -⟩ := h.inv.syscallOpen_cases fs pid filename hroom
    · exact ⟨_, heq⟩
    · exact ⟨_, heq⟩
  obtain ⟨r, hr⟩ := hreturns
  refine ⟨.open filename, ⟨r.1, []⟩, ⟨by rw [hcur]; exact h.pid_ne_zero, hroom⟩, ?_⟩
  rw [made_of_cur hcur, returned, hr]
  rfl

/-- A read of a regular file or of a directory does not wait. -/
theorem Running.read_answered (h : Running s pid) (hcur : s.procs.cur = pid) {fd : ℕ}
    {inode pos : BitVec 32}
    (hentry : fdMap s pid fd = some (.file inode pos) ∨ fdMap s pid fd = some (.dir inode pos))
    (nbytes : BitVec 32) :
    ∃ o a, Promised fs s o ∧ made fs pid s o = some (.read fd true nbytes, a) := by
  have hopen : fd < taskMaxFiles ∧ (s.file ⟨pid, fd⟩).used = true := by
    by_contra hclosed
    rw [fdMap, if_neg hclosed] at hentry
    rcases hentry with hentry | hentry <;> cases hentry
  have hreturns : ∃ r, s.syscallRead fs pid fd true nbytes true = some r := by
    unfold State.syscallRead
    rw [if_neg (by decide), if_neg (by have := hopen.1; omega), Int.toNat_natCast,
      if_neg (by rw [hopen.2]; decide), State.opsRead]
    rcases hentry with hentry | hentry
    · rw [show (s.file ⟨pid, fd⟩).fileOps = .file from fileOps_of_fdMap hentry]
      exact ⟨_, rfl⟩
    · rw [show (s.file ⟨pid, fd⟩).fileOps = .dir from fileOps_of_fdMap hentry]
      exact ⟨_, rfl⟩
  obtain ⟨r, hr⟩ := hreturns
  refine ⟨.read fd true nbytes true, ⟨r.1, r.2.1⟩, by rw [Promised, hcur]; exact h.pid_ne_zero, ?_⟩
  rw [made_of_cur hcur, returned, hr]
  rfl

theorem Running.write_answered (h : Running s pid) (hcur : s.procs.cur = pid) (fd : ℤ)
    {bytes : List (BitVec 8)} (hlen : bytes.length < 2 ^ 32) :
    ∃ o a, Promised fs s o ∧ made fs pid s o = some (.write fd (some bytes), a) := by
  obtain ⟨buf, nbytes, rfl⟩ : ∃ buf nbytes, bytes = bytesOf buf ((nbytes : BitVec 32).toNat) := by
    refine ⟨fun i => bytes.getD i 0, BitVec.ofNat 32 bytes.length, ?_⟩
    rw [BitVec.toNat_ofNat, Nat.mod_eq_of_lt hlen]
    refine List.ext_getElem (by simp [bytesOf]) fun k hk hk' => ?_
    simp [bytesOf, hk]
  refine ⟨.write fd (some buf) nbytes, ⟨(s.syscallWrite pid fd (some buf) nbytes).1, []⟩, ?_, ?_⟩
  · rw [Promised, hcur]
    exact h.pid_ne_zero
  · rw [made_of_cur hcur, returned, Option.map_some]

theorem Running.close_answered (h : Running s pid) (hcur : s.procs.cur = pid) (fd : ℤ) :
    ∃ o a, Promised fs s o ∧ made fs pid s o = some (.close fd, a) := by
  refine ⟨.close fd, ⟨(s.syscallClose pid fd).1, []⟩, ?_, made_of_cur hcur⟩
  rw [Promised, hcur]
  exact h.pid_ne_zero

end running

/-! ## A program as a process -/

/-- What may happen around process `pid`: what the kernel can do, but no C-c for the process. -/
structure Company (fs : Image) (pid : ℕ) (s : State) (o : Op) : Prop where
  promised : Promised fs s o
  spared : ¬ Interrupts pid s o

/-- From the state `s` on, in which the program is in its state `p`, process `pid` runs the program.
`ops` is everything that happens. -/
def Follows {π : Type*} (P : Program Call Answer π) (fs : Image) (pid : ℕ) (s : State) (p : π)
    (ops : List Op) : Prop :=
  Runs.Meets (P.jointStep (step fs) (made fs pid))
    (fun x o => Company fs pid x.1 o ∧ P.Obeys (made fs pid) x o) (s, p) ops

/-- The kernel and the program at the end. -/
def after {π : Type*} (P : Program Call Answer π) (fs : Image) (pid : ℕ) (s : State) (p : π)
    (ops : List Op) : State × π :=
  Runs.run (P.jointStep (step fs) (made fs pid)) (s, p) ops

/-- All that the process has written to its terminal. -/
def printed {π : Type*} (P : Program Call Answer π) (fs : Image) (pid : ℕ) (s : State) (p : π)
    (ops : List Op) : List (BitVec 8) :=
  Runs.collect (P.jointStep (step fs) (made fs pid)) (fun x o => shown pid x.1 o) (s, p) ops

/-- The number of its system calls that have returned. -/
def calls {π : Type*} (P : Program Call Answer π) (fs : Image) (pid : ℕ) (s : State) (p : π)
    (ops : List Op) : ℕ :=
  Runs.occurrences (P.jointStep (step fs) (made fs pid)) (fun x o => (made fs pid x.1 o).isSome)
    (s, p) ops

/-- What a program that does not start another one is proved right by: a relation `J` between its
descriptor table, its state and what it has written, and the number `μ` of calls still to come at most. -/
structure Keeps {π : Type*} (P : Program Call Answer π) (fs : Image) (pid : ℕ)
    (J : FdMap → π → List (BitVec 8) → Prop) (μ : FdMap → π → ℕ) : Prop where
  stays : ∀ {p : π} {c : Call}, P.call p = some c → c ≠ .execute ∧ c ≠ .halt
  call : ∀ {s : State} {p : π} {l : List (BitVec 8)} {o : Op} {c : Call} {a : Answer},
    Running s pid → J (fdMap s pid) p l → Promised fs s o → made fs pid s o = some (c, a) →
    P.call p = some c →
      J (fdMap (step fs s o) pid) (P.resume p a) (l ++ shown pid s o) ∧
        μ (fdMap (step fs s o) pid) (P.resume p a) < μ (fdMap s pid) p

/-- The program never waits: when it has the processor, its call returns. -/
def NeverWaits {π : Type*} (P : Program Call Answer π) (fs : Image) (pid : ℕ)
    (J : FdMap → π → List (BitVec 8) → Prop) : Prop :=
  ∀ {s : State} {p : π} {l : List (BitVec 8)} {c : Call},
    Running s pid → J (fdMap s pid) p l → s.procs.cur = pid → P.call p = some c →
      ∃ o a, Promised fs s o ∧ made fs pid s o = some (c, a)

namespace Keeps

variable {π : Type*} {P : Program Call Answer π} {fs : Image} {pid : ℕ}
  {J : FdMap → π → List (BitVec 8) → Prop} {μ : FdMap → π → ℕ} {s : State} {p : π} {ops : List Op}

/-- **In any company** the program keeps what it is proved right by. -/
theorem run (h : Keeps P fs pid J μ) (hrun : Running s pid) (hJ : J (fdMap s pid) p [])
    (hops : Follows P fs pid s p ops) :
    Running (after P fs pid s p ops).1 pid ∧
      J (fdMap (after P fs pid s p ops).1 pid) (after P fs pid s p ops).2
        (printed P fs pid s p ops) :=
  P.invariant (I := fun s p l => Running s pid ∧ J (fdMap s pid) p l) (l := [])
    (fun s p l o hI ho hmade => by
      obtain ⟨hrun', hmap, hshown⟩ := hI.1.other ho.promised ho.spared hmade
      rw [hmap, hshown, List.append_nil]
      exact ⟨hrun', hI.2⟩)
    (fun s p l o c a hI ho hmade hc =>
      ⟨(hI.1.call ho.promised (h.stays hc).2 hmade).1, (h.call hI.1 hI.2 ho.promised hmade hc).1⟩)
    ⟨hrun, hJ⟩ hops

theorem calls_le (h : Keeps P fs pid J μ) (hrun : Running s pid) (hJ : J (fdMap s pid) p [])
    (hops : Follows P fs pid s p ops) : calls P fs pid s p ops ≤ μ (fdMap s pid) p := by
  have hcalls := P.calls_le (I := fun s p => Running s pid ∧ ∃ l, J (fdMap s pid) p l)
    (μ := fun s p => μ (fdMap s pid) p)
    (fun s p o ⟨hrun, l, hJ⟩ ho hmade => by
      obtain ⟨hrun', hmap, -⟩ := hrun.other ho.promised ho.spared hmade
      rw [hmap]
      exact ⟨⟨hrun', l, hJ⟩, Nat.le_refl _⟩)
    (fun s p o c a ⟨hrun, l, hJ⟩ ho hmade hc =>
      ⟨⟨(hrun.call ho.promised (h.stays hc).2 hmade).1, _, (h.call hrun hJ ho.promised hmade hc).1⟩,
        (h.call hrun hJ ho.promised hmade hc).2⟩) ⟨hrun, [], hJ⟩ hops
  exact (Nat.le_add_right _ _).trans hcalls

/-- A process that has the processor can run the program to its end. -/
theorem ends (h : Keeps P fs pid J μ) (hanswered : NeverWaits P fs pid J) (hrun : Running s pid)
    (hcur : s.procs.cur = pid) (hJ : J (fdMap s pid) p []) :
    ∃ ops, Follows P fs pid s p ops ∧ P.call (after P fs pid s p ops).2 = none := by
  refine P.ends (I := fun s p => s.procs.cur = pid ∧ Running s pid ∧ ∃ l, J (fdMap s pid) p l)
    (μ := fun s p => μ (fdMap s pid) p) ?_ ⟨hcur, hrun, [], hJ⟩
  rintro s p c ⟨hcur, hrun, l, hJ⟩ hc
  obtain ⟨o, a, ho, hmade⟩ := hanswered hrun hJ hcur hc
  obtain ⟨hJ', hμ⟩ := h.call hrun hJ ho hmade hc
  have hprocs := hrun.procs_call ho (h.stays hc).1 (h.stays hc).2 hmade
  exact ⟨o, a, ⟨ho, not_interrupts_of_made hmade⟩, hmade,
    ⟨by rw [hprocs, hcur], (hrun.call ho (h.stays hc).2 hmade).1, _, hJ'⟩, hμ⟩

end Keeps

/-- The state of the kernel after a run from boot. -/
def Reachable (fs : Image) (s : State) : Prop :=
  ∃ pcbs esp0 files signals regA pages ops,
    Runs.Meets (step fs) (Promised fs) (boot pcbs esp0 files signals regA pages) ops ∧
      s = Runs.run (step fs) (boot pcbs esp0 files signals regA pages) ops

theorem Reachable.inv {fs : Image} {s : State} (h : Reachable fs s) : Inv s := by
  obtain ⟨pcbs, esp0, files, signals, regA, pages, ops, hmeets, rfl⟩ := h
  exact Runs.invariant_of_meets (I := Inv) (fun s o hs ho => inv_step fs hs o ho)
    (inv_boot pcbs esp0 files signals regA pages) hmeets

/-- A regular file of the image. -/
structure Regular (fs : Image) (name : CStr) (dent : Dentry) : Prop where
  found : fs.readDentryByName name = some dent
  type_eq : dent.filetype = fileTypeReg
  inode_nonneg : 0 ≤ dent.inodeNum.toInt
  inode_lt : dent.inodeNum.toInt < fs.inodeCount.toInt
  size_le : (fs.fileSize dent.inodeNum).toNat ≤ 1023 * 4096

theorem Regular.length {fs : Image} {name : CStr} {dent : Dentry} (h : Regular fs name dent) :
    (fs.contents dent.inodeNum).length ≤ 1023 * 4096 := by
  have hsize := h.size_le
  simpa [Image.contents] using hsize

/-- **`read`** of a regular file from its byte `pos` on. -/
theorem Regular.read {fs : Image} {name : CStr} {dent : Dentry} (h : Regular fs name dent) {s : State}
    {pid fd pos : ℕ} {o : Op} {a : Answer} {nbytes : BitVec 32} (hrun : Running s pid)
    (hentry : fdMap s pid fd = some (.file dent.inodeNum (BitVec.ofNat 32 pos)))
    (hpos : pos ≤ (fs.contents dent.inodeNum).length) (hn : nbytes.toNat < 2 ^ 31)
    (ho : Promised fs s o) (hmade : made fs pid s o = some (.read fd true nbytes, a)) :
    a.bytes = ((fs.contents dent.inodeNum).drop pos).take nbytes.toNat ∧ a.ret = a.bytes.length ∧
      pos + a.bytes.length ≤ (fs.contents dent.inodeNum).length ∧
      shown pid s o = [] ∧ Running (step fs s o) pid ∧
      fdMap (step fs s o) pid = Function.update (fdMap s pid) fd
        (some (.file dent.inodeNum (BitVec.ofNat 32 (pos + a.bytes.length)))) := by
  have hlen := h.length
  have hnat : (BitVec.ofNat 32 pos).toNat = pos := by
    rw [BitVec.toNat_ofNat, Nat.mod_eq_of_lt (by omega)]
  obtain ⟨hrun', hret, hbytes, hmap, hshown⟩ := hrun.read_file ho hentry hmade
  obtain ⟨hbuf, hcount⟩ := fs.readData_spec (BitVec.ofNat 32 pos) nbytes h.inode_nonneg
    (Int.le_of_lt h.inode_lt) (by have := h.size_le; omega) (by rw [hnat]; omega)
  rw [hnat] at hbuf hcount
  rw [hbuf] at hbytes
  rw [hcount, ← hbytes] at hret hmap
  refine ⟨hbytes, hret, ?_, hshown, hrun', ?_⟩
  · rw [hbytes, List.length_take, List.length_drop]
    omega
  · rw [hmap, BitVec.ofInt_natCast, BitVec.ofNat_add]

/-- The bytes after the position of a descriptor. -/
def bytesLeft (fs : Image) (inode : BitVec 32) (fd : ℕ) (m : FdMap) : ℕ :=
  match m fd with
  | some (.file _ pos) => (fs.contents inode).length - pos.toNat
  | _ => 0

theorem bytesLeft_eq {fs : Image} {inode : BitVec 32} {fd pos : ℕ} {m : FdMap}
    (hentry : m fd = some (.file inode (BitVec.ofNat 32 pos))) (hpos : pos ≤ (fs.contents inode).length)
    (hlen : (fs.contents inode).length < 2 ^ 32) :
    bytesLeft fs inode fd m = (fs.contents inode).length - pos := by
  rw [bytesLeft, hentry]
  show _ - (BitVec.ofNat 32 pos).toNat = _
  rw [BitVec.toNat_ofNat, Nat.mod_eq_of_lt (hpos.trans_lt hlen)]

/-! ## Directories -/

/-- The names of the directory, up to the first entry without one. -/
def listed (fs : Image) : List (List (BitVec 8)) :=
  ((List.range fs.numDentries.toNat).map fs.entryName).takeWhile fun u => u ≠ []

/-- `.` of the image. -/
structure Folder (fs : Image) (dent : Dentry) : Prop where
  found : fs.readDentryByName (constant ".") = some dent
  type_eq : dent.filetype = fileTypeDir

section directory

variable {fs : Image}

theorem listed_getElem {k : ℕ} (hk : k < (listed fs).length) :
    k < fs.numDentries.toNat ∧ (listed fs)[k] = fs.entryName k ∧ fs.entryName k ≠ [] := by
  have hpre : listed fs <+: (List.range fs.numDentries.toNat).map fs.entryName :=
    List.takeWhile_prefix _
  have hlen := hpre.length_le
  rw [List.length_map, List.length_range] at hlen
  have hget : (listed fs)[k] = fs.entryName k := by
    rw [hpre.getElem hk, List.getElem_map, List.getElem_range]
  refine ⟨by omega, hget, ?_⟩
  have hmem : (listed fs)[k] ∈ listed fs := List.getElem_mem hk
  rw [hget] at hmem
  have hnonempty := List.mem_takeWhile_imp (p := fun u : List (BitVec 8) => decide (u ≠ [])) hmem
  exact of_decide_eq_true hnonempty

/-- Where the list of names ends, so does the directory, or there is an entry without a name. -/
theorem listed_length (fs : Image) : (listed fs).length = fs.numDentries.toNat ∨
    (listed fs).length < fs.numDentries.toNat ∧ fs.entryName (listed fs).length = [] := by
  set names := (List.range fs.numDentries.toNat).map fs.entryName with hnames
  have hsplit : listed fs ++ names.dropWhile (fun u => u ≠ []) = names :=
    List.takeWhile_append_dropWhile
  have hlen : names.length = fs.numDentries.toNat := by simp [hnames]
  cases hdrop : names.dropWhile (fun u => u ≠ []) with
  | nil =>
    rw [hdrop, List.append_nil] at hsplit
    exact Or.inl (by rw [hsplit, hlen])
  | cons u rest =>
    right
    have hempty : u = [] := by
      have hnot := List.head?_dropWhile_not (fun u : List (BitVec 8) => decide (u ≠ [])) names
      rw [hdrop] at hnot
      simpa using hnot
    rw [hdrop] at hsplit
    have hlt : (listed fs).length < fs.numDentries.toNat := by
      rw [← hlen, ← hsplit, List.length_append, List.length_cons]
      omega
    refine ⟨hlt, ?_⟩
    have hin : (listed fs).length < names.length := by omega
    have hget : names[(listed fs).length] = u := by
      simp [← hsplit]
    rw [← hempty, ← hget, List.getElem_map, List.getElem_range]

theorem length_entryName_le (fs : Image) (k : ℕ) : (fs.entryName k).length ≤ maxNameLength := by
  rw [Image.entryName, ← fnLength_eq]
  exact fnLength_le _

/-- The variables of a directory entry, as a read of the directory uses them. -/
theorem readDentryByIndex_ofNat {k : ℕ} (hk : k < fs.numDentries.toNat) :
    ∃ dent, fs.readDentryByIndex (BitVec.ofNat 32 k) = some dent ∧
      fnLength (strncpy (fun _ => 0) dent.filename maxNameLength) = (fs.entryName k).length ∧
      (bytesOf (strncpy (fun _ => 0) dent.filename maxNameLength) maxNameLength).take
        (fs.entryName k).length = fs.entryName k := by
  have hlt := fs.numDentries.isLt
  have hnat : (BitVec.ofNat 32 k).toNat = k := by
    rw [BitVec.toNat_ofNat, Nat.mod_eq_of_lt (by omega)]
  have hle := length_entryName_le fs k
  have hin : ¬ fs.numDentries ≤ BitVec.ofNat 32 k := by
    rw [BitVec.not_le, BitVec.lt_def, hnat]
    exact hk
  refine ⟨_, if_neg hin, ?_, ?_⟩
  · rw [hnat, strncpy_strncpy, fnLength_eq, name_strncpy]
    rfl
  · rw [hnat, strncpy_strncpy]
    refine List.ext_getElem ?_ fun i hi hi' => ?_
    · rw [List.length_take, length_bytesOf, Nat.min_eq_left hle]
    · rw [List.getElem_take]
      simp only [bytesOf, List.getElem_map, List.getElem_range]
      rw [strncpy_of_lt _ _ (hi'.trans_le hle)]
      exact List.getD_eq_getElem _ _ hi'

/-- **`read`** of the directory gives the names one by one, and 0 behind them. -/
theorem Running.read_name {s : State} {pid fd k : ℕ} {o : Op} {a : Answer} {inode nbytes : BitVec 32}
    (h : Running s pid) (hentry : fdMap s pid fd = some (.dir inode (BitVec.ofNat 32 k)))
    (hk : k ≤ (listed fs).length) (ho : Promised fs s o)
    (hmade : made fs pid s o = some (.read fd true nbytes, a)) :
    shown pid s o = [] ∧ (k = (listed fs).length ∧ a.ret = 0 ∨
      ∃ hlt : k < (listed fs).length, a.ret = (listed fs)[k].length ∧ (listed fs)[k] ≠ [] ∧
        (listed fs)[k].length ≤ maxNameLength ∧
        (∀ buf, bytesOf (storeBytes buf a.bytes) (listed fs)[k].length = (listed fs)[k]) ∧
        fdMap (step fs s o) pid =
          Function.update (fdMap s pid) fd (some (.dir inode (BitVec.ofNat 32 (k + 1))))) := by
  obtain ⟨-, hshown, hread⟩ := h.read_dir ho hentry hmade
  refine ⟨hshown, ?_⟩
  by_cases hin : k < fs.numDentries.toNat
  · obtain ⟨dent, hindex, hlength, hname⟩ := readDentryByIndex_ofNat hin
    rw [hindex] at hread
    obtain ⟨hret, hbytes, hmap⟩ := hread
    rw [hlength] at hret
    rcases Nat.eq_or_lt_of_le hk with heq | hlt
    · obtain hend | ⟨-, hempty⟩ := listed_length fs
      · omega
      · rw [← heq] at hempty
        rw [hempty] at hret
        exact Or.inl ⟨heq, hret⟩
    · obtain ⟨-, hget, hne⟩ := listed_getElem hlt
      have hle := length_entryName_le fs k
      refine Or.inr ⟨hlt, ?_⟩
      rw [hget]
      refine ⟨hret, hne, hle, fun buf => ?_, ?_⟩
      · rw [hbytes, bytesOf_storeBytes buf (by rw [length_bytesOf]; exact hle), hname]
      · rw [hmap, BitVec.ofNat_add]
        rfl
  · have hnone : fs.readDentryByIndex (BitVec.ofNat 32 k) = none := by
      obtain hend | ⟨hend, -⟩ := listed_length fs
      · have hlt := fs.numDentries.isLt
        rw [Image.readDentryByIndex, if_pos]
        rw [BitVec.le_def, BitVec.toNat_ofNat, Nat.mod_eq_of_lt (by omega)]
        omega
      · omega
    rw [hnone] at hread
    obtain hend | ⟨hend, -⟩ := listed_length fs
    · exact Or.inl ⟨by omega, hread.1⟩
    · omega

end directory

/-- The first shell, started on a machine without anything else. -/
def firstShell (fs : Image) : State :=
  Runs.run (step fs) (boot (fun _ => ⟨none, 0, 0, 0, 0, fun _ => none⟩) 0
    (fun _ => ⟨.dir, 7, 7, .term, false⟩) (fun _ => 0) 0 (fun _ _ => 0)) [.tick true 0]

theorem reachable_firstShell (fs : Image) : Reachable fs (firstShell fs) := by
  refine ⟨_, _, _, _, _, _, _, ?_, rfl⟩
  exact ⟨fun _ => ⟨by decide, rfl⟩, trivial⟩

end User
end CoreOS
