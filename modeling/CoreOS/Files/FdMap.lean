import CoreOS.Files.Reachable
import Mathlib.Data.List.Find

/-!
# A descriptor table is a map

What a process knows of its descriptors is a map: `FdMap` says which of them are open and what each
one stands for, a regular file or a directory with the place reached in it, a clock, or one of the
two sides of the terminal.  For a clock the map holds nothing more, since the driver changes its
`FILE` at every interrupt.

`FdMap.after` is how a system call of the process changes the map.  Nothing else does: no call of
another process, no start or end of one, and no interrupt, although all the `FILE`s lie in memory
that the clock driver writes to.  This is `fdMap_step`, and with it the table of every process is the
map that its own calls make (`ActsAsMap`).
-/

namespace CoreOS
namespace Files

open Rtc Registry FileSys

/-! ## The map -/

/-- What an open descriptor stands for. -/
inductive Entry where
  | stdin
  | stdout
  | rtc
  | file (inode pos : BitVec 32)
  | dir (inode pos : BitVec 32)
  deriving DecidableEq

/-- The open descriptors, all of them below 8. -/
abbrev FdMap : Type := ℕ → Option Entry

/-- What a `FILE` stands for. -/
def entryOf (v : FILE) : Entry :=
  match v.fileOps with
  | .stdin => .stdin
  | .stdout => .stdout
  | .rtc => .rtc
  | .file => .file v.inode v.pos
  | .dir => .dir v.inode v.pos

/-- The map of a process. -/
def fdMap (s : State) (pid : ℕ) : FdMap := fun fd =>
  if fd < taskMaxFiles ∧ (s.file ⟨pid, fd⟩).used = true then some (entryOf (s.file ⟨pid, fd⟩))
  else none

/-- A file just opened: the position is 0. -/
def Entry.ofDentry (dent : Dentry) : Entry :=
  if dent.filetype = fileTypeRtc then .rtc
  else if dent.filetype = fileTypeReg then .file dent.inodeNum 0
  else .dir dent.inodeNum 0

/-- Reading moves the position of a regular file or a directory. -/
def Entry.afterRead (fs : Image) (nbytes : BitVec 32) : Entry → Entry
  | .file inode pos => .file inode (pos + BitVec.ofInt 32 (fs.readData inode pos nbytes).ret)
  | .dir inode pos => .dir inode (if (fs.readDentryByIndex pos).isNone then pos else pos + 1)
  | e => e

/-- The least descriptor from 2 on that is not open. -/
def FdMap.leastFree (m : FdMap) : Option ℕ :=
  (List.range' 2 (taskMaxFiles - 2)).find? fun fd => (m fd).isNone

/-- The map after a step of the process. -/
def FdMap.after (m : FdMap) (fs : Image) : Op → FdMap
  | .open filename =>
    match fs.readDentryByName filename, m.leastFree with
    | some dent, some fd => Function.update m fd (some (Entry.ofDentry dent))
    | _, _ => m
  | .close fd => if 2 ≤ fd then Function.update m fd.toNat none else m
  | .read fd buf nbytes _ =>
    if 0 ≤ fd ∧ buf = true then
      Function.update m fd.toNat ((m fd.toNat).map (Entry.afterRead fs nbytes))
    else m
  | _ => m

/-! ## The map of a process -/

section view

variable {s s' : State}

theorem fdMap_eq_none {pid fd : ℕ} (hfd : fd < taskMaxFiles) :
    fdMap s pid fd = none ↔ (s.file ⟨pid, fd⟩).used = false := by
  unfold fdMap
  cases (s.file ⟨pid, fd⟩).used <;> simp [hfd]

theorem fdMap_congr {pid fd : ℕ} (h : s'.file ⟨pid, fd⟩ = s.file ⟨pid, fd⟩) :
    fdMap s' pid fd = fdMap s pid fd := by
  rw [fdMap, fdMap, h]

/-- The clock driver is not seen. -/
theorem fdMap_of_alike {pid fd : ℕ} (h : Alike (s.file ⟨pid, fd⟩) (s'.file ⟨pid, fd⟩)) :
    fdMap s' pid fd = fdMap s pid fd := by
  by_cases hops : (s.file ⟨pid, fd⟩).fileOps = .rtc
  · have hops' : (s'.file ⟨pid, fd⟩).fileOps = .rtc := h.fileOps.trans hops
    rw [fdMap, fdMap, h.used, entryOf, entryOf, hops, hops']
  · exact fdMap_congr (h.other hops)

theorem freeFd_eq (s : State) (pid : ℕ) : s.freeFd pid = (fdMap s pid).leastFree := by
  refine List.find?_congr fun fd hfd => ?_
  have hlt : fd < taskMaxFiles := (List.mem_range'_1.mp hfd).2
  unfold fdMap
  cases (s.file ⟨pid, fd⟩).used <;> simp [hlt]

theorem entryOf_openedFile (s : State) (dent : Dentry) (v : FILE) :
    (openedFile s dent v).used = true ∧ entryOf (openedFile s dent v) = Entry.ofDentry dent := by
  rw [openedFile, Entry.ofDentry]
  split_ifs <;> exact ⟨rfl, rfl⟩

/-- The maps after a change of one descriptor. -/
theorem fdMap_update {f : FilePtr} {e : Option Entry}
    (hother : ∀ g, g ≠ f → Alike (s.file g) (s'.file g)) (hself : fdMap s' f.pid f.fd = e) (q : ℕ) :
    fdMap s' q = if q = f.pid then Function.update (fdMap s q) f.fd e else fdMap s q := by
  obtain ⟨pid, n⟩ := f
  split
  · rename_i hq
    subst hq
    ext fd : 1
    by_cases hfd : fd = n
    · subst hfd
      rw [Function.update_self]
      exact hself
    · rw [Function.update_of_ne hfd]
      exact fdMap_of_alike (hother _ fun h => hfd (congrArg FilePtr.fd h))
  · rename_i hq
    ext fd : 1
    exact fdMap_of_alike (hother _ fun h => hq (congrArg FilePtr.pid h))

theorem fdMap_openedAt {dent : Dentry} {pid fd : ℕ} (hat : OpenedAt s dent ⟨pid, fd⟩ s')
    (hfd : fd < taskMaxFiles) (q : ℕ) :
    fdMap s' q = if q = pid then
      Function.update (fdMap s q) fd (some (Entry.ofDentry dent)) else fdMap s q := by
  refine fdMap_update (f := ⟨pid, fd⟩) (fun g hg => ?_) ?_ q
  · rw [hat.file_of_ne g hg]
    exact Alike.refl _
  · obtain ⟨hused, hentry⟩ := entryOf_openedFile s dent (s.file ⟨pid, fd⟩)
    rw [fdMap, hat.file_self, if_pos ⟨hfd, hused⟩, hentry]

theorem fdMap_closedAt (s : State) (pid fd q : ℕ) :
    fdMap (closedAt s ⟨pid, fd⟩) q =
      if q = pid then Function.update (fdMap s q) fd none else fdMap s q := by
  refine fdMap_update (f := ⟨pid, fd⟩) (fun g hg => ?_) ?_ q
  · rw [closedAt_of_ne s hg]
    exact Alike.refl _
  · rw [fdMap, closedAt_self]
    exact if_neg fun h => Bool.noConfusion h.2

/-- The map sees the whole of a `FILE` only through a regular file or a directory. -/
theorem fdMap_of_sameShape {pid fd : ℕ} (h : SameShape (s.file ⟨pid, fd⟩) (s'.file ⟨pid, fd⟩))
    (hfile : (s.file ⟨pid, fd⟩).fileOps ≠ .file) (hdir : (s.file ⟨pid, fd⟩).fileOps ≠ .dir)
    (fs : Image) (nbytes : BitVec 32) :
    fdMap s' pid fd = (fdMap s pid fd).map (Entry.afterRead fs nbytes) := by
  rw [fdMap, fdMap, h.used, entryOf, entryOf, h.fileOps]
  split_ifs
  · cases hops : (s.file ⟨pid, fd⟩).fileOps with
    | stdin => rfl
    | stdout => rfl
    | rtc => rfl
    | file => exact absurd hops hfile
    | dir => exact absurd hops hdir
  · rfl

/-- **What a read makes of the descriptor it goes through.** -/
theorem fdMap_opsRead {fs : Image} {pid fd : ℕ} {nbytes : BitVec 32} {canon : Bool} {ret : ℤ}
    {bytes : List (BitVec 8)}
    (hread : s.opsRead fs ⟨pid, fd⟩ nbytes canon = some (ret, bytes, s')) :
    fdMap s' pid fd = (fdMap s pid fd).map (Entry.afterRead fs nbytes) := by
  have hshape := (frame_opsRead hread).shape ⟨pid, fd⟩
  cases hops : (s.file ⟨pid, fd⟩).fileOps with
  | file =>
    simp only [State.opsRead, hops] at hread
    cases hread
    rw [fdMap, fdMap, State.file_setFile_self]
    simp only [entryOf, hops, Image.fsFileRead]
    split_ifs <;> rfl
  | dir =>
    simp only [State.opsRead, hops] at hread
    cases hread
    rw [fdMap, fdMap, State.file_setFile_self, Image.fsDirRead]
    cases hindex : fs.readDentryByIndex (s.file ⟨pid, fd⟩).pos with
    | none =>
      simp only [entryOf, hops]
      split_ifs
      · simp [Entry.afterRead, hindex]
      · rfl
    | some dent =>
      simp only [entryOf, hops]
      split_ifs
      · simp [Entry.afterRead, hindex]
      · rfl
  | _ => exact fdMap_of_sameShape hshape (by rw [hops]; simp) (by rw [hops]; simp) fs nbytes

theorem fdMap_of_unused {pid fd : ℕ} (h : taskMaxFiles ≤ fd ∨ (s.file ⟨pid, fd⟩).used = false) :
    fdMap s pid fd = none := by
  refine if_neg fun hopen => ?_
  rcases h with hge | hunused
  · exact absurd hopen.1 (Nat.not_lt.mpr hge)
  · rw [hunused] at hopen
    exact Bool.noConfusion hopen.2

/-- A read through a descriptor that is not open. -/
theorem FdMap.after_read_of_none {m : FdMap} {fs : Image} {fd : ℤ} {buf : Bool} {nbytes : BitVec 32}
    {canon : Bool} (h : m fd.toNat = none) : m.after fs (.read fd buf nbytes canon) = m := by
  rw [FdMap.after]
  split
  · rw [h, Option.map_none, ← h]
    exact Function.update_eq_self _ _
  · rfl

/-- **`syscall_read`** moves the position of the descriptor it goes through, and nothing else. -/
theorem fdMap_syscallRead {fs : Image} {pid : ℕ} {fd : ℤ} {buf : Bool} {nbytes : BitVec 32}
    {canon : Bool} {ret : ℤ} {bytes : List (BitVec 8)}
    (hread : s.syscallRead fs pid fd buf nbytes canon = some (ret, bytes, s')) (q : ℕ) :
    fdMap s' q =
      if q = pid then (fdMap s q).after fs (.read fd buf nbytes canon) else fdMap s q := by
  unfold State.syscallRead at hread
  split_ifs at hread with hbuf hrange hused
  · cases hread
    have hnull : ¬ (0 ≤ fd ∧ buf = true) := fun h => Bool.noConfusion (hbuf.symm.trans h.2)
    rw [FdMap.after, if_neg hnull]
    exact (ite_self _).symm
  · cases hread
    split
    · rename_i hq
      subst hq
      rcases hrange with hneg | hge
      · rw [FdMap.after, if_neg (by omega)]
      · exact (FdMap.after_read_of_none (fdMap_of_unused (Or.inl (by omega)))).symm
    · rfl
  · cases hread
    split
    · rename_i hq
      subst hq
      exact (FdMap.after_read_of_none (fdMap_of_unused (Or.inr hused))).symm
    · rfl
  · have hmap := fdMap_update (frame_opsRead hread).other (fdMap_opsRead hread) q
    rw [hmap]
    split
    · rename_i hq
      obtain rfl : q = pid := hq
      rw [FdMap.after, if_pos]
      exact ⟨by omega, by simpa using hbuf⟩
    · rfl

/-- A read that waits is one of the terminal or of a clock, and will not move a position. -/
theorem fdMap_of_waiting {fs : Image} {pid : ℕ} {fd : ℤ} {buf : Bool} {nbytes : BitVec 32}
    {canon : Bool} (hread : s.syscallRead fs pid fd buf nbytes canon = none) :
    (fdMap s pid).after fs (.read fd buf nbytes canon) = fdMap s pid := by
  unfold State.syscallRead at hread
  split_ifs at hread
  have hsame : (fdMap s pid fd.toNat).map (Entry.afterRead fs nbytes) = fdMap s pid fd.toNat := by
    rw [fdMap, entryOf]
    split_ifs
    · cases hops : (s.file ⟨pid, fd.toNat⟩).fileOps with
      | file => simp [State.opsRead, hops] at hread
      | dir => simp [State.opsRead, hops] at hread
      | _ => rfl
    · rfl
  rw [FdMap.after, hsame, Function.update_eq_self]
  exact ite_self _

theorem Quiet.fdMap_eq (h : Quiet s s') (q : ℕ) : fdMap s' q = fdMap s q :=
  funext fun fd => fdMap_of_alike (h.alike ⟨q, fd⟩)

end view

/-! ## Every step -/

section steps

variable {fs : Image} {s : State}

/-- `syscall_open`, on all maps. -/
theorem Inv.fdMap_open (h : Inv s) {filename : CStr} (ho : Promised fs s (.open filename))
    (pid : ℕ) :
    fdMap (step fs s (.open filename)) pid =
      if pid = s.procs.cur then (fdMap s pid).after fs (.open filename) else fdMap s pid := by
  obtain ⟨hfail, heq⟩ | ⟨dent, fd, s', hname, hfd, heq, hat⟩ :=
    h.syscallOpen_cases fs s.procs.cur filename ho.2
  · rw [step, heq]
    show fdMap s pid = _
    split
    · rename_i hcur
      rw [FdMap.after, hcur, ← freeFd_eq]
      rcases hfail with hnone | hnone
      · rw [hnone]
      · rw [hnone]
        cases fs.readDentryByName filename <;> rfl
    · rfl
  · rw [step, heq]
    show fdMap s' pid = _
    rw [fdMap_openedAt hat (State.freeFd_eq_some.mp hfd).2.1]
    split
    · rename_i hcur
      rw [FdMap.after, hcur, ← freeFd_eq, hname, hfd]
    · rfl

/-- `syscall_close`, on all maps. -/
theorem Inv.fdMap_close (h : Inv s) (hcur : s.procs.cur ≠ 0) (fd : ℤ) (pid : ℕ) :
    fdMap (step fs s (.close fd)) pid =
      if pid = s.procs.cur then (fdMap s pid).after fs (.close fd) else fdMap s pid := by
  obtain ⟨hfail, heq⟩ | ⟨hge, -, heq⟩ := h.syscallClose_cases (h.live_cur hcur) fd
  · rw [step, heq]
    show fdMap s pid = _
    split
    · rename_i hpid
      rw [FdMap.after, hpid]
      split
      · rename_i hge
        have hnone : fdMap s s.procs.cur fd.toNat = none := by
          refine fdMap_of_unused ?_
          rcases hfail with hlt | hge' | hunused
          · omega
          · exact Or.inl (by omega)
          · exact Or.inr hunused
        rw [← hnone]
        exact (Function.update_eq_self _ _).symm
      · rfl
    · rfl
  · rw [step, heq]
    show fdMap (Files.closedAt s _) pid = _
    rw [fdMap_closedAt, FdMap.after, if_pos hge]

/-- A new process changes no other. -/
theorem Started.fdMap_eq {p : ℕ} {s' : State} (h : Started s p s') {pid : ℕ} (hne : pid ≠ p) :
    fdMap s' pid = fdMap s pid :=
  funext fun fd => fdMap_congr (by rw [h.file_eq, if_neg hne])

/-- **Only its own calls change the table of a process.** -/
theorem fdMap_step (h : Inv s) {o : Op} (ho : Promised fs s o) {pid : ℕ}
    (hpid : Live s pid) :
    fdMap (step fs s o) pid =
      if pid = s.procs.cur then (fdMap s pid).after fs o else fdMap s pid := by
  cases o with
  | «open» filename => exact h.fdMap_open ho pid
  | close fd => exact h.fdMap_close ho fd pid
  | read fd buf nbytes canon =>
    rw [step]
    cases hread : s.syscallRead fs s.procs.cur fd buf nbytes canon with
    | none =>
      show fdMap s pid = _
      split
      · rename_i hcur
        subst hcur
        exact (fdMap_of_waiting hread).symm
      · rfl
    | some r =>
      obtain ⟨ret, bytes, s'⟩ := r
      exact fdMap_syscallRead hread pid
  | write fd buf nbytes =>
    rw [step, (h.quiet_syscallWrite s.procs.cur fd buf nbytes).fdMap_eq]
    exact (ite_self _).symm
  | execute loads =>
    rw [step]
    cases hexec : s.execute none loads with
    | none => exact (ite_self _).symm
    | some s' =>
      obtain ⟨p, hdead, hstart⟩ := started_of_execute hexec
      have hne : pid ≠ p := fun heq => hdead (heq ▸ hpid)
      exact (hstart.fdMap_eq hne).trans (ite_self _).symm
  | halt =>
    rw [step]
    have hfile : fdMap s.halt pid = fdMap s pid := funext fun fd => fdMap_congr (h.file_halt ho _)
    exact hfile.trans (ite_self _).symm
  | tick loads nextPid =>
    rw [step]
    obtain ⟨-, ⟨hrtc, -⟩ | ⟨p, hdead, hstart⟩⟩ := pitIsr_cases s loads nextPid
    · have hfile : fdMap (s.pitIsr loads nextPid) pid = fdMap s pid :=
        funext fun fd => fdMap_congr (by rw [State.file, State.file, hrtc])
      exact hfile.trans (ite_self _).symm
    · have hne : pid ≠ p := fun heq => hdead (heq ▸ hpid)
      exact (hstart.fdMap_eq hne).trans (ite_self _).symm
  | rtcIsr =>
    rw [step, (h.quiet_rtcIsr s.procs.cur).fdMap_eq]
    exact (ite_self _).symm
  | term o => exact (ite_self _).symm

end steps

/-! ## The table of a process -/

/-- **The descriptor table of process `pid` behaves as a map.** -/
structure ActsAsMap (fs : Image) (s : State) (pid : ℕ) : Prop where
  stdin_open : fdMap s pid 0 = some .stdin
  stdout_open : fdMap s pid 1 = some .stdout
  close_terminal : ∀ fd : ℤ, fd = 0 ∨ fd = 1 → s.syscallClose pid fd = (-1, s)
  /-- Without such a file or without a free descriptor, `syscall_open` fails. -/
  open_fails : ∀ filename, (fs.readDentryByName filename = none ∨
      ∀ fd, 2 ≤ fd → fd < taskMaxFiles → fdMap s pid fd ≠ none) →
    s.syscallOpen fs pid filename = some (-1, s)
  /-- Otherwise it returns the least free descriptor, at position 0. -/
  open_least : ∀ filename dent fd, fs.readDentryByName filename = some dent → 2 ≤ fd →
    fd < taskMaxFiles → fdMap s pid fd = none →
    (∀ fd', 2 ≤ fd' → fd' < fd → fdMap s pid fd' ≠ none) → (openRtcs s).length < maxProcNum →
    ∃ s', s.syscallOpen fs pid filename = some ((fd : ℤ), s') ∧
      fdMap s' pid = Function.update (fdMap s pid) fd (some (Entry.ofDentry dent)) ∧
      ∀ q, q ≠ pid → fdMap s' q = fdMap s q
  /-- `syscall_close` of an open descriptor from 2 on frees exactly that descriptor. -/
  close_frees : ∀ fd : ℕ, 2 ≤ fd → fd < taskMaxFiles → fdMap s pid fd ≠ none →
    ∃ s', s.syscallClose pid fd = (0, s') ∧
      fdMap s' pid = Function.update (fdMap s pid) fd none ∧
      ∀ q, q ≠ pid → fdMap s' q = fdMap s q
  /-- A descriptor that does not exist or is not open cannot be used. -/
  unusable : ∀ fd : ℤ, (fd < 0 ∨ taskMaxFiles ≤ fd ∨ fdMap s pid fd.toNat = none) →
    (∀ buf nbytes canon, s.syscallRead fs pid fd buf nbytes canon = some (-1, [], s)) ∧
      (∀ buf nbytes, s.syscallWrite pid fd buf nbytes = (-1, s)) ∧
      s.syscallClose pid fd = (-1, s)
  /-- Reading a regular file or a directory changes no other `FILE`. -/
  read_alone : ∀ (fd : ℕ) (inode pos : BitVec 32) buf nbytes canon ret bytes s',
    (fdMap s pid fd = some (.file inode pos) ∨ fdMap s pid fd = some (.dir inode pos)) →
    s.syscallRead fs pid fd buf nbytes canon = some (ret, bytes, s') →
    ∀ g : FilePtr, g ≠ ⟨pid, fd⟩ → s'.file g = s.file g

section acts

variable {fs : Image} {s : State}

/-- A descriptor that is not in the map. -/
theorem unusable_of_none {pid : ℕ} {fd : ℤ}
    (h : fd < 0 ∨ taskMaxFiles ≤ fd ∨ fdMap s pid fd.toNat = none) :
    (fd < 0 ∨ (taskMaxFiles : ℤ) ≤ fd) ∨ (s.file ⟨pid, fd.toNat⟩).used = false := by
  rcases h with hneg | hge | hnone
  · exact Or.inl (Or.inl hneg)
  · exact Or.inl (Or.inr hge)
  · by_cases hge : (taskMaxFiles : ℤ) ≤ fd
    · exact Or.inl (Or.inr hge)
    · have hlt : fd.toNat < taskMaxFiles := by
        unfold taskMaxFiles at hge ⊢
        omega
      exact Or.inr ((fdMap_eq_none hlt).mp hnone)

theorem used_of_fdMap_ne_none {pid fd : ℕ} (hlt : fd < taskMaxFiles) (h : fdMap s pid fd ≠ none) :
    (s.file ⟨pid, fd⟩).used = true := by
  simpa using mt (fdMap_eq_none hlt).mpr h

/-- The descriptor that is least among those from 2 on that are not in the map. -/
theorem freeFd_of_least {pid fd : ℕ} (hge : 2 ≤ fd) (hlt : fd < taskMaxFiles)
    (hnone : fdMap s pid fd = none) (hleast : ∀ fd', 2 ≤ fd' → fd' < fd → fdMap s pid fd' ≠ none) :
    s.freeFd pid = some fd := by
  refine State.freeFd_eq_some.mpr ⟨hge, hlt, (fdMap_eq_none hlt).mp hnone, ?_⟩
  intro fd' hge' hlt'
  exact used_of_fdMap_ne_none (Nat.lt_trans hlt' hlt) (hleast fd' hge' hlt')

/-- Without such a descriptor there is none to give out. -/
theorem freeFd_of_full {pid : ℕ}
    (hfull : ∀ fd, 2 ≤ fd → fd < taskMaxFiles → fdMap s pid fd ≠ none) : s.freeFd pid = none := by
  rw [State.freeFd_eq_none]
  intro fd hge hlt
  exact used_of_fdMap_ne_none hlt (hfull fd hge hlt)

/-- The calls that take a descriptor fail where it does not exist or is not open. -/
theorem syscalls_of_unusable {pid : ℕ} {fd : ℤ}
    (h : (fd < 0 ∨ (taskMaxFiles : ℤ) ≤ fd) ∨ (s.file ⟨pid, fd.toNat⟩).used = false) :
    (∀ buf nbytes canon, s.syscallRead fs pid fd buf nbytes canon = some (-1, [], s)) ∧
      (∀ buf nbytes, s.syscallWrite pid fd buf nbytes = (-1, s)) ∧
      s.syscallClose pid fd = (-1, s) := by
  rcases h with hrange | hunused
  · refine ⟨fun buf nbytes canon => ?_, fun buf nbytes => ?_, ?_⟩
    · rw [State.syscallRead, if_pos hrange, ite_self]
    · cases buf with
      | none => rfl
      | some buf => rw [State.syscallWrite, if_pos hrange]
    · rw [State.syscallClose, if_pos hrange]
  · refine ⟨fun buf nbytes canon => ?_, fun buf nbytes => ?_, ?_⟩
    · rw [State.syscallRead, if_pos hunused, ite_self, ite_self]
    · cases buf with
      | none => rfl
      | some buf => rw [State.syscallWrite, if_pos hunused, ite_self]
    · rw [State.syscallClose, if_pos hunused, ite_self]

/-- The table of operations behind a descriptor. -/
def Entry.fileOps : Entry → FileOps
  | .stdin => .stdin
  | .stdout => .stdout
  | .rtc => .rtc
  | .file _ _ => .file
  | .dir _ _ => .dir

theorem fileOps_of_fdMap {pid fd : ℕ} {e : Entry} (h : fdMap s pid fd = some e) :
    (s.file ⟨pid, fd⟩).fileOps = e.fileOps := by
  unfold fdMap at h
  split_ifs at h
  obtain rfl := Option.some.inj h
  unfold entryOf
  cases (s.file ⟨pid, fd⟩).fileOps <;> rfl

/-- Reading a regular file or a directory moves its position and does nothing else. -/
theorem file_opsRead_of_ne {f g : FilePtr} {nbytes : BitVec 32} {canon : Bool} {ret : ℤ}
    {bytes : List (BitVec 8)} {s' : State}
    (hops : (s.file f).fileOps = .file ∨ (s.file f).fileOps = .dir)
    (hread : s.opsRead fs f nbytes canon = some (ret, bytes, s')) (hg : g ≠ f) :
    s'.file g = s.file g := by
  rcases hops with hops | hops
  · simp only [State.opsRead, hops] at hread
    cases hread
    exact State.file_setFile_of_ne s hg _
  · simp only [State.opsRead, hops] at hread
    cases hread
    exact State.file_setFile_of_ne s hg _

theorem Inv.actsAsMap (h : Inv s) (fs : Image) {pid : ℕ} (hpid : Live s pid) :
    ActsAsMap fs s pid where
  stdin_open := by
    obtain ⟨hused, hops⟩ := h.stdin pid hpid
    rw [fdMap, if_pos ⟨by decide, hused⟩, entryOf, hops]
  stdout_open := by
    obtain ⟨hused, hops⟩ := h.stdout pid hpid
    rw [fdMap, if_pos ⟨by decide, hused⟩, entryOf, hops]
  close_terminal := by
    intro fd hfd
    obtain ⟨-, heq⟩ | ⟨hge, -, -⟩ := h.syscallClose_cases hpid fd
    · exact heq
    · omega
  open_fails := by
    intro filename hfail
    unfold State.syscallOpen
    rcases hfail with hnone | hfull
    · rw [hnone]
    · rw [freeFd_of_full hfull]
      cases fs.readDentryByName filename <;> rfl
  open_least := by
    intro filename dent fd hname hge hlt hnone hleast hfew
    have hfree := freeFd_of_least hge hlt hnone hleast
    obtain ⟨hfail, -⟩ | ⟨dent', fd', s', hname', hfd', heq, hat⟩ :=
      h.syscallOpen_cases fs pid filename fun _ _ _ => hfew
    · rcases hfail with hbad | hbad
      · rw [hname] at hbad
        cases hbad
      · rw [hfree] at hbad
        cases hbad
    · obtain rfl : dent = dent' := Option.some.inj (hname.symm.trans hname')
      obtain rfl : fd = fd' := Option.some.inj (hfree.symm.trans hfd')
      refine ⟨s', heq, ?_, fun q hq => ?_⟩
      · rw [fdMap_openedAt hat hlt, if_pos rfl]
      · rw [fdMap_openedAt hat hlt, if_neg hq]
  close_frees := by
    intro fd hge hlt hopen
    obtain ⟨hfail, -⟩ | ⟨-, -, heq⟩ := h.syscallClose_cases hpid (fd : ℤ)
    · have hused := used_of_fdMap_ne_none hlt hopen
      rcases hfail with hlow | hhigh | hunused
      · omega
      · omega
      · rw [Int.toNat_natCast, hused] at hunused
        cases hunused
    · refine ⟨_, heq, ?_, fun q hq => ?_⟩
      · rw [fdMap_closedAt, if_pos rfl]
        rfl
      · rw [fdMap_closedAt, if_neg hq]
  unusable := by
    intro fd hfd
    exact syscalls_of_unusable (unusable_of_none hfd)
  read_alone := by
    intro fd inode pos buf nbytes canon ret bytes s' hmap hread g hg
    unfold State.syscallRead at hread
    split_ifs at hread
    · cases hread
      rfl
    · cases hread
      rfl
    · cases hread
      rfl
    · rcases hmap with hmap | hmap
      · exact file_opsRead_of_ne (Or.inl (fileOps_of_fdMap hmap)) hread hg
      · exact file_opsRead_of_ne (Or.inr (fileOps_of_fdMap hmap)) hread hg

end acts

/-- **Descriptor tables.**  In every state of every run from boot, in which a clock is opened only
while fewer than ten are open in the whole system, the table of every process behaves as a map, and
the next step changes this map as `FdMap.after` says, if it is a step of the process, and not at all
otherwise. -/
theorem descriptors_act_as_map (fs : Image) (pcbs : ℕ → Proc.PCB) (esp0 : ℕ)
    (files : FilePtr → FILE) (signals : ℕ → BitVec 8) (regA : BitVec 8)
    (pages : Term.PagePtr → Term.Screen) (ops : List Op)
    (h : Runs.Meets (step fs) (Promised fs) (boot pcbs esp0 files signals regA pages) ops) :
    let s := Runs.run (step fs) (boot pcbs esp0 files signals regA pages) ops
    ∀ pid, Live s pid → ActsAsMap fs s pid ∧ ∀ o, Promised fs s o →
      fdMap (step fs s o) pid =
        if pid = s.procs.cur then (fdMap s pid).after fs o else fdMap s pid := by
  intro s pid hpid
  have hinv : Inv s := Runs.invariant_of_meets (I := Inv) (fun s o hs ho => inv_step fs hs o ho)
    (inv_boot pcbs esp0 files signals regA pages) h
  exact ⟨hinv.actsAsMap fs hpid, fun o ho => fdMap_step hinv ho hpid⟩

/-- An image with a regular file `a` and a clock `r`. -/
def fileAndClock : Image where
  bblockPtr := 0
  mem a :=
    if a = 0 then 2
    else if a = 4 ∨ a = 8 then 1
    else if a = 64 then 0x61
    else if a = 96 then 2
    else if a = 128 then 0x72
    else 0

/-- The shell opens the clock, then the file, and closes the clock: the file stays at descriptor 3 at
position 0, and the next file to be opened gets descriptor 2. -/
theorem descriptors_act_as_map_shell :
    let name (c : BitVec 8) : CStr := fun k => if k = 0 then c else 0
    let s₀ := boot (fun _ => ⟨none, 0, 0, 0, 0, fun _ => none⟩) 0
      (fun _ => ⟨.dir, 7, 7, .term, false⟩) (fun _ => 0) 0 (fun _ _ => 0)
    let ops : List Op := [.tick true 0, .open (name 0x72), .open (name 0x61), .rtcIsr, .close 2]
    let s := Runs.run (step fileAndClock) s₀ ops
    Runs.Meets (step fileAndClock) (Promised fileAndClock) s₀ ops ∧
      fdMap s 1 3 = some (.file 0 0) ∧
      ∃ s', s.syscallOpen fileAndClock 1 (name 0x61) = some (2, s') ∧
        fdMap s' 1 2 = some (.file 0 0) ∧ fdMap s' 1 3 = some (.file 0 0) := by
  intro name s₀ ops s
  have h : Runs.Meets (step fileAndClock) (Promised fileAndClock) s₀ ops := by
    refine ⟨fun _ => ⟨by decide, rfl⟩, ⟨by decide, fun _ _ _ => ?_⟩, ⟨by decide, fun _ _ _ => ?_⟩,
      trivial, ?_, trivial⟩
    · show (openRtcs (Runs.run (step fileAndClock) s₀ (ops.take 1))).length < maxProcNum
      decide
    · show (openRtcs (Runs.run (step fileAndClock) s₀ (ops.take 2))).length < maxProcNum
      decide
    · show (Runs.run (step fileAndClock) s₀ (ops.take 4)).procs.cur ≠ 0
      decide
  have hlive : Live s 1 := by
    show s.procs.pidUsed 1 = true
    decide
  have hfile : fdMap s 1 3 = some (.file 0 0) := by decide
  have hentry : (fileAndClock.readDentryByName (name 0x61)).map Entry.ofDentry =
      some (.file 0 0) := by
    decide
  obtain ⟨dent, hname, hdent⟩ := Option.map_eq_some_iff.mp hentry
  obtain ⟨hacts, -⟩ := descriptors_act_as_map fileAndClock _ _ _ _ _ _ ops h 1 hlive
  obtain ⟨s', hopen, hmap, -⟩ := hacts.open_least (name 0x61) dent 2 hname (by decide) (by decide)
    (by decide) (by omega) (by decide)
  refine ⟨h, hfile, s', hopen, ?_, ?_⟩
  · rw [hmap, Function.update_self, hdent]
  · rw [hmap, Function.update_of_ne (by decide), hfile]

end Files
end CoreOS
