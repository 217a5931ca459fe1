import CoreOS.Files.Syscalls
import CoreOS.Proc.Chains
import CoreOS.Rtc.Virtual
import Mathlib.Data.List.Nodup
import Mathlib.Tactic.Choose

/-!
# The open files of all processes

Between two steps every process in use has the terminal at descriptors 0 and 1, the descriptors from
2 on lead to the clock or to the file system, and the clock driver keeps track of exactly the clocks
that are open in processes in use: `Inv`.

The registry of the clock driver is what ties the components together.  The driver writes to every
`FILE` in it at every interrupt, long after the system call that registered it, so the invariant has
to say that no entry is left behind when a descriptor is closed or a process ends.  Where the driver
does write it leaves everything alone that the descriptors are about, which is `Alike`.
-/

namespace CoreOS
namespace Files

open Rtc Registry

/-! ## What the clock driver changes -/

/-- A change of `inode` and `pos` alone. -/
structure SameShape (v v' : FILE) : Prop where
  fileOps : v'.fileOps = v.fileOps
  type : v'.type = v.type
  used : v'.used = v.used

/-- A change of `inode` and `pos` in a clock, or no change. -/
structure Alike (v v' : FILE) : Prop extends SameShape v v' where
  other : v.fileOps ≠ .rtc → v' = v

theorem Alike.refl (v : FILE) : Alike v v := ⟨⟨rfl, rfl, rfl⟩, fun _ => rfl⟩

theorem Alike.of_rtc {v v' : FILE} (hv : v.fileOps = .rtc) (h : SameShape v v') : Alike v v' :=
  ⟨h, fun hne => absurd hv hne⟩

theorem Alike.trans {v v' v'' : FILE} (h : Alike v v') (h' : Alike v' v'') : Alike v v'' where
  fileOps := h'.fileOps.trans h.fileOps
  type := h'.type.trans h.type
  used := h'.used.trans h.used
  other := by
    intro hv
    rw [h'.other (by rw [h.fileOps]; exact hv), h.other hv]

section driver

variable {d : Driver}

/-- Every clock the driver keeps track of is one. -/
def RegistersRtc (d : Driver) : Prop := ∀ f, Registered d f → (d.files f).fileOps = .rtc

/-- A visit of the registry changes clocks only. -/
theorem alike_visit (hreg : RegistersRtc d) (hdist : Distinct d.rtcFiles) {g : FILE → FILE}
    (hg : ∀ v, SameShape v (g v)) (f : FilePtr) :
    Alike (d.files f) ((List.finRange maxProcNum).foldl (visit d.rtcFiles g) d.files f) := by
  by_cases hf : Registered d f
  · rw [files_of_registered hdist hf]
    exact Alike.of_rtc (hreg f hf) (hg _)
  · rw [foldl_visit_of_not_mem fun i _ hi => hf ⟨i, hi⟩]
    exact Alike.refl _

theorem sameShape_tick (v : FILE) : SameShape v (Driver.tick v) := by
  unfold Driver.tick
  dsimp only
  split <;> exact ⟨rfl, rfl, rfl⟩

theorem alike_rtcIsr (hreg : RegistersRtc d) (hdist : Distinct d.rtcFiles) (cur : ℕ) (f : FilePtr) :
    Alike (d.files f) ((d.rtcIsr cur).files f) := by
  rw [(rtcIsr_eq d cur).1]
  exact alike_visit hreg hdist sameShape_tick f

theorem alike_setFile {f : FilePtr} {v : FILE} (hv : Alike (d.files f) v) (g : FilePtr) :
    Alike (d.files g) ((d.setFile f v).files g) := by
  by_cases hg : g = f
  · subst hg
    rw [setFile_files_self]
    exact hv
  · rw [setFile_files_of_ne _ hg]
    exact Alike.refl _

theorem alike_raised (hreg : RegistersRtc d) (hdist : Distinct d.rtcFiles) {f : FilePtr}
    (hf : (d.files f).fileOps = .rtc) (p : ℕ) (g : FilePtr) :
    Alike (d.files g) ((raised d f p).files g) := by
  have hset := alike_setFile (d := d) (f := f) (v := withFreq p (d.files f))
    (Alike.of_rtc hf ⟨rfl, rfl, rfl⟩)
  have hreg' : RegistersRtc (d.setFile f (withFreq p (d.files f))) := fun g hg =>
    (hset g).fileOps.trans (hreg g hg)
  rw [raised, foldl_updateRtc]
  exact (hset g).trans (alike_visit (g := renew p) hreg' hdist (fun _ => ⟨rfl, rfl, rfl⟩) g)

/-- `rtc_write`, on a clock. -/
theorem alike_rtcWrite (hreg : RegistersRtc d) (hdist : Distinct d.rtcFiles) {f : FilePtr}
    (hf : (d.files f).fileOps = .rtc) (buf : Option (BitVec 32)) (length : BitVec 32)
    (g : FilePtr) :
    Alike (d.files g) ((d.rtcWrite buf length f).2.files g) ∧
      (d.rtcWrite buf length f).2.rtcFiles = d.rtcFiles := by
  rw [rtcWrite_eq]
  cases askedPow buf length with
  | none => exact ⟨Alike.refl _, rfl⟩
  | some p =>
    dsimp only
    split
    · exact ⟨alike_raised hreg hdist hf p g, (raised_eq d f p).1⟩
    · refine ⟨alike_setFile ?_ g, rfl⟩
      exact Alike.of_rtc hf ⟨rfl, rfl, rfl⟩

/-- `rtc_read`, on a clock. -/
theorem alike_rtcRead {f : FilePtr} (hf : (d.files f).fileOps = .rtc) {ret : ℤ} {d' : Driver}
    (h : d.rtcRead f = some (ret, d')) (g : FilePtr) :
    ret = 0 ∧ Alike (d.files g) (d'.files g) ∧ d'.rtcFiles = d.rtcFiles := by
  unfold Driver.rtcRead at h
  dsimp only at h
  split at h
  · cases h
  · cases h
    refine ⟨rfl, alike_setFile ?_ g, rfl⟩
    exact Alike.of_rtc hf ⟨rfl, rfl, rfl⟩

end driver

/-! ## The invariant -/

/-- The pid is in use. -/
def Live (s : State) (p : ℕ) : Prop := s.procs.pidUsed p = true

/-- A descriptor that `syscall_open` assigns, and that is open. -/
structure Opened (s : State) (f : FilePtr) : Prop where
  live : Live s f.pid
  two_le : 2 ≤ f.fd
  lt : f.fd < taskMaxFiles
  used : (s.file f).used = true

/-- **The open files are in order.** -/
structure Inv (s : State) : Prop where
  stacked : ∃ stk, Proc.Stacked s.procs stk
  stdin : ∀ p, Live s p → (s.file ⟨p, 0⟩).used = true ∧ (s.file ⟨p, 0⟩).fileOps = .stdin
  stdout : ∀ p, Live s p → (s.file ⟨p, 1⟩).used = true ∧ (s.file ⟨p, 1⟩).fileOps = .stdout
  /-- The other descriptors do not lead to the terminal, and their types are right. -/
  kind : ∀ f, Opened s f → (s.file f).fileOps ≠ .stdin ∧ (s.file f).fileOps ≠ .stdout ∧
    ((s.file f).type = .rtc ↔ (s.file f).fileOps = .rtc)
  /-- The clock driver keeps track of the clocks that are open. -/
  registered : ∀ f, Registered s.rtc f ↔ Opened s f ∧ (s.file f).fileOps = .rtc
  distinct : Distinct s.rtc.rtcFiles

theorem Inv.registersRtc {s : State} (h : Inv s) : RegistersRtc s.rtc := fun f hf =>
  ((h.registered f).mp hf).2

/-- A step that starts and ends no process, and opens and closes nothing. -/
theorem Inv.of_sameShape {s s' : State} (h : Inv s) (hstacked : ∃ stk, Proc.Stacked s'.procs stk)
    (hlive : s'.procs.pidUsed = s.procs.pidUsed) (hfiles : ∀ f, SameShape (s.file f) (s'.file f))
    (hreg : s'.rtc.rtcFiles = s.rtc.rtcFiles) : Inv s' := by
  have hlive' : ∀ p, Live s' p ↔ Live s p := by
    intro p
    rw [Live, Live, hlive]
  have hopened : ∀ f, Opened s' f ↔ Opened s f := by
    intro f
    constructor
    · intro hf
      exact ⟨(hlive' _).mp hf.live, hf.two_le, hf.lt, (hfiles f).used ▸ hf.used⟩
    · intro hf
      exact ⟨(hlive' _).mpr hf.live, hf.two_le, hf.lt, (hfiles f).used.trans hf.used⟩
  refine ⟨hstacked, ?_, ?_, ?_, ?_, hreg ▸ h.distinct⟩
  · intro p hp
    rw [(hfiles _).used, (hfiles _).fileOps]
    exact h.stdin p ((hlive' p).mp hp)
  · intro p hp
    rw [(hfiles _).used, (hfiles _).fileOps]
    exact h.stdout p ((hlive' p).mp hp)
  · intro f hf
    rw [(hfiles f).fileOps, (hfiles f).type]
    exact h.kind f ((hopened f).mp hf)
  · intro f
    rw [hopened, (hfiles f).fileOps, ← h.registered f, Registered, Registered, hreg]

/-- Process numbers are those of `pid_used`. -/
theorem Inv.live_lt {s : State} (h : Inv s) {p : ℕ} (hp : Live s p) : p < maxProcNum := by
  obtain ⟨stk, hstk⟩ := h.stacked
  obtain ⟨t, ht⟩ := hstk.used p hp
  exact (hstk.valid t p ht).2.1

/-- The running process is in use. -/
theorem Inv.live_cur {s : State} (h : Inv s) (hcur : s.procs.cur ≠ 0) : Live s s.procs.cur := by
  obtain ⟨stk, hstk⟩ := h.stacked
  exact (hstk.tableOk.on_top hcur).2

/-! ## Closing -/

section calls

variable {s : State}

/-- The driver after `file_ops->close`. -/
def closedRtc (s : State) (f : FilePtr) : Driver :=
  if (s.file f).fileOps = .rtc then closed s.rtc f else s.rtc

/-- **`file_ops->close`** fails for the terminal and succeeds otherwise.  It changes no `FILE`, and
takes a clock out of the registry. -/
theorem opsClose_eq (s : State) (f : FilePtr) :
    s.opsClose f =
      (if (s.file f).fileOps = .stdin ∨ (s.file f).fileOps = .stdout then -1 else 0,
        { s with rtc := closedRtc s f }) := by
  rw [State.opsClose, closedRtc, rtcClose_eq]
  cases (s.file f).fileOps <;> rfl

theorem closedRtc_files (s : State) (f : FilePtr) : (closedRtc s f).files = s.rtc.files := by
  unfold closedRtc
  split <;> rfl

theorem distinct_closedRtc (h : Distinct s.rtc.rtcFiles) (f : FilePtr) :
    Distinct (closedRtc s f).rtcFiles := by
  unfold closedRtc
  split
  · exact distinct_closed h f
  · exact h

/-- Only `f` is taken out. -/
theorem registered_closedRtc (h : RegistersRtc s.rtc) {f g : FilePtr} :
    Registered (closedRtc s f) g ↔ Registered s.rtc g ∧ g ≠ f := by
  unfold closedRtc
  split
  · exact registered_closed
  · rename_i hf
    refine ⟨fun hg => ⟨hg, ?_⟩, fun hg => hg.1⟩
    rintro rfl
    exact hf (h g hg)

/-- A step that changes one descriptor from 2 on, and nothing else but its entry in the registry. -/
theorem Inv.of_update {s' : State} {f : FilePtr} (h : Inv s) (hlive : Live s f.pid)
    (hfd : 2 ≤ f.fd ∧ f.fd < taskMaxFiles) (hprocs : s'.procs = s.procs)
    (hfile : ∀ g, g ≠ f → s'.file g = s.file g)
    (hkind : (s'.file f).used = true → (s'.file f).fileOps ≠ .stdin ∧
      (s'.file f).fileOps ≠ .stdout ∧ ((s'.file f).type = .rtc ↔ (s'.file f).fileOps = .rtc))
    (hreg : ∀ g, Registered s'.rtc g ↔ if g = f then
      (s'.file f).used = true ∧ (s'.file f).fileOps = .rtc else Registered s.rtc g)
    (hdist : Distinct s'.rtc.rtcFiles) : Inv s' := by
  have hlive' : ∀ p, Live s' p ↔ Live s p := by
    intro p
    rw [Live, Live, hprocs]
  have hlow : ∀ (p fd : ℕ), fd < 2 → (⟨p, fd⟩ : FilePtr) ≠ f := by
    rintro p fd hlt rfl
    exact absurd hfd.1 (Nat.not_le.mpr hlt)
  have hopened : ∀ g, g ≠ f → (Opened s' g ↔ Opened s g) := by
    intro g hg
    constructor
    · intro ho
      exact ⟨(hlive' _).mp ho.live, ho.two_le, ho.lt, hfile g hg ▸ ho.used⟩
    · intro ho
      exact ⟨(hlive' _).mpr ho.live, ho.two_le, ho.lt, (hfile g hg).symm ▸ ho.used⟩
  refine ⟨hprocs.symm ▸ h.stacked, ?_, ?_, ?_, ?_, hdist⟩
  · intro p hp
    rw [hfile _ (hlow p 0 (by decide))]
    exact h.stdin p ((hlive' p).mp hp)
  · intro p hp
    rw [hfile _ (hlow p 1 (by decide))]
    exact h.stdout p ((hlive' p).mp hp)
  · intro g hg
    by_cases hgf : g = f
    · subst hgf
      exact hkind hg.used
    · rw [hfile g hgf]
      exact h.kind g ((hopened g hgf).mp hg)
  · intro g
    rw [hreg]
    split
    · rename_i hgf
      subst hgf
      refine ⟨fun hg => ⟨⟨(hlive' _).mpr hlive, hfd.1, hfd.2, hg.1⟩, hg.2⟩, fun hg => ?_⟩
      exact ⟨hg.1.used, hg.2⟩
    · rename_i hgf
      rw [hopened g hgf, hfile g hgf]
      exact h.registered g

theorem State.file_setFile_self (s : State) (f : FilePtr) (v : FILE) : (s.setFile f v).file f = v :=
  setFile_files_self ..

theorem State.file_setFile_of_ne (s : State) {f g : FilePtr} (hg : g ≠ f) (v : FILE) :
    (s.setFile f v).file g = s.file g :=
  setFile_files_of_ne _ hg v

/-- The state after an open descriptor from 2 on has been closed. -/
def closedAt (s : State) (f : FilePtr) : State :=
  State.setUsed { s with rtc := closedRtc s f } f false

theorem closedAt_self (s : State) (f : FilePtr) :
    (closedAt s f).file f = { s.file f with used := false } := by
  rw [closedAt, State.setUsed, State.file_setFile_self]
  show { (closedRtc s f).files f with used := false } = _
  rw [closedRtc_files]
  rfl

theorem closedAt_of_ne (s : State) {f g : FilePtr} (hg : g ≠ f) :
    (closedAt s f).file g = s.file g := by
  rw [closedAt, State.setUsed, State.file_setFile_of_ne _ hg]
  show (closedRtc s f).files g = _
  rw [closedRtc_files]
  rfl

theorem Inv.closedAt (h : Inv s) {f : FilePtr} (hf : Opened s f) : Inv (closedAt s f) := by
  refine h.of_update hf.live ⟨hf.two_le, hf.lt⟩ rfl (fun g hg => closedAt_of_ne s hg) ?_ ?_
    (distinct_closedRtc h.distinct f)
  · intro hused
    rw [closedAt_self] at hused
    cases hused
  · intro g
    have hreg : Registered (Files.closedAt s f).rtc g ↔ Registered s.rtc g ∧ g ≠ f :=
      registered_closedRtc h.registersRtc
    rw [hreg, closedAt_self]
    split
    · rename_i hgf
      exact ⟨fun hg => absurd hgf hg.2, fun hg => Bool.noConfusion hg.1⟩
    · rename_i hgf
      exact ⟨fun hg => hg.1, fun hg => ⟨hg, hgf⟩⟩

/-- Descriptors 0 and 1 lead to the terminal. -/
theorem Inv.terminal (h : Inv s) {pid : ℕ} (hpid : Live s pid) (fd : ℕ) (hfd : fd < 2) :
    (s.file ⟨pid, fd⟩).fileOps = .stdin ∨ (s.file ⟨pid, fd⟩).fileOps = .stdout := by
  match fd, hfd with
  | 0, _ => exact Or.inl (h.stdin pid hpid).2
  | 1, _ => exact Or.inr (h.stdout pid hpid).2

/-- What `syscall_close` does, by what it finds. -/
theorem Inv.syscallClose_cases (h : Inv s) {pid : ℕ} (hpid : Live s pid) (fd : ℤ) :
    ((fd < 2 ∨ taskMaxFiles ≤ fd ∨ (s.file ⟨pid, fd.toNat⟩).used = false) ∧
        s.syscallClose pid fd = (-1, s)) ∨
      (2 ≤ fd ∧ Opened s ⟨pid, fd.toNat⟩ ∧
        s.syscallClose pid fd = (0, Files.closedAt s ⟨pid, fd.toNat⟩)) := by
  rw [State.syscallClose]
  by_cases hrange : fd < 0 ∨ taskMaxFiles ≤ fd
  · rw [if_pos hrange]
    refine Or.inl ⟨?_, rfl⟩
    rcases hrange with hlt | hge
    · exact Or.inl (by omega)
    · exact Or.inr (Or.inl hge)
  rw [if_neg hrange]
  by_cases hused : (s.file ⟨pid, fd.toNat⟩).used = false
  · rw [if_pos hused]
    exact Or.inl ⟨Or.inr (Or.inr hused), rfl⟩
  rw [if_neg hused, opsClose_eq]
  dsimp only
  by_cases hlow : fd < 2
  · left
    have hterm := h.terminal hpid fd.toNat (by omega)
    refine ⟨Or.inl hlow, ?_⟩
    rw [if_pos hterm, if_pos (by decide), closedRtc, if_neg]
    intro hrtc
    rw [hrtc] at hterm
    rcases hterm with hops | hops
    · cases hops
    · cases hops
  · right
    have hopened : Opened s ⟨pid, fd.toNat⟩ := by
      refine ⟨hpid, ?_, ?_, by simpa using hused⟩
      · show 2 ≤ fd.toNat
        omega
      · show fd.toNat < taskMaxFiles
        omega
    obtain ⟨hstdin, hstdout, -⟩ := h.kind _ hopened
    refine ⟨by omega, hopened, ?_⟩
    rw [if_neg (not_or.mpr ⟨hstdin, hstdout⟩), if_neg (not_not.mpr rfl)]
    rfl

theorem Inv.syscallClose (h : Inv s) {pid : ℕ} (hpid : Live s pid) (fd : ℤ) :
    Inv (s.syscallClose pid fd).2 := by
  obtain ⟨-, heq⟩ | ⟨-, hopened, heq⟩ := h.syscallClose_cases hpid fd
  · rw [heq]
    exact h
  · rw [heq]
    exact h.closedAt hopened

/-! ## Opening -/

/-- The descriptor `syscall_open` takes. -/
theorem State.freeFd_eq_some {pid fd : ℕ} :
    s.freeFd pid = some fd ↔ 2 ≤ fd ∧ fd < taskMaxFiles ∧ (s.file ⟨pid, fd⟩).used = false ∧
      ∀ fd', 2 ≤ fd' → fd' < fd → (s.file ⟨pid, fd'⟩).used = true := by
  rw [State.freeFd, List.find?_range'_eq_some, List.mem_range'_1]
  simp only [Bool.not_not, Bool.not_eq_true']
  constructor
  · rintro ⟨hfree, ⟨hge, hlt⟩, hleast⟩
    exact ⟨hge, hlt, hfree, hleast⟩
  · rintro ⟨hge, hlt, hfree, hleast⟩
    exact ⟨hfree, ⟨hge, hlt⟩, hleast⟩

theorem State.freeFd_eq_none {pid : ℕ} :
    s.freeFd pid = none ↔
      ∀ fd, 2 ≤ fd → fd < taskMaxFiles → (s.file ⟨pid, fd⟩).used = true := by
  rw [State.freeFd, List.find?_range'_eq_none]
  simp only [Bool.not_not]
  rfl

/-- What `rtc_open` or `fs_open` make of the `FILE`, with the descriptor marked as used. -/
def openedFile (s : State) (dent : FileSys.Dentry) (v : FILE) : FILE :=
  if dent.filetype = FileSys.fileTypeRtc then
    { resetFile s.rtc.sysFreqPow 1 v with fileOps := .rtc, type := .rtc, used := true }
  else if dent.filetype = FileSys.fileTypeReg then
    { v with pos := 0, inode := dent.inodeNum, fileOps := .file, type := .reg, used := true }
  else
    { v with pos := 0, inode := dent.inodeNum, fileOps := .dir, type := .dir, used := true }

/-- The clocks that are open in the whole system. -/
def openRtcs (s : State) : List FilePtr :=
  ((List.range maxProcNum).flatMap fun p => (List.range taskMaxFiles).map fun fd => ⟨p, fd⟩).filter
    fun f => s.procs.pidUsed f.pid && (s.file f).used && decide ((s.file f).type = .rtc)

theorem Inv.mem_openRtcs (h : Inv s) {f : FilePtr} (hf : Registered s.rtc f) : f ∈ openRtcs s := by
  obtain ⟨hopened, hrtc⟩ := (h.registered f).mp hf
  have htype : (s.file f).type = .rtc := (h.kind f hopened).2.2.mpr hrtc
  have hlive : s.procs.pidUsed f.pid = true := hopened.live
  have hlt := h.live_lt hopened.live
  simp only [openRtcs, List.mem_filter, List.mem_flatMap, List.mem_map, List.mem_range]
  refine ⟨⟨f.pid, hlt, f.fd, hopened.lt, rfl⟩, ?_⟩
  simp [hlive, hopened.used, htype]

/-- **With fewer than ten clocks open there is room in the registry.** -/
theorem Inv.exists_free (h : Inv s) (hfew : (openRtcs s).length < maxProcNum) :
    ∃ i, s.rtc.rtcFiles i = none := by
  by_contra hfull
  have hsome : ∀ i, ∃ f, s.rtc.rtcFiles i = some f := by
    intro i
    cases hi : s.rtc.rtcFiles i with
    | none => exact absurd ⟨i, hi⟩ hfull
    | some f => exact ⟨f, rfl⟩
  choose g hg using hsome
  -- ten entries that hold ten different clocks
  have hnodup : ((List.finRange maxProcNum).map g).Nodup := by
    refine List.Nodup.map (fun i j hij => h.distinct (hg i) ?_) (List.nodup_finRange _)
    rw [hij]
    exact hg j
  have hsub : (List.finRange maxProcNum).map g ⊆ openRtcs s := by
    intro f hf
    obtain ⟨i, -, rfl⟩ := List.mem_map.mp hf
    exact h.mem_openRtcs ⟨i, hg i⟩
  have hle := (List.subperm_of_subset hnodup hsub).length_le
  rw [List.length_map, List.length_finRange] at hle
  omega

/-- The state `s'` is `s` with the file of directory entry `dent` opened at descriptor `f`. -/
structure OpenedAt (s : State) (dent : FileSys.Dentry) (f : FilePtr) (s' : State) : Prop where
  procs_eq : s'.procs = s.procs
  terms_eq : s'.terms = s.terms
  file_self : s'.file f = openedFile s dent (s.file f)
  file_of_ne : ∀ g, g ≠ f → s'.file g = s.file g
  registered : ∀ g, Registered s'.rtc g ↔
    if g = f then dent.filetype = FileSys.fileTypeRtc else Registered s.rtc g
  distinct : Distinct s'.rtc.rtcFiles

/-- A file that is not a clock. -/
theorem Inv.openedAt_setFile (h : Inv s) {dent : FileSys.Dentry} {f : FilePtr}
    (hfresh : ¬ Registered s.rtc f) (hrtc : dent.filetype ≠ FileSys.fileTypeRtc) {v : FILE}
    (hv : { v with used := true } = openedFile s dent (s.file f)) :
    OpenedAt s dent f ((s.setFile f v).setUsed f true) where
  procs_eq := rfl
  terms_eq := rfl
  file_self := by
    rw [State.setUsed, State.file_setFile_self, State.file_setFile_self, hv]
  file_of_ne := by
    intro g hg
    rw [State.setUsed, State.file_setFile_of_ne _ hg, State.file_setFile_of_ne _ hg]
  registered := by
    intro g
    split
    · rename_i hgf
      subst hgf
      exact ⟨fun hg => absurd hg hfresh, fun hg => absurd hg hrtc⟩
    · exact Iff.rfl
  distinct := h.distinct

/-- **`rtc_open` or `fs_open`**, on a free descriptor. -/
theorem Inv.openFile (h : Inv s) {fs : FileSys.Image} {filename : FileSys.CStr}
    {dent : FileSys.Dentry} {f : FilePtr} (hf : (s.file f).used = false)
    (hname : fs.readDentryByName filename = some dent)
    (hroom : dent.filetype = FileSys.fileTypeRtc → (openRtcs s).length < maxProcNum) :
    ∃ s₁, s.openFile fs filename dent f = some (0, s₁) ∧ OpenedAt s dent f (s₁.setUsed f true) := by
  have hfresh : ¬ Registered s.rtc f := by
    intro hreg
    rw [((h.registered f).mp hreg).1.used] at hf
    cases hf
  rw [State.openFile]
  by_cases hrtc : dent.filetype = FileSys.fileTypeRtc
  · obtain ⟨i, hi⟩ := h.exists_free (hroom hrtc)
    have hfind : ((List.finRange maxProcNum).find? fun i => (s.rtc.rtcFiles i).isNone).isSome := by
      rw [List.find?_isSome]
      exact ⟨i, List.mem_finRange i, by rw [hi]; rfl⟩
    obtain ⟨j, hj⟩ := Option.isSome_iff_exists.mp hfind
    have hjnone : s.rtc.rtcFiles j = none := by
      simpa using List.find?_some hj
    rw [if_pos hrtc, rtcOpen_eq, hj]
    refine ⟨_, rfl, rfl, rfl, ?_, ?_, ?_, distinct_opened h.distinct hfresh⟩
    · rw [State.setUsed, State.file_setFile_self, openedFile, if_pos hrtc]
      show { (opened s.rtc f j).files f with used := true } = _
      rw [opened_files_self]
      rfl
    · intro g hg
      rw [State.setUsed, State.file_setFile_of_ne _ hg]
      exact opened_files_of_ne _ hg _
    · intro g
      have hopen : Registered (opened s.rtc f j) g ↔ g = f ∨ Registered s.rtc g :=
        registered_opened hjnone
      refine Iff.trans hopen ?_
      split
      · rename_i hgf
        exact ⟨fun _ => hrtc, fun _ => Or.inl hgf⟩
      · rename_i hgf
        exact ⟨fun hg => hg.resolve_left hgf, Or.inr⟩
  · rw [if_neg hrtc, FileSys.Image.fsOpen, hname]
    by_cases hreg : dent.filetype = FileSys.fileTypeReg
    · simp only [if_pos hreg]
      refine ⟨_, rfl, h.openedAt_setFile hfresh hrtc ?_⟩
      rw [openedFile, if_neg hrtc, if_pos hreg]
    · simp only [if_neg hreg]
      refine ⟨_, rfl, h.openedAt_setFile hfresh hrtc ?_⟩
      rw [openedFile, if_neg hrtc, if_neg hreg]

/-- **What `syscall_open` does**, by what it finds. -/
theorem Inv.syscallOpen_cases (h : Inv s) (fs : FileSys.Image) (pid : ℕ)
    (filename : FileSys.CStr)
    (hroom : ∀ dent, fs.readDentryByName filename = some dent →
      dent.filetype = FileSys.fileTypeRtc → (openRtcs s).length < maxProcNum) :
    ((fs.readDentryByName filename = none ∨ s.freeFd pid = none) ∧
        s.syscallOpen fs pid filename = some (-1, s)) ∨
      ∃ dent fd s', fs.readDentryByName filename = some dent ∧ s.freeFd pid = some fd ∧
        s.syscallOpen fs pid filename = some ((fd : ℤ), s') ∧ OpenedAt s dent ⟨pid, fd⟩ s' := by
  unfold State.syscallOpen
  cases hname : fs.readDentryByName filename with
  | none => exact Or.inl ⟨Or.inl rfl, rfl⟩
  | some dent =>
    cases hfd : s.freeFd pid with
    | none => exact Or.inl ⟨Or.inr rfl, rfl⟩
    | some fd =>
      have hfree := (State.freeFd_eq_some.mp hfd).2.2.1
      obtain ⟨s₁, hopen, hat⟩ := h.openFile hfree hname (hroom dent hname)
      refine Or.inr ⟨dent, fd, _, rfl, rfl, ?_, hat⟩
      simp only [hopen, Option.map_some]
      rfl

theorem Inv.openedAt (h : Inv s) {dent : FileSys.Dentry} {pid fd : ℕ} {s' : State}
    (hpid : Live s pid) (hfd : s.freeFd pid = some fd) (hat : OpenedAt s dent ⟨pid, fd⟩ s') :
    Inv s' := by
  obtain ⟨hge, hlt, -, -⟩ := State.freeFd_eq_some.mp hfd
  refine h.of_update hpid ⟨hge, hlt⟩ hat.procs_eq hat.file_of_ne ?_ ?_ hat.distinct
  · intro _
    rw [hat.file_self, openedFile]
    split_ifs <;> simp
  · intro g
    rw [hat.registered]
    split
    · rw [hat.file_self, openedFile]
      split_ifs with hrtc hreg
      · simp [hrtc]
      · simp [hrtc]
      · simp [hrtc]
    · exact Iff.rfl

/-! ## Reading and writing -/

/-- No process and no descriptor comes or goes, and only clocks may change. -/
structure Quiet (s s' : State) : Prop where
  procs_eq : s'.procs = s.procs
  rtcFiles_eq : s'.rtc.rtcFiles = s.rtc.rtcFiles
  alike : ∀ g, Alike (s.file g) (s'.file g)

theorem Quiet.refl (s : State) : Quiet s s := ⟨rfl, rfl, fun _ => Alike.refl _⟩

/-- A change that the clock driver makes. -/
theorem Quiet.of_rtc {d : Driver} (hreg : d.rtcFiles = s.rtc.rtcFiles)
    (hfiles : ∀ g, Alike (s.rtc.files g) (d.files g)) : Quiet s { s with rtc := d } :=
  ⟨rfl, hreg, hfiles⟩

/-- What a read through descriptor `f` leaves alone: the same, except that the `FILE` of `f` need not
be a clock to change. -/
structure Frame (s : State) (f : FilePtr) (s' : State) : Prop where
  procs_eq : s'.procs = s.procs
  rtcFiles_eq : s'.rtc.rtcFiles = s.rtc.rtcFiles
  shape : ∀ g, SameShape (s.file g) (s'.file g)
  other : ∀ g, g ≠ f → Alike (s.file g) (s'.file g)

theorem Quiet.frame {s' : State} (h : Quiet s s') (f : FilePtr) : Frame s f s' :=
  ⟨h.procs_eq, h.rtcFiles_eq, fun g => (h.alike g).toSameShape, fun g _ => h.alike g⟩

theorem Frame.setFile {f : FilePtr} {v : FILE} (hv : SameShape (s.file f) v) :
    Frame s f (s.setFile f v) where
  procs_eq := rfl
  rtcFiles_eq := rfl
  shape := by
    intro g
    by_cases hg : g = f
    · subst hg
      rw [State.file_setFile_self]
      exact hv
    · rw [State.file_setFile_of_ne _ hg]
      exact (Alike.refl _).toSameShape
  other := by
    intro g hg
    rw [State.file_setFile_of_ne _ hg]
    exact Alike.refl _

theorem Inv.of_frame {f : FilePtr} {s' : State} (h : Inv s) (hframe : Frame s f s') : Inv s' :=
  h.of_sameShape (hframe.procs_eq.symm ▸ h.stacked) (by rw [hframe.procs_eq]) hframe.shape
    hframe.rtcFiles_eq

theorem Inv.of_quiet {s' : State} (h : Inv s) (hquiet : Quiet s s') : Inv s' :=
  h.of_frame (hquiet.frame ⟨0, 0⟩)

theorem frame_opsRead {fs : FileSys.Image} {f : FilePtr} {nbytes : BitVec 32} {canon : Bool}
    {ret : ℤ} {bytes : List (BitVec 8)} {s' : State}
    (hread : s.opsRead fs f nbytes canon = some (ret, bytes, s')) : Frame s f s' := by
  unfold State.opsRead at hread
  cases hops : (s.file f).fileOps with
  | stdin =>
    simp only [hops, State.termRead] at hread
    obtain ⟨r, -, hr⟩ := Option.map_eq_some_iff.mp hread
    cases hr
    have hquiet : Quiet s { s with terms := s.terms.store (s.procs.pcbs f.pid).termInd r.2 } :=
      ⟨rfl, rfl, fun _ => Alike.refl _⟩
    exact hquiet.frame f
  | stdout =>
    simp only [hops] at hread
    cases hread
    exact (Quiet.refl s).frame f
  | rtc =>
    simp only [hops] at hread
    obtain ⟨⟨r, d⟩, hd, hr⟩ := Option.map_eq_some_iff.mp hread
    cases hr
    have halike := alike_rtcRead hops hd
    exact (Quiet.of_rtc (halike f).2.2 fun g => (halike g).2.1).frame f
  | file =>
    simp only [hops] at hread
    cases hread
    exact Frame.setFile ⟨rfl, rfl, rfl⟩
  | dir =>
    simp only [hops] at hread
    cases hread
    refine Frame.setFile ?_
    unfold FileSys.Image.fsDirRead
    split <;> exact ⟨rfl, rfl, rfl⟩

theorem frame_syscallRead {fs : FileSys.Image} {pid : ℕ} {fd : ℤ} {buf : Bool}
    {nbytes : BitVec 32} {canon : Bool} {ret : ℤ} {bytes : List (BitVec 8)} {s' : State}
    (hread : s.syscallRead fs pid fd buf nbytes canon = some (ret, bytes, s')) :
    Frame s ⟨pid, fd.toNat⟩ s' := by
  unfold State.syscallRead at hread
  split_ifs at hread
  · cases hread
    exact (Quiet.refl s).frame _
  · cases hread
    exact (Quiet.refl s).frame _
  · cases hread
    exact (Quiet.refl s).frame _
  · exact frame_opsRead hread

theorem Inv.quiet_opsWrite (h : Inv s) (f : FilePtr) (buf : FileSys.CStr) (nbytes : BitVec 32) :
    Quiet s (s.opsWrite f buf nbytes).2 := by
  unfold State.opsWrite
  cases hops : (s.file f).fileOps with
  | stdin => exact Quiet.refl s
  | stdout => exact ⟨rfl, rfl, fun _ => Alike.refl _⟩
  | rtc =>
    have halike := alike_rtcWrite h.registersRtc h.distinct hops
      (some (buf 3 ++ buf 2 ++ buf 1 ++ buf 0)) nbytes
    exact Quiet.of_rtc (halike f).2 fun g => (halike g).1
  | file => exact Quiet.refl s
  | dir => exact Quiet.refl s

theorem Inv.quiet_syscallWrite (h : Inv s) (pid : ℕ) (fd : ℤ) (buf : Option FileSys.CStr)
    (nbytes : BitVec 32) : Quiet s (s.syscallWrite pid fd buf nbytes).2 := by
  cases buf with
  | none => exact Quiet.refl s
  | some buf =>
    unfold State.syscallWrite
    split_ifs
    · exact Quiet.refl s
    · exact Quiet.refl s
    · exact h.quiet_opsWrite _ buf nbytes

theorem Inv.quiet_rtcIsr (h : Inv s) (cur : ℕ) : Quiet s { s with rtc := s.rtc.rtcIsr cur } :=
  Quiet.of_rtc (rtcIsr_eq s.rtc cur).2.1 (alike_rtcIsr h.registersRtc h.distinct cur)

end calls

end Files
end CoreOS
